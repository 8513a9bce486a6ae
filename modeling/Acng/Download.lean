import Acng.Deleter
import Acng.Inject
import Acng.Lib.Depth
import Acng.MetaFile
import Acng.Registry

namespace Acng
open Lib

/-- `cacheman::eDlResult`. -/
inductive DlResult
  | ok | gone | failLocal | failRemote
deriving DecidableEq, Repr

/-- How a download really ends, whatever the caller is told. -/
inductive DlEnd
  | fresh | skipped | complete | forgiven | replaced | gone | failed | thrown
deriving DecidableEq, Repr

/-- The file could not be brought up to date, and nobody forgives it. -/
def DlEnd.isFailure : DlEnd → Bool
  | .gone | .failed => true
  | _ => false

/-- What a call of `Download` comes to. Without a result it does not return: an exception was thrown
or a null pointer was used. -/
structure DlAnswer where
  result : Option DlResult
  ending : DlEnd
deriving DecidableEq, Repr

/-- `tRepoData` with the backends only. -/
structure RepoBackends where
  m_backends : List HttpUrl := []
deriving DecidableEq, Repr

/-- `tRepoResolvResult`. -/
structure RepoResolvResult where
  repodata : Option RepoBackends := none
  sRestPath : Bytes := []
deriving DecidableEq, Repr

/-- The settings, those of the command and those of the configuration with its repositories. -/
structure CachemanCfg where
  bErrAbort : Bool := false
  bForceDownload : Bool := false
  bSkipIxUpdate : Bool := false
  follow404 : Bool := false
  stupidfs : Bool := false
  getRepoData : Bytes → Option RepoBackends := fun _ => none
  getRepNameAndPathResidual : HttpUrl → RepoResolvResult := fun _ => {}

/-- The parameters of `Download` but the verbosity. Of the hints, the other one only matters for the
checkbox that is shown. -/
structure DlArgs where
  sFilePathRel : Bytes
  bIsVolatileFile : Bool
  pForcedURL : Option HttpUrl := none
  guessReplacement : Bool := false
  sGuessedFrom : Option Bytes := none
  bForceReDownload : Bool := false
deriving DecidableEq, Repr

/-- What the downloads change besides the items. -/
structure DownloadState where
  cache : CacheState := {}
  /-- how often `Download` was entered -/
  calls : Nat := 0
  forceKeepInTrash : List Bytes := []
  killBill : List Bytes := []

/-- The two versions of `AddJob`. -/
inductive DownloadTarget
  | url (u : HttpUrl)
  | repo (r : RepoResolvResult)
deriving DecidableEq, Repr

/-- The end of a transfer: the state and the status that `WaitForFinish` tells, the source of the
response, and the files that are in the cache then. -/
structure Transfer where
  status : FiStatus := .fresh
  response : RemoteStatus := {}
  origin : Bytes := []
  disk : (Bytes → Disk) → Bytes → Disk := id

/-- What happens outside of one call. The item may be one that others use. -/
structure DownloadIo where
  downloader : Bool := true
  create : ESharingHow → Disk → Option FileItem := fun _ disk => some { disk }
  itemRegistry : Bool := true
  transfer : DownloadTarget → Transfer := fun _ => {}

/-- The source that a head file tells. -/
def headOrigin : Option HeadFile → Option Bytes
  | some (.fields _ _ origSrc) => origSrc
  | _ => none

/-- `StrSubst`. -/
def strSubst (pat dst contents : Bytes) : Bytes := dst.intercalate (slices pat 0 contents)

/-- `find` from a position on. -/
def findFrom (pat s : Bytes) (pos : Nat) : Option Nat := (find pat (s.drop pos)).map (· + pos)

/-- The first list of architectures of a Release file is one without this. -/
def archMissing (arch text : Bytes) : Bool :=
  (fileLines text).findSome? (fun sLine =>
    match splitWalk isspace sLine with
    | key :: archs => if key = lit "Architectures:" then some (!archs.contains arch) else none
    | [] => none) == some true

/-- `IsDeprecatedArchFile`. -/
def isDeprecatedArchFile (cache : CacheState) (sFilePathRel : Bytes) : Bool :=
  let opened (s : Bytes) : Option Bytes :=
    if (cache.flags s).uptodate then (cache.disk s).file else none
  let distEnd : Option Nat := do
    let dists ← rfindText (lit "/dists/") sFilePathRel
    let name ← ((sFilePathRel.drop (dists + 7)).findIdx? (· != 47)).map (· + (dists + 7))
    findFrom [47] sFilePathRel name
  match distEnd with
  | none => false
  | some pos =>
    -- that would be the file itself, or InRelease
    if (lit "Release").isSuffixOf sFilePathRel && sFilePathRel.length - 9 ≤ pos then false
    else
      match (opened (sFilePathRel.take pos ++ lit "/Release")).or
          (opened (sFilePathRel.take pos ++ lit "/InRelease")) with
      | none => false
      | some text =>
        match findFrom (lit "/binary-") sFilePathRel pos with
        | none => false
        | some bin =>
          match findFrom [47] sFilePathRel (bin + 8) with
          | none => false
          | some posend =>
            archMissing ((sFilePathRel.take posend).drop (bin + 8)) text

/-- Where a file is to be downloaded from: the URL, or the repository without one, the alternative
and if the original source was told by some head. -/
structure Resolved where
  direct : Option HttpUrl := none
  repoSrc : RepoResolvResult := {}
  fallbackUrl : Option HttpUrl := none
  xorig : Bool := false
deriving DecidableEq, Repr

namespace Resolved

def target (src : Resolved) : DownloadTarget :=
  match src.direct with
  | some u => .url u
  | none => .repo src.repoSrc

/-- A source with backends is preferred to an URL. -/
def preferRepo (cfg : CachemanCfg) (src : Resolved) : Resolved :=
  match src.direct with
  | none => src
  | some u =>
    let repinfo := cfg.getRepNameAndPathResidual u
    if repinfo.repodata.any (fun repo => !repo.m_backends.isEmpty) then
      { src with direct := none, repoSrc := repinfo }
    else src

end Resolved

/-- The URL of a related file, with the path behind the last common directory exchanged. -/
def relatedUrl (refURL sGuessedFrom sFilePathRel : Bytes) : Option HttpUrl :=
  let common := ((sGuessedFrom.zip sFilePathRel).takeWhile (fun p => p.1 == p.2)).map Prod.fst
  let spos := (rfind 47 common).getD 0
  let chopLen := sGuessedFrom.length - spos
  if chopLen < refURL.length && refURL.getD (refURL.length - chopLen) 0 == 47 then
    HttpUrl.setHttpUrl (refURL.take (refURL.length - chopLen) ++ sFilePathRel.drop spos) false
  else none

/-- The search for the source, with the head of the file as it was before; `none` if there is no
URL. -/
def resolveUrl (cfg : CachemanCfg) (cache : CacheState) (args : DlArgs) : Option Resolved :=
  let orig := headOrigin (cache.disk args.sFilePathRel).head
  match args.pForcedURL with
  | some u => some (Resolved.preferRepo cfg { direct := some u, xorig := orig.isSome })
  | none =>
    let parserPath := HttpUrl.setHttpUrl args.sFilePathRel false
    let repodata := if cfg.stupidfs then none
      else parserPath.bind (fun u => cfg.getRepoData u.sHost)
    if repodata.any (fun repo => !repo.m_backends.isEmpty) then
      some {
        repoSrc := { repodata, sRestPath := (parserPath.getD {}).sPath.drop 1 }
        xorig := orig.isSome }
    else
      let tidy (u : HttpUrl) := { u with sPath := strSubst (lit "//") (lit "/") u.sPath }
      let byPath := parserPath.map tidy
      let src : Resolved :=
        match orig.bind (HttpUrl.setHttpUrl · false) with
        | some parserHead =>
          { direct := some parserHead, fallbackUrl := byPath.map tidy, xorig := true }
        | none =>
          match args.sGuessedFrom with
          | none => { direct := byPath, xorig := orig.isSome }
          | some guessedFrom =>
            -- the header object is used again
            match headOrigin (cache.disk guessedFrom).head with
            | none => { direct := byPath }
            | some refURL =>
              match relatedUrl refURL guessedFrom args.sFilePathRel with
              | some u => { direct := some u, xorig := true }
              | none => { direct := byPath, xorig := true }
      if src.direct.isNone then none
      else some (Resolved.preferRepo cfg { src with repoSrc := { repodata } })

/-- The repair code for files that are there with another compression: the end of the path, the new
one, and a text that must be there, too. -/
structure Fix where
  fromEnd : Bytes
  toEnd : Bytes
  extraCheck : Bytes := []

def fixmap : List Fix := [
  { fromEnd := lit "/Packages.bz2", toEnd := lit "/Packages.xz" },
  { fromEnd := lit "/Sources.bz2", toEnd := lit "/Sources.xz" },
  { fromEnd := lit "/Release", toEnd := lit "/InRelease" },
  { fromEnd := lit "/InRelease", toEnd := lit "/Release" },
  { fromEnd := lit ".bz2", toEnd := lit ".xz", extraCheck := lit "i18n/Translation-" },
  { fromEnd := lit "/Packages.gz", toEnd := lit "/Packages.xz" },
  { fromEnd := lit "/Sources.gz", toEnd := lit "/Sources.xz" }]

namespace Fix

def applies (fix : Fix) (s : Bytes) : Bool :=
  fix.fromEnd.isSuffixOf s && (find fix.extraCheck s).isSome

def apply (fix : Fix) (s : Bytes) : Bytes := s.take (s.length - fix.fromEnd.length) ++ fix.toEnd

end Fix

/-- What is tried when the end of `Download` is reached with an error: another call, a call for an
alternative, or something that does not return. -/
inductive Retry
  | nothing
  | again (args : DlArgs)
  | replace (args : DlArgs)
  | throws
deriving DecidableEq, Repr

/-- The Release file that may be there in front of a slash, with its source. -/
def guessAt (cache : CacheState) (args : DlArgs) (place : Nat × Bytes) : Option Retry :=
  let (pos, sfx) := place
  let path := args.sFilePathRel
  let testpath := path.take pos ++ sfx
  if (cache.flags testpath).vfile_ondisk then
    match headOrigin (cache.disk testpath).head with
    | none => none
    | some url =>
      if url.length < sfx.length then some .throws
      else
        (HttpUrl.setHttpUrl (url.take (url.length - sfx.length) ++ path.drop pos) false).map
          (fun tu => .again {
            sFilePathRel := path
            bIsVolatileFile := args.bIsVolatileFile
            pForcedURL := some tu
            bForceReDownload := true })
  else none

/-- The educated guess relative to the Release files in the directories above. -/
def guessFromRelease (cache : CacheState) (args : DlArgs) : Retry :=
  let path := args.sFilePathRel
  let places := (List.range path.length).reverse.filter (fun pos => path.getD pos 0 == 47)
  let keys := [inRelKey, relKey].filter (fun sfx => !sfx.isSuffixOf path)
  ((places.flatMap (fun pos => keys.map (fun sfx => (pos, sfx)))).findSome?
    (guessAt cache args)).getD .nothing

/-- The attempt with an alternative version. The source of the response is parsed without a check. -/
def guessReplacement (args : DlArgs) (direct : Option HttpUrl) (origin : Bytes) : Retry :=
  match fixmap.filter (·.applies args.sFilePathRel) with
  | [] => .nothing
  | fixes =>
    match direct.or (HttpUrl.setHttpUrl origin true) with
    | none => .throws
    | some url =>
      match fixes.find? (·.applies url.sPath) with
      | none => .nothing
      | some fix => .replace {
          sFilePathRel := fix.apply args.sFilePathRel
          bIsVolatileFile := args.bIsVolatileFile
          pForcedURL := some { url with sPath := fix.apply url.sPath } }

/-- The two attempts to repair an error. -/
def retry (cache : CacheState) (args : DlArgs) (src : Resolved) (dl : Transfer) : Retry :=
  if src.repoSrc.repodata.any (fun repo => repo.m_backends.isEmpty) && !src.xorig &&
      args.pForcedURL.isNone then guessFromRelease cache args
  else if args.guessReplacement && dl.response.code = 404 then
    guessReplacement args src.direct dl.origin
  else .nothing

/-- How the body of `Download` goes on: with a return, with a call whose result is returned, with a
call for an alternative, or to the last line. -/
inductive DlNext
  | answer (a : DlAnswer) (st : DownloadState)
  | again (args : DlArgs) (st : DownloadState)
  | replace (args : DlArgs) (st : DownloadState)
  | lastLine (ending : DlEnd) (st : DownloadState)

/-- The part behind `rep_dlresult`. -/
def repDlResult (args : DlArgs) (src : Resolved) (dl : Transfer) (ret : DlResult) (ending : DlEnd)
    (st : DownloadState) : DlNext :=
  let st := if ret = .ok && args.bIsVolatileFile then
      { st with cache :=
          st.cache.setFlags args.sFilePathRel (fun atts => { atts with uptodate := true }) }
    else st
  if ret = .ok then .lastLine ending st
  else
    match retry st.cache args src dl with
    | .nothing => .lastLine ending st
    | .again args => .again args st
    | .replace args => .replace args st
    | .throws => .answer ⟨none, .thrown⟩ st

/-- The file is not expected to come back. -/
def goneForGood (cfg : CachemanCfg) (cache : CacheState) (args : DlArgs) (dl : Transfer) : Bool :=
  (cfg.follow404 && dl.response.code = 404) || isDeprecatedArchFile cache args.sFilePathRel

/-- The error is ignored. -/
def forgiven (cache : CacheState) (args : DlArgs) (dl : Transfer) : Bool :=
  (cache.flags args.sFilePathRel).forgiveDlErrors ||
    (dl.response.code = 404 && (lit "/i18n/Index").isSuffixOf args.sFilePathRel)

/-- The part behind `format_error`. -/
def formatError (cfg : CachemanCfg) (args : DlArgs) (src : Resolved) (dl : Transfer)
    (st : DownloadState) : DlNext :=
  if goneForGood cfg st.cache args dl then
    repDlResult args src dl .gone .gone
      { st with forceKeepInTrash := st.forceKeepInTrash ++ [args.sFilePathRel] }
  else if forgiven st.cache args dl then repDlResult args src dl .ok .forgiven st
  else repDlResult args src dl .failRemote .failed st

/-- How the item is requested. -/
def DlArgs.mode (cfg : CachemanCfg) (args : DlArgs) : ESharingHow :=
  if cfg.bForceDownload || args.bForceReDownload then .forceMoveOutOfTheWay
  else if args.bIsVolatileFile then .autoMoveOutOfTheWay
  else .alwaysTrySharing

/-- The body of `cacheman::Download`. -/
def downloadNext (cfg : CachemanCfg) (io : DownloadIo) (args : DlArgs) (st : DownloadState) :
    DlNext :=
  let path := args.sFilePathRel
  let st := { st with calls := st.calls + 1 }
  if !io.downloader then .answer ⟨some .failLocal, .failed⟩ st
  else if (st.cache.flags path).uptodate then .answer ⟨some .ok, .fresh⟩ st
  else
    match io.create (args.mode cfg) (st.cache.disk path) with
    | none => repDlResult args {} {} .failLocal .failed st
    | some fi =>
      if args.bIsVolatileFile && cfg.bSkipIxUpdate then .answer ⟨some .ok, .skipped⟩ st
      else
        let fi := fi.setup
        if .complete < fi.status then repDlResult args {} {} .failRemote .failed st
        else if fi.status = .complete then
          if fi.responseStatus.code ≠ 200 then formatError cfg args {} {} st
          else .answer ⟨some .ok, .complete⟩ st
        else if !io.itemRegistry then .answer ⟨some .failLocal, .failed⟩ st
        else
          match resolveUrl cfg st.cache args with
          | none => .answer ⟨some .failRemote, .failed⟩ st
          | some src =>
            let dl := io.transfer src.target
            let st := { st with cache := { st.cache with disk := dl.disk st.cache.disk } }
            if dl.status = .complete && dl.response.code = 200 then
              repDlResult args src dl .ok .complete st
            else
              match src.fallbackUrl with
              | some url => .again { args with pForcedURL := some url, bForceReDownload := true } st
              | none => formatError cfg args src dl st

/-- The body, for a function that stands for its calls of itself. The last line returns OK. -/
def downloadBody (cfg : CachemanCfg) (ios : Nat → DownloadIo)
    (self : DlArgs × DownloadState → DlAnswer × DownloadState) (call : DlArgs × DownloadState) :
    DlAnswer × DownloadState :=
  match downloadNext cfg (ios call.2.calls) call.1 call.2 with
  | .answer a st => (a, st)
  | .again args st => self (args, st)
  | .replace args st =>
    let r := self (args, st)
    match r.1.result with
    | none => r
    | some .ok =>
      (⟨some .ok, if r.1.ending.isFailure then .failed else .replaced⟩,
        { r.2 with killBill := r.2.killBill ++ [call.1.sFilePathRel] })
    | some _ => (⟨some .failRemote, .failed⟩, r.2)
  | .lastLine ending st => (⟨some .ok, ending⟩, st)

/-- `cacheman::Download`, which is entered three times at most. -/
def download (cfg : CachemanCfg) (ios : Nat → DownloadIo) (args : DlArgs) (st : DownloadState) :
    DlAnswer × DownloadState :=
  (downloadBody cfg ios)^[3] (fun call => (⟨none, .thrown⟩, call.2)) (args, st)

end Acng
