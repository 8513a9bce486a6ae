import Acng.Deleter
import Acng.Inject
import Acng.MetaFile

namespace Acng
open Lib

/-- `SplitDirPath`. -/
def splitDirPath (path : Bytes) : Bytes × Bytes :=
  match rfind 47 path with
  | none => ([], path)
  | some pos => (path.take (pos + 1), path.drop (pos + 1))

/-- `FindCompIdx`; `none` is -1. -/
def findCompIdx (s : Bytes) : Option Nat := sfxXzBz2GzLzma.findIdx? (·.isSuffixOf s)

namespace Fingerprint

/-- `Set`, with the words that are left. -/
def set (words : List Bytes) (wantedType : CsType) : Option (Fingerprint × List Bytes) :=
  match words with
  | sum :: size :: rest =>
    match setCs {} sum wantedType with
    | none => none
    | some fpr => if strtoll size < 0 then none else some ({ fpr with size := strtoll size }, rest)
  | _ => none

/-- `ScanFile` on what was read. -/
def scan (hash : CsType → Bytes → Bytes) (csType : CsType) (data : Bytes) : Fingerprint :=
  { size := data.length, csType, csum := hash csType data }

end Fingerprint

/-- What the patching needs of the index. -/
structure PatchIndex where
  probeStateWanted : Fingerprint
  csHist : List Bytes
  patchSums : List (Bytes × Fingerprint)

namespace PatchIndex

/-- The front part of `PatchOne`; `none` is a failure. -/
def ofText (text : Bytes) : Option PatchIndex :=
  let contents := parseGenericRfc822File [] text
  match contents (lit "SHA256-Current") with
  | [] => none
  | front :: _ =>
    if front.isEmpty || (contents (lit "SHA256-History")).length < 2 then none
    else
      (Fingerprint.set (splitWalk isspace front) .sha256).map (fun wanted =>
        { probeStateWanted := wanted.1
          csHist := contents (lit "SHA256-History")
          patchSums := (contents (lit "SHA256-Patches")).filterMap (fun line =>
            match Fingerprint.set (splitWalk isspace line) .sha256 with
            | some (probe, name :: _) => some (name, probe)
            | _ => none) })

/-- The name of the patch for a state, from the last line about it; `none` is a failure. -/
def patchName (probeCS probeSize : Bytes) : List Bytes → Bytes → Option Bytes
  | [], pname => if pname.isEmpty then none else some pname
  | histLine :: csHist, pname =>
    if !probeCS.isPrefixOf histLine then patchName probeCS probeSize csHist pname
    else
      match splitWalk isspace histLine with
      | _ :: size :: more =>
        if size != probeSize then none
        else
          match more with
          | [] => patchName probeCS probeSize csHist pname
          | name :: _ =>
            let pname := trimFront (stringTrimBack name)
            if !(lit "T-2").isPrefixOf pname then none
            else patchName probeCS probeSize csHist pname
      | _ => patchName probeCS probeSize csHist pname

end PatchIndex

/-- The files below `_actmp`, where no index file is. -/
structure PatchDir where
  base : Option Bytes := none
  combined : Option Bytes := none
  result : Option Bytes := none

/-- What happens outside of the patching: checksums and decompression, which goes by the suffix or the
magic of a file without one, the download of a patch, and the external command with anything that
it does to files. Files in `_actmp` may be refused, for each sibling that is tried. -/
structure PatchTools where
  hash : CsType → Bytes → Bytes
  unpack : Option Nat → Bytes → Option Bytes
  lib : DateLib
  /-- `tHttpDate(1)` -/
  oldDate : HttpDate
  bByPath : Bool
  download : Bytes → CacheState → Bool × CacheState
  command : (Bytes → Disk) → PatchDir → Bool × (Bytes → Disk) × PatchDir
  baseOpens : Bytes → Bool := fun _ => true
  combinedOpens : Bytes → Bool := fun _ => true
  combinedWritten : Bytes → Bool := fun _ => true
  ios : Nat → InjectIo := fun _ => {}

/-- A sibling that was flagged as up to date, with its file. -/
structure Marked where
  path : Bytes
  file : Option Bytes
deriving DecidableEq, Repr

structure PatchState where
  cache : CacheState
  dir : PatchDir := {}
  /-- how often `Inject` was called -/
  calls : Nat := 0
  marked : List Marked := []

namespace PatchState

/-- `Inject` with flags. Nothing is marked if the file was already up to date. -/
def inject (tools : PatchTools) (st : PatchState) (file : Option Bytes) (toRel : Bytes)
    (contLen : Int) (forceOrig : Option Bytes) : Bool × PatchState :=
  let r := st.cache.injectFile tools.lib (tools.ios st.calls) file toRel true contLen tools.oldDate
    forceOrig
  (r.1, { st with
    cache := r.2
    calls := st.calls + 1
    marked := if r.1 && !(st.cache.flags toRel).uptodate then
        st.marked ++ [⟨toRel, (r.2.disk toRel).file⟩]
      else st.marked })

/-- One target of `SyncSiblings`. -/
def syncSibling (tools : PatchTools) (srcPathRel : Bytes) (st : PatchState) (tgt : Bytes) :
    PatchState :=
  if !(st.cache.flags tgt).vfile_ondisk || tgt == srcPathRel then st
  else
    let sameFolder := (splitDirPath tgt).1 == (splitDirPath srcPathRel).1
    let cache := if sameFolder || !tools.bByPath then
        st.cache.setFlags tgt (fun atts => { atts with parseignore := true })
      else st.cache
    let st := { st with cache }
    if !sameFolder && tools.bByPath && (splitDirPath srcPathRel).2 == (splitDirPath tgt).2 then
      (st.inject tools (st.cache.disk srcPathRel).file tgt (-1) none).2
    else st

/-- `SyncSiblings`. -/
def syncSiblings (tools : PatchTools) (st : PatchState) (srcPathRel : Bytes)
    (targets : List Bytes) : PatchState :=
  targets.foldl (syncSibling tools srcPathRel) st

/-- `tryPatch` for a base that was written to `patch.base`; true is success. -/
def tryPatch (tools : PatchTools) (index : PatchIndex) (pindexPathRel pb : Bytes)
    (probeOrig : Fingerprint) (st : PatchState) : Bool × PatchState :=
  match PatchIndex.patchName (bytesToHexString probeOrig.csum) (decDigits probeOrig.size.toNat)
      index.csHist [] with
  | none => (false, st)
  | some pname =>
    if !tools.combinedOpens pb then (false, st)
    else
      let patchPathRel := pindexPathRel.take (pindexPathRel.length - 5) ++ pname ++ lit ".gz"
      let loaded := tools.download patchPathRel st.cache
      if !loaded.1 then (false, { st with cache := loaded.2 })
      else
        -- static stuff, hands off!
        let st := { st with
          cache := loaded.2.setFlags patchPathRel (fun atts => { atts with parseignore := true }) }
        match (st.cache.disk patchPathRel).file.bind (tools.unpack (findCompIdx patchPathRel)) with
        | none => (false, st)
        | some patch =>
          if index.patchSums.lookup pname ≠ some (Fingerprint.scan tools.hash .sha256 patch) then
            (false, st)
          else if !tools.combinedWritten pb then (false, st)
          else
            let ran := tools.command st.cache.disk
              { st.dir with combined := some (patch ++ lit "w patch.result\n") }
            let st := { st with cache := { st.cache with disk := ran.2.1 }, dir := ran.2.2 }
            (ran.1 && st.dir.result.any (fun result =>
              Fingerprint.scan tools.hash .sha256 result = index.probeStateWanted), st)

end PatchState

/-- The codes of `PatchOne`: -1, the number of a line, -2 and 0. -/
inductive PatchResult
  | notNeeded | fail | noBase | done
deriving DecidableEq, Repr

/-- How the search for a file to start from ends: with a failure or without any, with a file that is up
to date already, or with a verified result. -/
inductive PatchSearch
  | ended (result : PatchResult) (st : PatchState)
  | current (pb : Bytes) (st : PatchState)
  | patched (st : PatchState)

namespace PatchSearch

/-- The siblings in the order in which they are tried: uncompressed ones, xz, bz2, gz, lzma. -/
def candidates (siblings : List Bytes) : List Bytes :=
  [none, some 0, some 1, some 2, some 3].flatMap (fun itype =>
    siblings.filter (fun pb => findCompIdx pb == itype))

/-- The loop over them. The directory `_actmp` is removed for each one. -/
def search (tools : PatchTools) (index : PatchIndex) (pindexPathRel : Bytes) :
    List Bytes → PatchState → PatchSearch
  | [], st => .ended .noBase st
  | pb :: rest, st =>
    if !tools.baseOpens pb then .ended .fail { st with dir := {} }
    else
      match (st.cache.disk pb).file.bind (tools.unpack (findCompIdx pb)) with
      | none => search tools index pindexPathRel rest { st with dir := {} }
      | some plain =>
        let probeOrig := Fingerprint.scan tools.hash .sha256 plain
        let st := { st with dir := { base := some plain } }
        if index.probeStateWanted = probeOrig then .current pb st
        else
          match st.tryPatch tools index pindexPathRel pb probeOrig with
          | (true, st) => .patched st
          | (false, st) => search tools index pindexPathRel rest st

end PatchSearch

/-- The source of the patched file, as the head of the index tells it; `none` for a source that is too
short. -/
def indexOrigin (head : Option HeadFile) : Option (Option Bytes) :=
  match head with
  | some (.fields _ _ (some origSrc)) =>
    if origSrc.length < 11 then none else some (some (origSrc.take (origSrc.length - 11)))
  | _ => some none

/-- The state of the loop that installs the result: it may have failed, and the siblings that were
injected are counted. -/
structure InstallState where
  st : PatchState
  failed : Bool := false
  injected : Nat := 0

namespace InstallState

/-- The result for one sibling. Only uncompressed locations are filled here. -/
def install (tools : PatchTools) (wanted : Fingerprint) (pindexPathRel : Bytes)
    (siblings : List Bytes) (loop : InstallState) (path : Bytes) : InstallState :=
  if loop.failed then loop
  else
    match indexOrigin (loop.st.cache.disk pindexPathRel).head with
    | none => { loop with failed := true }
    | some origin =>
      if (findCompIdx path).isSome then loop
      else
        let r := loop.st.inject tools loop.st.dir.result path wanted.size origin
        if r.1 then
          { loop with st := r.2.syncSiblings tools path siblings, injected := loop.injected + 1 }
        else { loop with st := r.2 }

end InstallState

/-- What `PatchOne` does with the end of the search. -/
def finishPatch (tools : PatchTools) (wanted : Fingerprint) (pindexPathRel : Bytes)
    (siblings : List Bytes) : PatchSearch → PatchResult × PatchState
  | .ended result st => (result, st)
  | .current pb st =>
    let cache := st.cache.setFlags pb (fun atts => { atts with uptodate := true })
    let st := { st with cache, marked := st.marked ++ [Marked.mk pb (st.cache.disk pb).file] }
    (.done, st.syncSiblings tools pb siblings)
  | .patched st =>
    let loop := siblings.foldl (InstallState.install tools wanted pindexPathRel siblings) { st }
    (if !loop.failed && 0 < loop.injected then .done else .fail, loop.st)

/-- `PatchOne`. -/
def patchOne (tools : PatchTools) (pindexPathRel : Bytes) (siblings : List Bytes)
    (cache : CacheState) : PatchResult × PatchState :=
  let needUpdate := siblings.any (fun pb =>
    let fl := cache.flags pb
    fl.vfile_ondisk && !fl.parseignore && !fl.uptodate)
  if !needUpdate then (.notNeeded, { cache })
  else
    match (cache.disk pindexPathRel).file.bind PatchIndex.ofText with
    | none => (.fail, { cache })
    | some index =>
      finishPatch tools index.probeStateWanted pindexPathRel siblings
        (PatchSearch.search tools index pindexPathRel (PatchSearch.candidates siblings) { cache })

end Acng
