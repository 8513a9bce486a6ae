import Acng.HttpUrl
import Acng.FileItem

namespace Acng
open Lib

/-- The settings that the downloader reads. -/
structure Cfg where
  redirmax : Int := 5
  badredmime : Bytes := lit "text/html"
  vrangeops : Int := 1

/-- Settings, date functions and clock. -/
structure Env where
  cfg : Cfg := {}
  dates : DateLib
  now : Int := 0

/-- Outcomes of the file operations of one step. -/
structure Io where
  store : StoreIo := {}
  head : HeadIo := .stored

def HINT_MORE : Nat := 0
def HINT_DONE : Nat := 1
def HINT_RECONNECT_NOW : Nat := 2
def EFLAG_JOB_BROKEN : Nat := 4
def EFLAG_MIRROR_BROKEN : Nat := 8
def EFLAG_STORE_COLLISION : Nat := 16
def HINT_SWITCH : Nat := 32
def EFLAG_LOST_CON : Nat := 64
def HINT_KILL_LAST_FILE : Nat := 128
def HINT_TGTCHANGE : Nat := 256
def HINT_RECONNECT_SOON : Nat := 512

inductive StreamState
  | getHeader | processData | getChunkHead | processChunkData | getChunkTrailer | finishJob
deriving DecidableEq, Repr

inductive ResponseEval
  | good | busyOrError | restartNeeded
deriving DecidableEq, Repr

structure RepoData where
  keyfiles : List Bytes := []
  backends : List HttpUrl := []
  pProxy : Option HttpUrl := none
deriving DecidableEq, Repr

/-- `tDlJob` without its storage pointer and the request text it only passes on. -/
structure DlJob where
  sErrorMsg : Bytes := []
  dlState : StreamState := .getHeader
  pRepoDesc : Option RepoData := none
  remoteUri : HttpUrl := {}
  pCurBackend : Option HttpUrl := none
  bBackendMode : Bool := false
  bAllowStoreData : Bool := true
  bFileItemAssigned : Bool := false
  nRedirRemaining : Int := 5
  fiAttr : SpecialPurposeAttr := {}
  nRest : Nat := 0
  nUsedRangeStartPos : Int := -1
deriving DecidableEq, Repr

/-- The parts of a request that depend on the state of the item. -/
structure Request where
  headOnly : Bool
  ifRange : Option HttpDate
  range : Option (Int × Option Int)
  maxAge0 : Bool
deriving DecidableEq, Repr

namespace DlJob

/-- The first constructor: the attributes are a snapshot of those of the item. -/
def new (cfg : Cfg) (fi : FileItem) (src : HttpUrl) : DlJob :=
  { remoteUri := src, nRedirRemaining := cfg.redirmax, fiAttr := fi.spattr }

/-- The second constructor, for a path below the backends of a repository. -/
def newForRepo (cfg : Cfg) (fi : FileItem) (repodata : RepoData) (sRestPath : Bytes) : DlJob :=
  { remoteUri := { sPath := sRestPath }, pRepoDesc := some repodata, bBackendMode := true
    nRedirRemaining := cfg.redirmax, fiAttr := fi.spattr }

def resetStreamState (j : DlJob) : DlJob :=
  { j with nRest := 0, dlState := .getHeader, nUsedRangeStartPos := -1 }

def remoteUriPlain (j : DlJob) : Bytes :=
  match j.pCurBackend with
  | some b => b.toURI ++ j.remoteUri.sPath
  | none => j.remoteUri.toURI

/-- The last part of `RewriteSource`: a link relative to the directory of the
current path. -/
def relativeTarget (u : HttpUrl) (loc : Bytes) : HttpUrl :=
  match rfind 47 u.sPath with
  | none => { u with sPath := 47 :: loc }
  | some p => { u with sPath := u.sPath.take (p + 1) ++ loc }

/-- `tDlJob::RewriteSource`. -/
def rewriteSource (j : DlJob) (pNewUrl : Option Bytes) : Bool × DlJob :=
  let j : DlJob := { j with nRedirRemaining := j.nRedirRemaining - 1 }
  if j.nRedirRemaining ≤ 0 then (false, { j with sErrorMsg := lit "Redirection loop" })
  else if (pNewUrl.getD []).isEmpty then (false, { j with sErrorMsg := lit "Bad redirection" })
  else
    let loc := urlUnescape (pNewUrl.getD [])
    let isAbsPath := (lit "/").isPrefixOf loc
    match (if isAbsPath then none else HttpUrl.setHttpUrl loc false) with
    | some newUri =>
      (true, { j with bBackendMode := false, pCurBackend := none, remoteUri := newUri })
    | none =>
      match j.bBackendMode, j.pCurBackend with
      | true, none => (false, { j with sErrorMsg := lit "Bad redirection target in backend mode" })
      | true, some b =>
        -- recreate the actual download URL in fixed mode
        let j := { j with bBackendMode := false }
        if isAbsPath then (true, { j with remoteUri := { b with sPath := loc } })
        else
          let base := { b with sPath := b.sPath ++ j.remoteUri.sPath }
          (true, { j with remoteUri := relativeTarget base loc })
      | false, _ =>
        if isAbsPath then (true, { j with remoteUri := { j.remoteUri with sPath := loc } })
        else (true, { j with remoteUri := relativeTarget j.remoteUri loc })

/-- The range start that `AppendRequest` settles on. -/
def rangeStart (cfg : Cfg) (j : DlJob) (fi : FileItem) : Int :=
  let p := if 0 ≤ fi.nSizeChecked then fi.nSizeChecked else fi.nSizeCachedInitial
  let p := if p < -1 then -1 else p
  if j.fiAttr.bVolatile then
    let p := if cfg.vrangeops ≤ 0 then -1
      -- the probe trick
      else if p = fi.nContentLength && p > 1 then p - 1
      else p
    if !fi.responseModDate.isSet then -1 else p
  else p

/-- `tDlJob::AppendRequest`. -/
def appendRequest (cfg : Cfg) (j : DlJob) (fi : FileItem) : Request × DlJob :=
  let start := j.rangeStart cfg fi
  let limit := if 0 ≤ j.fiAttr.nRangeLimit then
      if start < 0 then 0
      else if j.fiAttr.nRangeLimit < start then -1
      else j.fiAttr.nRangeLimit
    else j.fiAttr.nRangeLimit
  ({ headOnly := j.fiAttr.bHeadOnly
     ifRange := if 0 < start && fi.responseModDate.isSet then some fi.responseModDate else none
     range := if 0 < start then some (start, if 0 < limit then some limit else none) else none
     maxAge0 := fi.isVolatile },
   { j with
     bAllowStoreData := !j.fiAttr.bHeadOnly, nUsedRangeStartPos := start
     fiAttr := { j.fiAttr with nRangeLimit := limit } })

end DlJob

/-- One alternative of the range expression behind `bytes`: first position,
dash, last position, slash, total. Both results are suffixes of the input, at
the first position and at the total. -/
def rangeBody (r : Bytes) : Option (Bytes × Bytes) :=
  if !r.head?.any isdigit then none
  else
    match r.dropWhile isdigit with
    | 45 :: s =>
      let s := if s.head?.any isdigit then some (s.dropWhile isdigit)
        else if s.head? == some 42 then some s.tail
        else none
      match s with
      | some (47 :: t) => if t.head?.any (fun c => isdigit c || c == 42) then some (r, t) else none
      | _ => none
    | _ => none

def rangeAt (s : Bytes) : Option (Bytes × Bytes) :=
  if (lit "bytes").isPrefixOf s then
    let r := s.drop 5
    (rangeBody (r.dropWhile isspace)).or (if r.head? == some 61 then rangeBody r.tail else none)
  else none

/-- `regex_search` for `bytes(\s*|=)(\d+)-(\d+|\*)/(\d+|\*)`: the leftmost match. -/
def rangeSearch (s : Bytes) : Option (Bytes × Bytes) := s.tails.findSome? rangeAt

/-- One job, its item, and the input buffer it works on. -/
structure Dl where
  job : DlJob
  fi : FileItem
  buf : Bytes := []
deriving DecidableEq, Repr

namespace Dl

def markAssigned (env : Env) (d : Dl) : Dl :=
  { d with
    job := { d.job with bFileItemAssigned := true }
    fi := { d.fi with nTimeDlStarted := env.now } }

/-- The `withError` of `CheckAndSaveHeader`. -/
def headError (env : Env) (d : Dl) (message : Bytes) (destruction : EDestroyMode := .keep) :
    ResponseEval × Dl :=
  let d := { d with job := { d.job with bAllowStoreData := false } }.markAssigned env
  (.busyOrError, { d with fi := d.fi.dlSetError ⟨503, message⟩ destruction })

/-- The common end of `CheckAndSaveHeader`. -/
def startDownload (env : Env) (io : Io) (d : Dl) (h : Header) (rawHeader : Nat) (sLocation : Bytes)
    (contLen : Int) : ResponseEval × Dl :=
  let d := d.markAssigned env
  let r := d.fi.dlStarted env.dates rawHeader (HttpDate.ofCStr env.dates (h.h .lastModified))
    (if sLocation.isEmpty then d.job.remoteUriPlain else sLocation) h.status
    d.job.nUsedRangeStartPos contLen
  if !r.1 then (.busyOrError, { d with fi := r.2 })
  else
    (.good, { d with fi := if d.job.bAllowStoreData then r.2 else r.2.dlFinish true io.head })

/-- The case 206: the probe answer which reports what was known already, an
unexpected range, or the expected continuation. -/
def partialContent (env : Env) (io : Io) (d : Dl) (h : Header) (rawHeader : Nat) :
    ResponseEval × Dl :=
  let h := h.setStatus 200 (lit "OK")
  match h.h .contentRange with
  | none => d.headError env (lit "Missing Content-Range in Partial Response")
  | some p =>
    match rangeSearch p with
    | none => d.headError env (lit "Bad range")
    | some (first, total) =>
      let contLen := strtoll total
      let startPos := strtoll first
      if d.fi.isVolatile && 0 < d.fi.nSizeCachedInitial && contLen = d.fi.nSizeCachedInitial &&
          d.fi.nSizeCachedInitial - 1 = startPos &&
          d.fi.responseModDate.eqStr env.dates (h.h .lastModified) then
        let d := { d with job := { d.job with bAllowStoreData := false } }.markAssigned env
        let fi := { d.fi with
          nSizeChecked := d.fi.nSizeCachedInitial, nContentLength := d.fi.nSizeCachedInitial }
        (.good, { d with fi := fi.dlFinish true io.head })
      else if startPos = -1 || d.job.nUsedRangeStartPos ≠ startPos ||
          startPos < d.fi.nSizeCachedInitial then
        d.headError env (lit "Server reports unexpected range")
      else d.startDownload env io h rawHeader [] contLen

/-- `tDlJob::CheckAndSaveHeader`. -/
def checkAndSaveHeader (env : Env) (io : Io) (d : Dl) (h : Header) (rawHeader : Nat)
    (contLen : Int) : ResponseEval × Dl :=
  let d := { d with fi := { d.fi with nIncommingCount := d.fi.nIncommingCount + rawHeader } }
  if .complete ≤ d.fi.status then (.busyOrError, d)
  else if !d.job.bFileItemAssigned && .dlPending < d.fi.status then
    -- it is active but not served by us
    (.busyOrError, d)
  else if h.status.code = 200 then
    -- forget the offset
    { d with job := { d.job with nUsedRangeStartPos := 0 } }.startDownload env io h rawHeader [] contLen
  else if h.status.code = 206 then d.partialContent env io h rawHeader
  else if h.status.code = 416 then
    if d.fi.nSizeChecked < 0 then
      (.restartNeeded,
        { d with fi := { d.fi with nSizeCachedInitial := 0, bWriterMustReplaceFile := true } })
    else d.headError env (lit "Disagreement on file size, cleaning up") .truncate
  else if d.job.bFileItemAssigned then d.headError env h.status.msg
  else
    let location := (h.h .location).getD []
    if h.status.isRedirect && location.isEmpty then
      d.headError env (lit "Invalid redirection (missing location)")
    else
      -- all other codes have no useful body
      { d with job := { d.job with bAllowStoreData := false } }.startDownload env io h rawHeader
        (if h.status.isRedirect then location else []) (-1)

/-- What `ProcessIncomming` decides on a head before the item is involved. -/
inductive HeadStep
  | ret (d : Dl) (res : Nat)
  | save (d : Dl) (h : Header) (n : Nat) (contLen : Int) (ret : Nat)

def closeHint (h : Header) : Nat :=
  match (h.h .connection).or (h.h .proxyConnection) with
  | some con => if caseEq con (lit "close") then HINT_RECONNECT_SOON else 0
  | none => 0

def isChunked (h : Header) : Bool := (h.h .transferEncoding).any (fun t => caseEq t (lit "chunked"))

/-- `atoofft` on a head field. -/
def fieldNum (h : Header) (p : HeadPos) (nDefVal : Int) : Int :=
  match h.h p with
  | none => nDefVal
  | some s => strtoll s

/-- Bad auto-redirectors are detected by the mime type of their target. -/
def badRedirect (cfg : Cfg) (job : DlJob) (h : Header) : Bool :=
  cfg.redirmax ≠ 0 && !cfg.badredmime.isEmpty && cfg.redirmax ≠ job.nRedirRemaining &&
    (h.h .contentType).any (fun t => (find cfg.badredmime t).isSome) && h.status.code < 300

def fakeDateMark : Bytes := lit "Sat, 26 Apr 1986 01:23:39 GMT"

/-- The redirection branch. A negative Content-Length, which would move the read
position backwards, is taken as zero. -/
def redirect (d : Dl) (h : Header) (ret : Nat) : HeadStep :=
  let r := d.job.rewriteSource (h.h .location)
  if !r.1 then .ret { d with job := r.2 } (ret ||| EFLAG_JOB_BROKEN)
  else
    -- drop the redirect page contents if possible
    let contLen := (fieldNum h .contentLength 0).toNat
    .ret { d with job := r.2, buf := if contLen ≤ d.buf.length then d.buf.drop contLen else d.buf }
      (ret ||| HINT_TGTCHANGE)

/-- Framing of the body, and the fake values for badly redirected responses. -/
def framing (env : Env) (d : Dl) (h : Header) (n : Nat) (ret : Nat) : HeadStep :=
  let contentLength := fieldNum h .contentLength (-1)
  let h' := if badRedirect env.cfg d.job h then
      if d.fi.isVolatile then h.set .lastModified (some fakeDateMark)
      else h.setStatus 501 (lit "Redirected to invalid target")
    else h
  if d.job.fiAttr.bHeadOnly then
    .save { d with job := { d.job with dlState := .finishJob } } h' n contentLength ret
  else if isChunked h then
    .save { d with job := { d.job with dlState := .getChunkHead } } (h'.del .transferEncoding) n
      contentLength ret
  else if contentLength < 0 then
    .ret { d with job := { d.job with sErrorMsg := lit "Missing Content-Length" } }
      (ret ||| HINT_RECONNECT_NOW ||| EFLAG_JOB_BROKEN)
  else
    .save { d with job := { d.job with nRest := contentLength.toNat, dlState := .processData } } h' n
      contentLength ret

/-- The state `STATE_GETHEADER` up to the call of `CheckAndSaveHeader`. -/
def headStep (env : Env) (bOnlyRedirectionActivity : Bool) (d : Dl) : HeadStep :=
  if d.buf.isEmpty then .ret d HINT_MORE
  else
    let (n, st) := Header.load d.buf
    let h := st.hd
    if n = 0 then .ret d HINT_MORE
    else if n < 0 then
      .ret { d with job := { d.job with sErrorMsg := lit "Invalid header" } }
        (EFLAG_MIRROR_BROKEN ||| HINT_RECONNECT_NOW ||| HINT_KILL_LAST_FILE)
    else if h.type ≠ .answer then
      .ret { d with job := { d.job with sErrorMsg := lit "Unexpected response type" } }
        (EFLAG_MIRROR_BROKEN ||| EFLAG_LOST_CON ||| HINT_RECONNECT_NOW)
    else
      let ret := closeHint h
      if h.status.code < 200 then
        -- a processing hint which can be ignored
        .ret { d with buf := d.buf.drop n.toNat } (ret ||| HINT_MORE)
      else if env.cfg.redirmax ≠ 0 && h.status.isRedirect then d.redirect h ret
      else if env.cfg.redirmax ≠ 0 && bOnlyRedirectionActivity then
        .ret d (ret ||| EFLAG_LOST_CON ||| HINT_RECONNECT_NOW)
      else if 400 ≤ h.status.code && d.job.remoteUri.sHost.isEmpty &&
          d.job.pRepoDesc.any (fun r => r.keyfiles.any (fun k => k.isSuffixOf d.job.remoteUri.sPath)) then
        .ret { d with job := { d.job with sErrorMsg := lit "Keyfile N/A, mirror blacklisted" } }
          (ret ||| HINT_RECONNECT_NOW ||| EFLAG_MIRROR_BROKEN)
      else d.framing env h n.toNat ret

/-- The state `STATE_GETHEADER`; `none` goes on with the next state. -/
def procHeader (env : Env) (io : Io) (bOnlyRedirectionActivity : Bool) (d : Dl) : Dl × Option Nat :=
  match d.headStep env bOnlyRedirectionActivity with
  | .ret d res => (d, some res)
  | .save d h n contLen ret =>
    let (storeResult, d) := d.checkAndSaveHeader env io h n contLen
    let d := { d with buf := d.buf.drop n }
    let d := if d.fi.spattr.bHeadOnly then { d with job := { d.job with nRest := 0 } } else d
    match storeResult with
    | .restartNeeded => (d, some (ret ||| EFLAG_LOST_CON ||| HINT_RECONNECT_NOW))
    | .busyOrError =>
      ({ d with job := { d.job with dlState := .processData, sErrorMsg := lit "Busy Cache Item" } },
        some (ret ||| HINT_RECONNECT_NOW ||| EFLAG_JOB_BROKEN ||| EFLAG_STORE_COLLISION))
    | .good => (d, none)

/-- `NewDataHandler` and the check of its result. Its loop stores at most once:
afterwards the buffer or the rest is used up. -/
def procData (io : Io) (d : Dl) : Dl × Option Nat :=
  let n := min d.buf.length d.job.nRest
  let r := if n = 0 then (true, d.fi)
    else if d.job.bAllowStoreData then d.fi.dlAddData (d.buf.take n) io.store
    else (true, d.fi)
  if !r.1 then
    ({ d with fi := r.2, job := { d.job with sErrorMsg := lit "Cannot store" } },
      some (HINT_RECONNECT_NOW ||| EFLAG_JOB_BROKEN))
  else
    let d := { d with
      fi := r.2, buf := d.buf.drop n, job := { d.job with nRest := d.job.nRest - n } }
    if d.job.nRest ≠ 0 then (d, some HINT_MORE)
    else
      ({ d with job := { d.job with dlState :=
        if d.job.dlState = .processData then .finishJob else .getChunkHead } }, none)

/-- The state `STATE_GETCHUNKHEAD`: newlines in front are dropped, the line is
searched and the size is scanned in the C string that starts the buffer. -/
def procChunkHead (d : Dl) : Dl × Option Nat :=
  let d := { d with buf := d.buf.dropWhile (fun c => c == 13 || c == 10) }
  match find crlf (cstr d.buf) with
  | none => (d, some HINT_MORE)
  | some p =>
    match scanHex d.buf with
    | none =>
      ({ d with job := { d.job with sErrorMsg := lit "Invalid stream" } }, some EFLAG_JOB_BROKEN)
    | some len =>
      let d := { d with buf := d.buf.drop (p + 2) }
      if 0 < len then
        ({ d with job := { d.job with nRest := len, dlState := .processChunkData } }, none)
      else ({ d with job := { d.job with dlState := .getChunkTrailer } }, none)

/-- The state `STATE_GET_CHUNKTRAILER`. -/
def procTrailer (d : Dl) : Dl × Option Nat :=
  if d.buf.length < 2 then (d, some HINT_MORE)
  else
    match find crlf (cstr d.buf) with
    | none => (d, some HINT_MORE)
    | some 0 =>
      ({ d with buf := d.buf.drop 2, job := { d.job with dlState := .finishJob } }, none)
    | some p => ({ d with buf := d.buf.drop (p + 2) }, none)

/-- One pass of the loop in `ProcessIncomming`, with its result if it returns. -/
def procStep (env : Env) (io : Io) (bOnlyRedirectionActivity : Bool) (d : Dl) : Dl × Option Nat :=
  match d.job.dlState with
  | .getHeader => d.procHeader env io bOnlyRedirectionActivity
  | .processData | .processChunkData => d.procData io
  | .finishJob =>
    ({ d with fi := d.fi.dlFinish false io.head, job := { d.job with dlState := .getHeader } },
      some HINT_DONE)
  | .getChunkHead => d.procChunkHead
  | .getChunkTrailer => d.procTrailer

/-- The loop, with fuel for its passes. -/
def procLoop (env : Env) (io : Io) (bOnly : Bool) : Nat → Dl → Dl × Nat
  | 0, d => (d, EFLAG_JOB_BROKEN)
  | fuel + 1, d =>
    match d.procStep env io bOnly with
    | (d', some res) => (d', res)
    | (d', none) => procLoop env io bOnly fuel d'

/-- Bounds the passes that are left: each one that does not return consumes
input or ends a data state. -/
def passes (d : Dl) : Nat :=
  3 * d.buf.length + match d.job.dlState with
    | .getHeader => 1
    | .processData | .processChunkData => 2
    | .finishJob | .getChunkHead | .getChunkTrailer => 1

/-- `tDlJob::ProcessIncomming`. -/
def processIncomming (env : Env) (io : Io) (bOnlyRedirectionActivity : Bool) (d : Dl) : Dl × Nat :=
  procLoop env io bOnlyRedirectionActivity d.passes d

/-- A job that is fed one read after the other while it asks for more: its final
state, its result if there is one, and the reads that were not needed. -/
def feed (env : Env) (io : Io) (d : Dl) : List Bytes → Dl × Option Nat × List Bytes
  | [] => (d, none, [])
  | r :: reads =>
    let (d, res) := processIncomming env io false { d with buf := d.buf ++ r }
    if res = HINT_MORE then feed env io d reads else (d, some res, reads)

end Dl

end Acng
