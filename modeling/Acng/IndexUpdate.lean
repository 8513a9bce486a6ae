import Acng.Download
import Acng.Expiration

namespace Acng
open Lib

/-- No file has the flag `hideDlErrors`. Nothing ever sets it. -/
def NoneHidden (cache : CacheState) : Prop := ∀ path, (cache.flags path).hideDlErrors = false

/-- A part of the maintenance that does something to the cache and finds out something about it. -/
structure CacheStage (α : Type) where
  run : CacheState → α × CacheState
  noneHidden : ∀ cache, NoneHidden cache → NoneHidden (run cache).2

/-- A stage without effects. -/
def CacheStage.pure {α : Type} (a : α) : CacheStage α where
  run cache := (a, cache)
  noneHidden _ h := h

/-- The parts of `UpdateVolatileFiles` that update no file themselves, the questions for the stop signal
and the paths of `m_metaFilesRel` that its loop comes across. The groups are those that are left after
`FilterGroupData` and `SortAndInterconnectGroupData`, together with the errors that were counted. -/
structure UpdateStages where
  metaFiles : List Bytes
  isNotRefIndex : Bytes → Bool := fun _ => false
  getGoodReleaseFiles : CacheStage (List Bytes) := .pure []
  processByHashReleaseFileRestoreFiles : Bytes → CacheStage Bool := fun _ => .pure true
  stopAfterFailure : Nat → Bool := fun _ => false
  fixMissingByHashLinks : CacheStage Bool := .pure true
  stopAfterGroups : Bool := false
  groups : CacheStage (List (List Bytes) × Nat) := .pure ([], 0)
  patchGroup : List Bytes → CacheStage Unit := fun _ => .pure ()
  syncSiblings : Bytes → List Bytes → CacheStage Unit := fun _ _ => .pure ()

/-- A call of `Download` for an index file, with the state in front of it. -/
structure DlReport where
  args : DlArgs
  before : DownloadState
  answer : DlAnswer

/-- A failure that the flags of the file do not forgive. -/
def DlReport.unforgiven (rep : DlReport) : Bool :=
  rep.answer.ending.isFailure && !(rep.before.cache.flags rep.args.sFilePathRel).forgiveDlErrors

/-- The state of `UpdateVolatileFiles`, which is over early if it was stopped or if something was
thrown. -/
structure UpdateState where
  dl : DownloadState
  nErrorCount : Nat := 0
  reports : List DlReport := []
  stopped : Bool := false
  thrown : Bool := false

namespace UpdateState

def ended (st : UpdateState) : Bool := st.stopped || st.thrown

def addErrors (st : UpdateState) (n : Nat) : UpdateState :=
  { st with nErrorCount := st.nErrorCount + n }

def flags (st : UpdateState) (path : Bytes) : IfileAttribs := st.dl.cache.flags path

def onCache {α : Type} (stage : CacheStage α) (st : UpdateState) : α × UpdateState :=
  let r := stage.run st.dl.cache
  (r.1, { st with dl := { st.dl with cache := r.2 } })

def setFlags (st : UpdateState) (path : Bytes) (change : IfileAttribs → IfileAttribs) : UpdateState :=
  { st with dl := { st.dl with cache := st.dl.cache.setFlags path change } }

/-- `Download` for an index file. -/
def download (cfg : CachemanCfg) (ios : Nat → DownloadIo) (args : DlArgs) (st : UpdateState) :
    Option DlResult × UpdateState :=
  let r := Acng.download cfg ios args st.dl
  (r.1.result, { st with
    dl := r.2
    reports := st.reports ++ [⟨args, st.dl, r.1⟩]
    thrown := r.1.result.isNone })

/-- One file when everything is downloaded again. -/
def forceFile (cfg : CachemanCfg) (ios : Nat → DownloadIo) (st : UpdateState) (path : Bytes) :
    UpdateState :=
  if st.ended then st
  else
    let notIgnorable := !(st.flags path).forgiveDlErrors
    let r := st.download cfg ios { sFilePathRel := path, bIsVolatileFile := true }
    match r.1 with
    | none | some .ok => r.2
    | some .gone => r.2.addErrors (notIgnorable && !cfg.follow404).toNat
    | some .failLocal | some .failRemote => r.2.addErrors notIgnorable.toNat

/-- One Release file. -/
def releaseFile (cfg : CachemanCfg) (ios : Nat → DownloadIo) (stages : UpdateStages)
    (st : UpdateState) (path : Bytes) : UpdateState :=
  if st.ended then st
  else
    let restored := st.onCache (stages.processByHashReleaseFileRestoreFiles path)
    if !restored.1 then restored.2.addErrors 1
    else
      let r := restored.2.download cfg ios
        { sFilePathRel := path, bIsVolatileFile := true, guessReplacement := true }
      if r.1.all (· == .ok) then r.2
      else
        let st := if (r.2.flags path).hideDlErrors then r.2 else r.2.addErrors 1
        { st with stopped := stages.stopAfterFailure st.dl.calls }

/-- One file of a group. -/
def groupFile (cfg : CachemanCfg) (ios : Nat → DownloadIo) (stages : UpdateStages)
    (paths : List Bytes) (st : UpdateState) (path : Bytes) : UpdateState :=
  if st.ended || !(st.flags path).vfile_ondisk || (st.flags path).parseignore then st
  else
    let r : Option DlResult × UpdateState :=
      if (st.flags path).uptodate then (some .ok, st)
      else st.download cfg ios { sFilePathRel := path, bIsVolatileFile := true }
    if !r.1.all (· == .ok) then
      let st := r.2.setFlags path (fun atts => { atts with parseignore := true })
      st.addErrors (!(st.flags path).forgiveDlErrors).toNat
    else if !r.2.ended && (r.2.flags path).uptodate then
      (r.2.onCache (stages.syncSiblings path paths)).2
    else r.2

/-- One of the remaining files. -/
def remainingFile (cfg : CachemanCfg) (ios : Nat → DownloadIo) (stages : UpdateStages)
    (st : UpdateState) (path : Bytes) : UpdateState :=
  if st.ended || (st.flags path).uptodate || (st.flags path).parseignore ||
      !(st.flags path).vfile_ondisk || stages.isNotRefIndex path then st
  else
    let r := st.download cfg ios
      { sFilePathRel := path, bIsVolatileFile := true, guessReplacement := true }
    if r.1.all (· == .ok) then r.2
    else r.2.addErrors (!(r.2.flags path).forgiveDlErrors).toNat

/-- The knowledge of the quick check is shared among the members of a group. -/
def syncGroup (stages : UpdateStages) (st : UpdateState) (paths : List Bytes) : UpdateState :=
  paths.foldl (fun st path =>
    if (st.flags path).uptodate then (st.onCache (stages.syncSiblings path paths)).2 else st) st

/-- The files of a group in the order of their compression. -/
def updateGroup (cfg : CachemanCfg) (ios : Nat → DownloadIo) (stages : UpdateStages)
    (st : UpdateState) (paths : List Bytes) : UpdateState :=
  ((sfxXzBz2GzLzma ++ [[]]).flatMap (fun sfx : Bytes => paths.filter (sfx.isSuffixOf ·))).foldl
    (groupFile cfg ios stages paths) st

/-- The part of `UpdateVolatileFiles` behind the Release files. -/
def updateIndexes (cfg : CachemanCfg) (ios : Nat → DownloadIo) (stages : UpdateStages)
    (st : UpdateState) : UpdateState :=
  let fixed := st.onCache stages.fixMissingByHashLinks
  if !fixed.1 then fixed.2.addErrors 1
  else
    let r := fixed.2.onCache stages.groups
    let st := r.2.addErrors r.1.2
    if stages.stopAfterGroups || (0 < st.nErrorCount && cfg.bErrAbort) then st
    else
      let st := r.1.1.foldl (syncGroup stages) st
      let st := r.1.1.foldl (fun st paths => (st.onCache (stages.patchGroup paths)).2) st
      let st := r.1.1.foldl (updateGroup cfg ios stages) st
      stages.metaFiles.foldl (remainingFile cfg ios stages) st

/-- `cacheman::UpdateVolatileFiles`; nobody looks at its result. -/
def updateVolatileFiles (cfg : CachemanCfg) (ios : Nat → DownloadIo) (stages : UpdateStages)
    (st : UpdateState) : UpdateState :=
  if cfg.bForceDownload then stages.metaFiles.foldl (forceFile cfg ios) st
  else
    let r := st.onCache stages.getGoodReleaseFiles
    let st := r.1.foldl (releaseFile cfg ios stages) r.2
    if st.ended then st else st.updateIndexes cfg ios stages

end UpdateState

/-- `CheckAndReportError`. -/
def checkAndReportError (cfg : CachemanCfg) (nErrorCount : Nat) : Bool :=
  0 < nErrorCount && cfg.bErrAbort

/-- A run of `expiration::Action` that is neither a purge nor a report nor put off by the tradeoff
check: what happens outside, the answers to the questions for the stop signal, the errors that are
counted in other index files, and what the review of the candidates goes by. -/
structure MaintRun where
  cfg : CachemanCfg
  ios : Nat → DownloadIo
  stages : UpdateStages
  start : DownloadState
  noneHidden : NoneHidden start.cache
  stopAfterScan : Bool := false
  stopAfterUpdate : Bool := false
  byHashErrors : Nat := 0
  stopAfterByHash : Bool := false
  indexErrors : Nat := 0
  stopAfterIndexes : Bool := false
  review : ExpirationRun
  pending : Option Bytes := none
  bPurgeNow : Bool := false

/-- How a run goes: the state after the update, the errors in the end, and what
`RemoveAndStoreStatus` does if it is reached. -/
structure ActionOutcome where
  update : UpdateState
  nErrorCount : Nat
  removal : Option RemovalResult := none

/-- `expiration::Action`. -/
def MaintRun.action (run : MaintRun) : ActionOutcome :=
  let st : UpdateState := { dl := run.start }
  if run.stopAfterScan then { update := st, nErrorCount := 0 }
  else
    let st := st.updateVolatileFiles run.cfg run.ios run.stages
    if st.thrown || run.stopAfterUpdate then { update := st, nErrorCount := st.nErrorCount }
    else
      let errors := st.nErrorCount + run.byHashErrors
      if checkAndReportError run.cfg errors || run.stopAfterByHash then
        { update := st, nErrorCount := errors }
      else
        let errors := errors + run.indexErrors
        if checkAndReportError run.cfg errors || run.stopAfterIndexes then
          { update := st, nErrorCount := errors }
        else
          { update := st, nErrorCount := errors
            removal := some (Expiration.removeAndStoreStatus run.review.removal run.bPurgeNow
              run.review.now (Expiration.loadPreviousData run.review.now run.review.candidates
                run.pending)) }

end Acng
