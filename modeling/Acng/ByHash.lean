import Acng.Inject
import Acng.MetaFile

namespace Acng
open Lib

/-- An entry of the Release file and the file that was installed for it. -/
structure Restored where
  entry : RemoteFileInfo
  file : Option Bytes
deriving DecidableEq, Repr

/-- What the restoration does and counts. -/
structure RestoreState where
  cache : CacheState
  errors : Nat := 0
  restored : List Restored := []

/-- What happens outside for one entry: what others do in the cache before, and around `Inject`. -/
structure RestoreIo extends InjectIo where
  others : CacheState → CacheState := id

/-- The checksums, the calendar, and the lookup in the trash that only the expiration makes. -/
structure RestoreTools where
  hash : CsType → Bytes → Bytes
  lib : DateLib
  inTrash : Bytes → Bool := fun _ => true

/-- The path of an entry in the cache, below the side store. -/
def wantedPathRel (stripPrefix : Bytes) (entry : RemoteFileInfo) : Bytes :=
  entry.sDirectory.drop stripPrefix.length ++ entry.sFileName

/-- The path of its by-hash file. -/
def solidPathRel (stripPrefix : Bytes) (entry : RemoteFileInfo) : Bytes :=
  entry.sDirectory.drop stripPrefix.length ++ lit "by-hash/" ++ entry.fpr.csType.nameReleaseFile ++
    47 :: bytesToHexString entry.fpr.csum

/-- `_checkSolidHashOnDisk`. -/
def checkSolidHashOnDisk (tools : RestoreTools) (stripPrefix : Bytes) (entry : RemoteFileInfo)
    (cache : CacheState) : Bool :=
  tools.inTrash (bytesToHexString entry.fpr.csum) &&
    (cache.disk (solidPathRel stripPrefix entry)).file.isSome

/-- The source that the head of the by-hash file tells, rewritten, and the date there. -/
def byHashOrigin (entry : RemoteFileInfo) (head : Option HeadFile) : Option (Bytes × HttpDate) :=
  match head with
  | some (.fields _ lastModified (some origSrc)) =>
    (rfindText (lit "by-hash/") origSrc).map (fun pos =>
      (origSrc.take pos ++ entry.sFileName, lastModified.getD {}))
  | _ => none

/-- The condition in front of the restoration. The content is not checked if the target is missing. -/
def wantsRestore (tools : RestoreTools) (stripPrefix : Bytes) (entry : RemoteFileInfo)
    (cache : CacheState) : Bool :=
  match (cache.disk (wantedPathRel stripPrefix entry)).file with
  | none => true
  | some wanted =>
    (wanted.length : Int) != entry.fpr.size &&
      entry.fpr.checkFile tools.hash (cache.disk (solidPathRel stripPrefix entry)).file

namespace RestoreState

/-- The handler of one entry. An error is counted at first and taken back in the end. -/
def restoreEntry (tools : RestoreTools) (stripPrefix : Bytes) (st : RestoreState)
    (step : RemoteFileInfo × RestoreIo) : RestoreState :=
  let entry := step.1
  let io := step.2
  let st := { st with cache := io.others st.cache }
  -- ignore, those files are empty and are likely to report false positives
  if entry.fpr.size < 29 || !checkSolidHashOnDisk tools stripPrefix entry st.cache ||
      !wantsRestore tools stripPrefix entry st.cache then st
  else
    let solid := solidPathRel stripPrefix entry
    let wanted := wantedPathRel stripPrefix entry
    match byHashOrigin entry (st.cache.disk solid).head with
    | none => { st with errors := st.errors + 1 }
    | some (origin, date) =>
      let old := (st.cache.flags wanted).uptodate
      let r := st.cache.inject tools.lib io.toInjectIo solid wanted false (-1) date (some origin)
      if !r.1 then { st with cache := r.2, errors := st.errors + 1 }
      else
        { st with
          cache := if (r.2.flags wanted).vfile_ondisk then
              r.2.setFlags wanted (fun atts => { atts with uptodate := true })
            else r.2
          restored := if old then st.restored
            else st.restored ++ [⟨entry, (r.2.disk wanted).file⟩] }

end RestoreState

/-- The entries of the Release file, each with what happens outside. -/
def restoreSteps (stripPrefix releasePathRel : Bytes) (ios : Nat → RestoreIo) (cache : CacheState) :
    List (RemoteFileInfo × RestoreIo) :=
  (parseAndProcessMetaFile (stripPrefix ++ releasePathRel) .release true
    (cache.disk (stripPrefix ++ releasePathRel)).file).mapIdx (fun i entry => (entry, ios i))

/-- `ProcessByHashReleaseFileRestoreFiles`, which fails if there are errors in the end. -/
def processByHashReleaseFileRestoreFiles (tools : RestoreTools) (ios : Nat → RestoreIo)
    (releasePathRel stripPrefix : Bytes) (cache : CacheState) : RestoreState :=
  (restoreSteps stripPrefix releasePathRel ios cache).foldl
    (RestoreState.restoreEntry tools stripPrefix) { cache }

end Acng
