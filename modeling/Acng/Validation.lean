import Acng.Expiration
import Acng.Header
import Acng.MetaFiles

namespace Acng
open Lib

/-- A file of the cache. One that cannot be read has a size nevertheless. -/
inductive CacheFile
  | unreadable (st_size : Nat)
  | readable (data : Bytes)
deriving DecidableEq, Repr

/-- `st_size`. -/
def CacheFile.size : CacheFile → Int
  | .unreadable st_size => st_size
  | .readable data => data.length

/-- `tDiskFileInfo` with its fingerprint. -/
structure Candidate extends DiskFileInfo where
  bNoHeaderCheck : Bool := false
  fpr : Fingerprint := {}
deriving DecidableEq, Repr

namespace Fingerprint

/-- `csEquals`. -/
def csEquals (self other : Fingerprint) : Bool :=
  self.csum.take self.csType.len == other.csum.take self.csType.len

/-- `ScanFile`. The type is set before the file is opened. -/
def scanFile (hash : CsType → Bytes → Bytes) (self : Fingerprint) (file : CacheFile)
    (eCstype : CsType) : Bool × Fingerprint :=
  if eCstype.len = 0 then (false, self)
  else
    match file with
    | .unreadable _ => (false, { self with csType := eCstype })
    | .readable data => (true, scan hash eCstype data)

end Fingerprint

/-- The settings and patterns of a run that validates the files, the checksums, and what the item of a path
leaves of the file and of its head file when it is marked as faulty. There may be no item. -/
structure ValidationCfg where
  bByPath : Bool := false
  bByChecksum : Bool := false
  bSkipHeaderChecks : Bool := false
  bIncompleteIsDamaged : Bool := false
  bTruncateDamaged : Bool := false
  isVolatile : Bytes → Bool
  filetypeVolatile : Bytes → Bool
  hash : CsType → Bytes → Bytes
  markFaulty : (Bytes → Option CacheFile) → Bytes → Option (Option CacheFile × Option CacheFile)

/-- The state of the run. `m_trashFile2dir2Info` gives the directories of a file name in their order, and
there is no damage list if it could not be opened. -/
structure Validation where
  trash : Bytes → List (Bytes × Candidate)
  forceKeepInTrash : Bytes → Bool := fun _ => false
  files : MetaFiles
  space : Bytes → Int := fun _ => 0
  disk : Bytes → Option CacheFile
  damageList : Option (List Bytes) := some []

/-- How `DetectUncovered` ends. -/
inductive Verdict
  /-- the path is in `m_forceKeepInTrash` -/
  | forced
  /-- there is no such file, and `m_forceKeepInTrash` gets the path -/
  | inaccessible
  /-- `finish_bad`, behind the removal of the head file or not -/
  | damaged (unlinkHead : Bool)
  /-- `finish_good`, `report_good` or `report_weird_volatile` -/
  | covered (size : Int)
  /-- `MarkFaulty` and `finish_good(0)` -/
  | truncated
  /-- the result false without more -/
  | ignored
deriving DecidableEq, Repr

/-- The result of `DetectUncovered`: the file stays in the list. -/
def Verdict.stays : Verdict → Bool
  | .forced | .inaccessible | .damaged _ => true
  | .covered _ | .truncated | .ignored => false

/-- The path of a candidate is cut behind its last separator. -/
def Keyed (dir name : Bytes) : Prop := (47 : UInt8) ∉ name ∧ (dir = [] ∨ ∃ d, dir = d ++ [47])

/-- `m_trashFile2dir2Info` as the scan of the cache fills it. No file has been read yet. -/
structure ScannedFiles where
  dirs : Bytes → List (Bytes × Candidate)
  keyed : ∀ name, ∀ e ∈ dirs name, Keyed e.1 name
  distinct : ∀ name, ((dirs name).map Prod.fst).Nodup
  unread : ∀ name, ∀ e ∈ dirs name, e.2.fpr.csType = .invalid

/-- The directories of a file name, in their order. Of a file no more is known than its size. -/
def TrashMap.candidatesOf (t : TrashMap) (st_size : Bytes → Int) (name : Bytes) :
    List (Bytes × Candidate) :=
  (((t.lookup name).getD ∅).entries.map (fun dirProps =>
    (dirProps.1, ({ toDiskFileInfo := dirProps.2, fpr := { size := st_size (dirProps.1 ++ name) } } :
      Candidate)))).insertionSort (fun a b => bytesLt b.1 a.1 = false)

/-- A run starts with the files that were scanned, with what is on the disk and with a damage list if it
could be opened. Some paths may have been set aside already. -/
def ScannedFiles.validation (scanned : ScannedFiles) (forceKeepInTrash : Bytes → Bool)
    (files : MetaFiles) (disk : Bytes → Option CacheFile) (damageList : Option (List Bytes)) :
    Validation :=
  { trash := scanned.dirs, forceKeepInTrash, files, disk, damageList }

namespace Validation

/-- `handle_incomplete`. -/
def handleIncomplete (cfg : ValidationCfg) (lenFromStat : Int) : Verdict :=
  if !cfg.bIncompleteIsDamaged then .covered lenFromStat
  else if cfg.bTruncateDamaged then (if 0 < lenFromStat then .truncated else .ignored)
  else .damaged false

/-- `report_oversize`. -/
def reportOversize (cfg : ValidationCfg) (sPathRel : Bytes) (lenFromStat : Int) : Verdict :=
  if cfg.filetypeVolatile sPathRel then .covered lenFromStat else .damaged false

/-- `LoadFromFile` with the head file of a path, if it loads. -/
def headOf (st : Validation) (sPathRel : Bytes) : Option Header :=
  match st.disk (sPathRel ++ lit ".head") with
  | some (.readable buf) => if 0 < (Header.load buf).1 then some (Header.load buf).2.hd else none
  | _ => none

/-- The basic header checks. The file goes on to the other checks if there is nothing to say. -/
def checkHead (cfg : ValidationCfg) (st : Validation) (entry : RemoteFileInfo) (sPathRel : Bytes)
    (descHave : Candidate) (lenFromStat : Int) : Option Verdict :=
  if cfg.bSkipHeaderChecks || descHave.bNoHeaderCheck || entry.fpr.size < 0 then none
  else
    match st.headOf sPathRel with
    | none => none
    | some h =>
      let lenFromHeader := ((h.h .contentLength).map strtoll).getD (-2)
      if lenFromHeader < 0 then some (.damaged false)
      else if lenFromHeader < lenFromStat then some (.damaged true)
      else none

/-- The checks behind the fingerprint. What could not be compared counts as good. -/
def compareSize (cfg : ValidationCfg) (entry : RemoteFileInfo) (sPathRel : Bytes)
    (descHave : Candidate) (lenFromStat : Int) : Verdict :=
  if entry.fpr.size < 0 || descHave.fpr.size = entry.fpr.size then .covered lenFromStat
  else if entry.fpr.size < descHave.fpr.size then reportOversize cfg sPathRel lenFromStat
  else handleIncomplete cfg lenFromStat

/-- The comparison with the fingerprint of the entry, except for release files. A checksum of another type
needs a scan, and an error of it lets the file go. -/
def compareFingerprint (cfg : ValidationCfg) (entry : RemoteFileInfo) (sPathRel : Bytes)
    (file : CacheFile) (descHave : Candidate) : Verdict × Candidate :=
  if entry.sFileName == lit "Release" || entry.sFileName == lit "InRelease" then
    (compareSize cfg entry sPathRel descHave file.size, descHave)
  else
    let (ok, fpr) :=
      if entry.fpr.csType = descHave.fpr.csType then (true, descHave.fpr)
      else descHave.fpr.scanFile cfg.hash file entry.fpr.csType
    let descHave := { descHave with fpr }
    if !ok then (.ignored, descHave)
    else if !descHave.fpr.csEquals entry.fpr then (.damaged false, descHave)
    else (compareSize cfg entry sPathRel descHave file.size, descHave)

/-- `DetectUncovered`, with what it finds out about the file. -/
def detectUncovered (cfg : ValidationCfg) (st : Validation) (entry : RemoteFileInfo)
    (sPathRel : Bytes) (descHave : Candidate) : Verdict × Candidate :=
  if st.forceKeepInTrash sPathRel then (.forced, descHave)
  else
    match st.disk sPathRel with
    | none => (.inaccessible, descHave)
    | some file =>
      let lenFromStat := file.size
      if (st.files.getFlags sPathRel).parseignore then (handleIncomplete cfg lenFromStat, descHave)
      else
        match checkHead cfg st entry sPathRel descHave lenFromStat with
        | some verdict => (verdict, descHave)
        | none =>
          if cfg.bByPath && 0 ≤ entry.fpr.size && entry.fpr.size < lenFromStat then
            (reportOversize cfg sPathRel lenFromStat, descHave)
          else if cfg.bByPath && 0 ≤ entry.fpr.size && lenFromStat < entry.fpr.size then
            (handleIncomplete cfg lenFromStat, descHave)
          else if !cfg.bByChecksum then (.covered lenFromStat, descHave)
          else if 0 ≤ entry.fpr.size && lenFromStat < entry.fpr.size then
            (handleIncomplete cfg lenFromStat, descHave)
          else compareFingerprint cfg entry sPathRel file descHave

/-- `ADDSPACE`. -/
def addSpace (m_processedIfile : Bytes) (size : Int) (st : Validation) : Validation :=
  { st with
    files := st.files.setFlags m_processedIfile id
    space := Function.update st.space m_processedIfile (st.space m_processedIfile + size) }

/-- What is done to the files and to the lists of the run. -/
def act (cfg : ValidationCfg) (m_processedIfile sPathRel : Bytes) (st : Validation) :
    Verdict → Validation
  | .forced | .ignored => st
  | .inaccessible =>
    { st with forceKeepInTrash := Function.update st.forceKeepInTrash sPathRel true }
  | .damaged unlinkHead =>
    { st with
      disk := if unlinkHead then Function.update st.disk (sPathRel ++ lit ".head") none else st.disk
      damageList := st.damageList.map (· ++ [sPathRel]) }
  | .covered size => st.addSpace m_processedIfile size
  | .truncated =>
    match cfg.markFaulty st.disk sPathRel with
    | none => st.addSpace m_processedIfile 0
    | some (file, head) =>
      addSpace m_processedIfile 0 { st with
        disk := Function.update (Function.update st.disk sPathRel file) (sPathRel ++ lit ".head") head }

/-- The entry refers to one directory, or to any one that has a file of its name. -/
def looksAt (cfg : ValidationCfg) (entry : RemoteFileInfo) (dir : Bytes) : Bool :=
  let byPath := cfg.bByPath || entry.sFileName == lit "Index" ||
    cfg.isVolatile (entry.sDirectory ++ entry.sFileName)
  !byPath || dir == pathTidy entry.sDirectory

/-- The rounds of `loopFunc`, with the directories that are left. -/
def loop (cfg : ValidationCfg) (m_processedIfile : Bytes) (entry : RemoteFileInfo) :
    List (Bytes × Candidate) → Validation → List (Bytes × Candidate) × Validation
  | [], st => ([], st)
  | (dir, descHave) :: it, st =>
    if looksAt cfg entry dir then
      let sPathRel := dir ++ entry.sFileName
      let (verdict, descHave) := detectUncovered cfg st entry sPathRel descHave
      let (left, st) := loop cfg m_processedIfile entry it (act cfg m_processedIfile sPathRel st verdict)
      (if verdict.stays then (dir, descHave) :: left else left, st)
    else
      let (left, st) := loop cfg m_processedIfile entry it st
      ((dir, descHave) :: left, st)

/-- `HandlePkgEntry`, for an entry of the index file `m_processedIfile`. -/
def handlePkgEntry (cfg : ValidationCfg) (st : Validation) (m_processedIfile : Bytes)
    (entry : RemoteFileInfo) : Validation :=
  let (left, st') := loop cfg m_processedIfile entry (st.trash entry.sFileName) st
  { st' with trash := Function.update st.trash entry.sFileName left }

/-- The entries of all index files, each with the path of its file. -/
def run (cfg : ValidationCfg) (start : Validation) (entries : List (Bytes × RemoteFileInfo)) :
    Validation :=
  entries.foldl (fun st entry => handlePkgEntry cfg st entry.1 entry.2) start

end Validation

end Acng
