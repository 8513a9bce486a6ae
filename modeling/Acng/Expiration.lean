import Acng.FileReader
import Acng.Lib.Paths
import Mathlib.Data.List.AList

namespace Acng
open Lib

structure DiskFileInfo where
  nLostAt : Int := 0
deriving DecidableEq, Repr

/-- `m_trashFile2dir2Info`: the directories of a file name, each with what is known about the
file. -/
abbrev TrashMap := AList (fun _ : Bytes => AList (fun _ : Bytes => DiskFileInfo))

namespace TrashMap

/-- What is known about a file; nothing is inserted. -/
def at? (t : TrashMap) (name dir : Bytes) : Option DiskFileInfo :=
  (t.lookup name).bind (fun dirs => dirs.lookup dir)

/-- `t[name][dir]` on the left side of an assignment. The operators insert what is missing. -/
def modify (t : TrashMap) (name dir : Bytes) (f : DiskFileInfo → DiskFileInfo) : TrashMap :=
  let dirs := (t.lookup name).getD ∅
  t.insert name (dirs.insert dir (f ((dirs.lookup dir).getD {})))

/-- The file is taken out of its group. -/
def eraseDir (t : TrashMap) (name dir : Bytes) : TrashMap :=
  match t.lookup name with
  | none => t
  | some dirs => t.insert name (dirs.erase dir)

/-- The file is not taken out for which `stays` says so. -/
def eraseDirs (t : TrashMap) (name : Bytes) (stays : Bytes → Bool) : TrashMap :=
  match t.lookup name with
  | none => t
  | some dirs =>
    t.insert name ((dirs.entries.map Sigma.fst).foldl
      (fun dirs dir => if stays dir then dirs else dirs.erase dir) dirs)

/-- All files, as the two nested loops visit them. -/
def files (t : TrashMap) : List (Bytes × Bytes × DiskFileInfo) :=
  t.entries.flatMap (fun group => group.2.entries.map (fun dirProps =>
    (group.1, dirProps.1, dirProps.2)))

end TrashMap

/-- The part of `pathTidy` for `/./`. -/
def dropDots : Bytes → Bytes
  | a :: b :: c :: t =>
    if a == 47 && b == 46 && c == 47 then dropDots (c :: t) else a :: dropDots (b :: c :: t)
  | s => s

/-- `pathTidy`. -/
def pathTidy (s : Bytes) : Bytes :=
  dropDots (squeeze 47 (if (lit "./").isPrefixOf s then s.drop 2 else s))

/-- The settings and patterns of a run. The patterns are those of the user. -/
structure ExpirationCfg where
  bScanInternals : Bool := false
  bByPath : Bool := false
  isVolatile : Bytes → Bool
  addIFileCandidate : Bytes → Bool

/-- A path that the scan comes across, relative to the cache. -/
structure ScannedPath where
  sPathRel : Bytes
  noNul : 0 ∉ sPathRel

namespace Expiration

/-- The file name of a path begins here. -/
def cutPos (sPathRel : Bytes) : Nat := ((rfind 47 sPathRel).map (· + 1)).getD 0

/-- The part of `ProcessRegular` that finds candidates for removal. A head file stands for the
file that it describes. -/
def processRegular (cfg : ExpirationCfg) (now : Int) (t : TrashMap) (path : ScannedPath) :
    TrashMap :=
  let sPathRel := path.sPathRel
  -- \r \n ' " < > \x7b \x7d
  if sPathRel.any ([13, 10, 39, 34, 60, 62, 123, 125].contains ·) then t
  else if sPathRel.head? == some 95 && !cfg.bScanInternals then t
  else
    let stripLen := if (lit ".head").isSuffixOf sPathRel then 5 else 0
    if stripLen = 0 && !cfg.addIFileCandidate sPathRel && cfg.isVolatile sPathRel then t
    else
      let nCutPos := cutPos sPathRel
      let name := (sPathRel.drop nCutPos).take (sPathRel.length - stripLen - nCutPos)
      t.modify name (sPathRel.take nCutPos) (fun info => { info with nLostAt := now })

/-- An entry of an index file, or of a `by-hash` list of a release file. What `DetectUncovered`
finds out about the file of a directory is up to its state on the disk. -/
inductive Reference
  | pkgEntry (sDirectory sFileName : Bytes) (detectUncovered : Bytes → Bool)
  | byHash (sDirectory hexname csName : Bytes)

/-- `HandlePkgEntry`, and the loop over the release files in `Action`. -/
def handleEntry (cfg : ExpirationCfg) (t : TrashMap) : Reference → TrashMap
  | .pkgEntry sDirectory sFileName detectUncovered =>
    let byPath := cfg.bByPath || sFileName == lit "Index" || cfg.isVolatile (sDirectory ++ sFileName)
    if byPath then
      let cleanPath := pathTidy sDirectory
      if (t.at? sFileName cleanPath).isNone || detectUncovered cleanPath then t
      else t.eraseDir sFileName cleanPath
    else t.eraseDirs sFileName detectUncovered
  | .byHash sDirectory hexname csName =>
    if !cfg.bByPath then t.erase hexname
    else t.eraseDir hexname (sDirectory ++ lit "by-hash/" ++ csName ++ [47])

/-- A line of `_expending_dat`: the time, and the directory and the name of a file. -/
structure PendingRecord where
  timestamp : Int
  dir : Bytes
  name : Bytes
deriving DecidableEq, Repr

/-- A directory gets a slash at its end. -/
def slashed (dir : Bytes) : Bytes :=
  if !dir.isEmpty && dir.getLast? != some 47 then dir ++ [47] else dir

/-- The checks of `LoadPreviousData` for one line. -/
def parsePending (now : Int) (sLine : Bytes) : Option PendingRecord :=
  let (value, rest) := strtoull sLine
  let timestamp : Int := if value < 2 ^ 63 then value else value - 2 ^ 64
  if rest.head? != some 9 || timestamp = 0 || now < timestamp then none
  else
    let eptr := rest.tail
    let dir := eptr.takeWhile (· != 9)
    let name := (eptr.dropWhile (· != 9)).tail
    if !eptr.contains 9 || name.contains 9 then none
    else some { timestamp, dir := slashed dir, name }

/-- The update for one record in `LoadPreviousData(false)`. The file may be unknown to this run, then
it is inserted without a date. -/
def loadPending (t : TrashMap) (r : PendingRecord) : TrashMap :=
  t.modify r.name r.dir (fun desc => if 0 < desc.nLostAt then { nLostAt := r.timestamp } else desc)

/-- `LoadPreviousData(false)`; there may be no file to read. -/
def loadPreviousData (now : Int) (t : TrashMap) (pending : Option Bytes) : TrashMap :=
  ((pending.elim [] fileLines).filterMap (parsePending now)).foldl loadPending t

end Expiration

/-- A character that is allowed in the version of a package. -/
def versionChar (c : UInt8) : Bool := isalnum c || (lit ".-+:~").contains c

/-- `dpkg --compare-versions` with two versions and an operator, run by a shell. -/
structure VersionCompare where
  ver1 : Bytes
  op : Bytes
  ver2 : Bytes
deriving DecidableEq, Repr

def VersionCompare.command (c : VersionCompare) : Bytes :=
  lit "dpkg --compare-versions " ++ c.ver1 ++ 32 :: c.op ++ 32 :: c.ver2

/-- `tPkgId`. The group is that of the file name. -/
structure PkgId where
  prevName : Bytes := []
  ver : Bytes := []
  prevArcSufx : Bytes := []
  fileName : Bytes := []
deriving DecidableEq, Repr

namespace PkgId

/-- `Set` on some object. What it looks at for bad characters is the old architecture suffix. -/
def set (self : PkgId) (fileName : Bytes) : Option PkgId :=
  match splitWalk (· == 95) fileName with
  | [prevName, ver, prevArcSufx] =>
    if (cstr self.prevArcSufx).all versionChar then some { prevName, ver, prevArcSufx, fileName }
    else none
  | _ => none

def samePkg (id other : PkgId) : Bool :=
  other.prevName == id.prevName && other.prevArcSufx == id.prevArcSufx

/-- The command of `operator<`. -/
def lessCmd (id other : PkgId) : VersionCompare := ⟨id.ver, lit "gt", other.ver⟩

end PkgId

/-- What the system does for `DropExceptionalVersions`: whether there is a `dpkg`, and what becomes
of `std::sort`, with the pairs that it compares. -/
structure VersionTools where
  hasDpkg : Bool
  sort : List PkgId → List (PkgId × PkgId) × List PkgId

namespace Expiration

/-- The packages that go through `procGroup` together. Each is compared with the one in front of
it. -/
def versionGroups (t : TrashMap) : List (List PkgId) :=
  let debs := (t.entries.map Sigma.fst).filter (fun name => (lit ".deb").isSuffixOf name)
  (debs.filterMap ({} : PkgId).set).splitBy (fun back newkey => newkey.samePkg back)

/-- The files of a kept version are taken for lost just now. -/
def keepGroup (now : Int) (t : TrashMap) (fileName : Bytes) : TrashMap :=
  match t.lookup fileName with
  | none => t
  | some dirs =>
    t.insert fileName (dirs.entries.foldl
      (fun dirs dirProps => dirs.insert dirProps.1 { dirProps.2 with nLostAt := now }) dirs)

/-- `procGroup`: the commands and the new candidates. -/
def procGroup (tools : VersionTools) (keepnver : Nat) (now : Int) (t : TrashMap)
    (group : List PkgId) : List VersionCompare × TrashMap :=
  let (compared, group) := if keepnver < group.length then tools.sort group else ([], group)
  (compared.map (fun pair => pair.1.lessCmd pair.2),
    (group.take keepnver).foldl (fun t id => keepGroup now t id.fileName) t)

/-- `DropExceptionalVersions`. -/
def dropExceptionalVersions (tools : VersionTools) (keepnver : Int32) (now : Int) (t : TrashMap) :
    List VersionCompare × TrashMap :=
  if t.entries.isEmpty || keepnver = 0 || !tools.hasDpkg then ([], t)
  else
    (versionGroups t).foldl (fun (cmds, t) group =>
      let (cmds', t) := procGroup tools keepnver.toUInt32.toNat now t group
      (cmds ++ cmds', t)) ([], t)

end Expiration

/-- The settings of `RemoveAndStoreStatus`, and what other parts of the run have found out about
paths and directories. -/
structure RemovalCfg where
  extreshhold : Int32
  keepnver : Int32 := 0
  tools : VersionTools := { hasDpkg := false, sort := fun ids => ([], ids) }
  isWhitelisted : Bytes → Bool
  forceKeepInTrash : Bytes → Bool
  managedDirs : Bytes → Bool

/-- What is done with a candidate. -/
inductive Fate
  | skipped | removed | tagged
deriving DecidableEq, Repr

/-- The result of `RemoveAndStoreStatus`: the calls of `unlink` with their paths in the cache, and
the new `_expending_dat` if it was written. -/
structure RemovalResult where
  removed : List Bytes
  tagged : List Bytes
  pending : Option Bytes
deriving DecidableEq, Repr

/-- Each file goes together with its head file. -/
def RemovalResult.unlinked (r : RemovalResult) : List Bytes :=
  r.removed.flatMap (fun sPathRel => [sPathRel, sPathRel ++ lit ".head"])

namespace Expiration

/-- `TIMEEXPIRED`. The threshold is computed in `int` and may wrap around. -/
def timeExpired (extreshhold : Int32) (now nLostAt : Int) : Bool :=
  nLostAt < now - (extreshhold * 86400).toInt

def fate (cfg : RemovalCfg) (bPurgeNow : Bool) (now : Int) (name dir : Bytes)
    (desc : DiskFileInfo) : Fate :=
  let sPathRel := dir ++ name
  if !cfg.forceKeepInTrash sPathRel && (cfg.isWhitelisted name || cfg.isWhitelisted sPathRel) &&
      !cfg.managedDirs dir then .skipped
  else if desc.nLostAt ≤ 0 then .skipped
  else if bPurgeNow || timeExpired cfg.extreshhold now desc.nLostAt then .removed
  else .tagged

/-- The line for a tagged file. -/
def pendingLine (name dir : Bytes) (desc : DiskFileInfo) : Bytes :=
  decDigits desc.nLostAt.toNat ++ 9 :: cstr dir ++ 9 :: cstr name ++ [10]

/-- `RemoveAndStoreStatus` when `_expending_dat` can be opened for writing. It is not opened if
everything is to be removed. -/
def removeAndStoreStatus (cfg : RemovalCfg) (bPurgeNow : Bool) (now : Int) (t : TrashMap) :
    RemovalResult :=
  let t := if bPurgeNow then t else (dropExceptionalVersions cfg.tools cfg.keepnver now t).2
  let withFate (f : Fate) := t.files.filter (fun file =>
    fate cfg bPurgeNow now file.1 file.2.1 file.2.2 == f)
  { removed := (withFate .removed).map (fun file => file.2.1 ++ file.1)
    tagged := (withFate .tagged).map (fun file => file.2.1 ++ file.1)
    pending := if bPurgeNow then none
      else some ((withFate .tagged).flatMap (fun file => pendingLine file.1 file.2.1 file.2.2)) }

end Expiration

/-- How a run ends: in front of `RemoveAndStoreStatus`, in it because the record cannot be written,
which may cost the old one, or regularly. -/
inductive RunEnd
  | aborted
  | noPendingFile (lost : Bool)
  | completed
deriving DecidableEq, Repr

/-- A regular expiration run. -/
structure ExpirationRun where
  now : Int
  now_lt : now < 2 ^ 63
  cfg : ExpirationCfg
  removal : RemovalCfg
  files : List ScannedPath
  refs : List Expiration.Reference
  ending : RunEnd

namespace ExpirationRun
open Expiration

/-- What is left of the scanned files when all index files are processed. -/
def candidates (r : ExpirationRun) : TrashMap :=
  r.refs.foldl (handleEntry r.cfg) (r.files.foldl (processRegular r.cfg r.now) ∅)

/-- The result of a run that gets to its end. -/
def result (r : ExpirationRun) (pending : Option Bytes) : RemovalResult :=
  removeAndStoreStatus r.removal false r.now (loadPreviousData r.now r.candidates pending)

/-- The record file that is there after the run. -/
def pendingAfter (pending : Option Bytes) (r : ExpirationRun) : Option Bytes :=
  match r.ending with
  | .aborted => pending
  | .noPendingFile lost => if lost then none else pending
  | .completed => (r.result pending).pending

end ExpirationRun

end Acng
