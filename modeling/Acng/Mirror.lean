import Acng.Expiration
import Acng.Fingerprint

namespace Acng
open Lib

/-- The state of a mirror job that `HandlePkgEntry` reads. There is a source for deltas if
`m_pDeltaSrc` is set. -/
structure PkgMirror where
  bAsNeeded : Bool := false
  pathFilter : Bytes → Bool := fun _ => true
  bCalcSize : Bool := false
  hasDeltaSrc : Bool := true
  repCutLen : Nat

/-- What the system does for one entry: the size of the file, the matches of a pattern, the result
of `dpkg`, and the pairs that `std::sort` compares. -/
structure MirrorTools where
  haveSize : Bytes → Int
  expandFilePattern : Bytes → List Bytes
  dpkg : VersionCompare → Bool
  sortPairs : List Bytes → List (Bytes × Bytes)

namespace PkgMirror

/-- The command of `CompDebVerLessThan`. -/
def compDebVerLessThan (s1 s2 : Bytes) : VersionCompare := ⟨s1, lit "lt", s2⟩

/-- The second part of the path of an old package, if it looks like a version. -/
def oldVersion (oldeb : Bytes) : Option Bytes :=
  match splitWalk (· == 95) oldeb with
  | _ :: s :: _ =>
    match cstr s with
    | [] => none
    | p :: rest => if isdigit p && rest.all versionChar then some s else none
  | _ => none

/-- The old versions of a package in the directory of an entry. They are C strings. -/
def oldVersions (tools : MirrorTools) (sDirectory name arch : Bytes) : List Bytes :=
  ((tools.expandFilePattern (sDirectory ++ name ++ lit "_*_" ++ arch)).map cstr).filterMap oldVersion

/-- The conditions for the search for something that can be patched. -/
def wantsDelta (m : PkgMirror) (tools : MirrorTools) (entry : RemoteFileInfo) : Bool :=
  let haveSize := tools.haveSize (entry.sDirectory ++ entry.sFileName)
  haveSize != entry.fpr.size && m.hasDeltaSrc && (lit ".deb").isSuffixOf entry.sFileName &&
    m.repCutLen < entry.sDirectory.length && entry.sDirectory[m.repCutLen]? == some 47 &&
    haveSize ≤ entry.fpr.size.tdiv 8 * 7

/-- The entry is not wanted if nothing of its package is there. -/
def filtered (m : PkgMirror) (entry : RemoteFileInfo) : Bool :=
  let filter := match find [95] entry.sFileName with
    | none => entry.sDirectory
    | some pos => entry.sDirectory ++ entry.sFileName.take pos
  m.bAsNeeded && !m.pathFilter filter

/-- The three parts of the name of a package file. -/
structure DebParts where
  name : Bytes
  version : Bytes
  arch : Bytes
deriving DecidableEq, Repr

def debParts (sFileName : Bytes) : Option DebParts :=
  match splitWalk (· == 95) sFileName with
  | [name, version, arch] => some { name, version, arch }
  | _ => none

/-- The entry for which old packages are looked up, with its parts. -/
def deltaParts (m : PkgMirror) (tools : MirrorTools) (entry : RemoteFileInfo) : Option DebParts :=
  if m.filtered entry || m.bCalcSize || !m.wantsDelta tools entry then none
  else debParts entry.sFileName

/-- The commands that `HandlePkgEntry` runs to compare versions: each old one with the one of the
entry, and then the suitable ones with each other. -/
def handlePkgEntry (m : PkgMirror) (tools : MirrorTools) (entry : RemoteFileInfo) :
    List VersionCompare :=
  match m.deltaParts tools entry with
  | none => []
  | some parts =>
    let old := oldVersions tools entry.sDirectory parts.name parts.arch
    let sorted := old.filter (fun s => tools.dpkg (compDebVerLessThan s parts.version))
    old.map (fun s => compDebVerLessThan s parts.version) ++
      (tools.sortPairs sorted).map (fun pair => compDebVerLessThan pair.1 pair.2)

end PkgMirror

end Acng
