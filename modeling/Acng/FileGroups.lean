import Acng.MetaFile
import Acng.MetaFiles
import Mathlib.Data.List.Sort

namespace Acng
open Lib

/-- `operator<` of `tFingerprint`. -/
def Fingerprint.lt (a b : Fingerprint) : Bool :=
  if b.csType ≠ a.csType then a.csType.ctorIdx < b.csType.ctorIdx
  else if a.size ≠ b.size then a.size < b.size
  else bytesLt a.csum b.csum

/-- `tContentKey`. -/
structure ContentKey where
  distinctName : Bytes := []
  fpr : Fingerprint := {}
deriving DecidableEq, Repr

namespace ContentKey

/-- `operator<`. -/
def lt (a b : ContentKey) : Bool :=
  if a.fpr = b.fpr then bytesLt a.distinctName b.distinctName else a.fpr.lt b.fpr

def valid (key : ContentKey) : Bool := key.fpr.csType != .invalid

end ContentKey

/-- `tFileGroup`. -/
structure FileGroup where
  paths : List Bytes := []
  diffIdxId : ContentKey := {}
deriving DecidableEq, Repr

/-- `tFileGroups`. -/
abbrev FileGroups := List (ContentKey × FileGroup)

/-- `dis`. -/
def dis : Bytes := lit "/binary-"

/-- `diffIdxSfx`. -/
def diffIdxSfx : Bytes := lit ".diff/Index"

/-- `FindCompSfxPos`. -/
def findCompSfxPos (s : Bytes) : Option Nat :=
  (sfxXzBz2GzLzma.find? (·.isSuffixOf s)).map (fun p => s.length - p.length)

/-- The name without the suffix of a compression. -/
def nativeName (path : Bytes) : Bytes :=
  match findCompSfxPos path with
  | none => path
  | some pos => path.take pos

/-- `tFile2Cid`, what one release file says of its files. -/
abbrev File2Cid := List (Bytes × ContentKey)

namespace File2Cid

/-- `recvInfo`. If looking like Debian archive, just the part after `binary-` is kept of the name. -/
def recvInfo (file2cid : File2Cid) (entry : RemoteFileInfo) : File2Cid :=
  let distinctName := match rfindText dis entry.sDirectory with
    | some pos => entry.sDirectory.drop pos ++ entry.sFileName
    | none => entry.sFileName
  OrdMap.insert bytesLt (entry.sDirectory ++ entry.sFileName) ⟨distinctName, entry.fpr⟩ file2cid

def ofRelease (sPathRel : Bytes) (text : Option Bytes) : File2Cid :=
  (parseAndProcessMetaFile sPathRel .release false text).foldl recvInfo []

/-- The key of the group of a file: what the release file says of the native representation, else of
the best compressed form. -/
def groupId (file2cid : File2Cid) (if2cid : Bytes × ContentKey) : ContentKey :=
  let sNativeName := nativeName if2cid.1
  let groupId := match file2cid.lookup sNativeName with
    | some cid => cid
    | none =>
      (sfxXzBz2GzLzma.findSome? (fun ps => file2cid.lookup (sNativeName ++ ps))).getD {}
  if groupId.valid then groupId else if2cid.2

end File2Cid

namespace FileGroups

def addFile (file2cid : File2Cid) (idxGroups : FileGroups) (if2cid : Bytes × ContentKey) :
    FileGroups :=
  let groupId := file2cid.groupId if2cid
  let tgt := (idxGroups.lookup groupId).getD {}
  let diffIdxId :=
    if tgt.diffIdxId.valid then tgt.diffIdxId
    else (file2cid.lookup (nativeName if2cid.1 ++ diffIdxSfx)).getD tgt.diffIdxId
  OrdMap.insert ContentKey.lt groupId ⟨tgt.paths ++ [if2cid.1], diffIdxId⟩ idxGroups

/-- `ExtractAllRawReleaseDataFixStrandedPatchIndex`, as far as it fills the groups, with the content of
the release files that can be opened. -/
def extractAllRawReleaseData (releaseFilesRel : List (Bytes × Option Bytes)) : FileGroups :=
  releaseFilesRel.foldl (fun idxGroups release =>
    let file2cid := File2Cid.ofRelease release.1 release.2
    file2cid.foldl (addFile file2cid) idxGroups) []

/-- `FilterGroupData`: the groups that are at least partially present in the cache. -/
def filterGroupData (m : MetaFiles) (idxGroups : FileGroups) : FileGroups :=
  idxGroups.filter (fun it => it.2.paths.any (fun path => (m.getFlags path).vfile_ondisk))

end FileGroups

/-- The paths of a group that stay: an uncompressed one does for now. -/
def FileGroup.stays (m : MetaFiles) (path : Bytes) : Bool :=
  (findCompIdx path).isNone || (m.getFlags path).vfile_ondisk

def FileGroup.sorted (m : MetaFiles) (group : FileGroup) : FileGroup :=
  ⟨(group.paths.filter (stays m)).insertionSort (fun a b => bytesLt b a = false), group.diffIdxId⟩

/-- The daisy chain in the making: its first and its last member, and the links. -/
structure DaisyChain where
  ends : Option (Bytes × Bytes) := none
  bro : Bytes → Bytes

namespace DaisyChain

def add (chain : DaisyChain) (path : Bytes) : DaisyChain :=
  match chain.ends with
  | none => { chain with ends := some (path, path) }
  | some (pfirst, pprev) => ⟨some (pfirst, path), Function.update chain.bro pprev path⟩

def close (chain : DaisyChain) : Bytes → Bytes :=
  match chain.ends with
  | none => chain.bro
  | some (pfirst, pprev) => Function.update chain.bro pprev pfirst

end DaisyChain

/-- The chain of a group, over the descriptors that there are. -/
def FileGroup.chain (m : MetaFiles) (bro : Bytes → Bytes) (group : FileGroup) : Bytes → Bytes :=
  ((group.paths.filter (fun path => (m.find? path).isSome)).foldl DaisyChain.add { bro }).close

/-- `SortAndInterconnectGroupData`, with the descriptor that `bro` points to, by its path. Each points to
itself when it is made. -/
def FileGroups.sortAndInterconnectGroupData (m : MetaFiles) (idxGroups : FileGroups) :
    FileGroups × (Bytes → Bytes) :=
  idxGroups.foldl (fun (groups, bro) it =>
    let group := it.2.sorted m
    (groups ++ [(it.1, group)], group.chain m bro)) ([], id)

/-- What `ProcessSeenIndexFiles` marks as parsed along with a file, from `next` on and in a number of
rounds; `none` where this does not come to an end. -/
def markSiblings (bro : Bytes → Bytes) (att : Bytes) : Nat → Bytes → Option (List Bytes)
  | 0, _ => none
  | rounds + 1, next =>
    if next = att then some [] else (markSiblings bro att rounds (bro next)).map (next :: ·)

end Acng
