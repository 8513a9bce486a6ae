import Acng.FileReader
import Acng.Fingerprint
import Acng.HttpUrl

namespace Acng
open Lib

/-- `ParseKeyValLine`; `none` is the result false. -/
def parseKeyValLine (sIn : Bytes) : Option (Bytes × Bytes) :=
  let sOutVal := trimFront sIn
  match find [58] sOutVal with
  | some (pos + 1) =>
    some (stringTrimBack (sOutVal.take (pos + 1)), trimFront (sOutVal.drop (pos + 2)))
  | _ => none

/-- The map of `ParseGenericRfc822File`, where a key without values is not there, and the key that the
extension lines go to. -/
structure Rfc822 where
  contents : Bytes → List Bytes := fun _ => []
  lastKey : Option Bytes := none

namespace Rfc822

/-- One line. A key that comes again starts anew: "we don't merge". -/
def addLine (sExtListFilter : Bytes) (st : Rfc822) (sLine : Bytes) : Rfc822 :=
  match sLine with
  | [] => st
  | c :: _ =>
    if isspace c then
      match st.lastKey with
      | none => st
      | some lastKey =>
        if !sExtListFilter.isEmpty && sExtListFilter != lastKey then st
        else
          { st with
            contents := Function.update st.contents lastKey
              (st.contents lastKey ++ [trimFront (stringTrimBack sLine)]) }
    else
      match parseKeyValLine sLine with
      | none => st
      | some (key, val) =>
        { contents := Function.update st.contents key [val], lastKey := some key }

end Rfc822

/-- `ParseGenericRfc822File` on a file that was opened with an additional line end. -/
def parseGenericRfc822File (sExtListFilter text : Bytes) : Bytes → List Bytes :=
  ((fileLines text ++ [[]]).foldl (Rfc822.addLine sExtListFilter) {}).contents

/-- `ParseDebianIndexLine` with the type of the checksum; `none` is the result false. -/
def parseDebianIndexLine (csType : CsType) (fline : Bytes) : Option RemoteFileInfo :=
  match splitWalk isspace fline with
  | sum :: val :: name :: _ =>
    match Fingerprint.setCs {} sum csType with
    | none => none
    | some fpr =>
      if strtoll val < 0 then none
      else some { fpr := { fpr with size := strtoll val }, sFileName := urlUnescape name }
  | _ => none

/-- The index files that are read with `ParseDebianRfc822Index`. -/
inductive MetaType
  | diffIdx | sources | transIdx | release
deriving DecidableEq, Repr

/-- The place of the last occurrence of a text. -/
def rfindText (pat s : Bytes) : Option Nat :=
  (List.range (s.length + 1)).reverse.find? (fun pos => pat.isPrefixOf (s.drop pos))

/-- `CalculateBaseDirectories` for these types. -/
def calculateBaseDirectories (sPath : Bytes) : Option (Bytes × Bytes) :=
  match rfind 47 sPath with
  | none => none
  | some pos =>
    let sBaseDir := sPath.take (pos + 1)
    match rfindText (lit "/dists/") sBaseDir with
    | some pos => some (sBaseDir, sBaseDir.take (pos + 1))
    | none => some (sBaseDir, sBaseDir)

/-- The directories that the entries refer to. -/
structure IndexDirs where
  sBaseDir : Bytes
  sPkgBaseDir : Bytes
  sSubDir : Bytes

/-- The directory of an entry. Names in release files usually have folders in front. -/
def placeEntry (origIdxType : MetaType) (dirs : IndexDirs) (info : RemoteFileInfo) :
    RemoteFileInfo :=
  match origIdxType with
  | .sources => { info with sDirectory := dirs.sPkgBaseDir ++ dirs.sSubDir }
  | .transIdx | .diffIdx => { info with sDirectory := dirs.sBaseDir ++ dirs.sSubDir }
  | .release =>
    match rfind 47 info.sFileName with
    | none => { info with sDirectory := dirs.sBaseDir ++ dirs.sSubDir }
    | some pos =>
      { info with
        sDirectory := dirs.sBaseDir ++ dirs.sSubDir ++ info.sFileName.take (pos + 1)
        sFileName := info.sFileName.drop (pos + 1) }

def processList (origIdxType : MetaType) (csType : CsType) (dirs : IndexDirs)
    (fileList : List Bytes) : List RemoteFileInfo :=
  (fileList.filterMap (parseDebianIndexLine csType)).map (placeEntry origIdxType dirs)

/-- The entries that `ParseDebianRfc822Index` reports, unless the user stops it. -/
def parseDebianRfc822Index (text sBaseDir sPkgBaseDir : Bytes) (origIdxType : MetaType)
    (csType : CsType) (sExtListFilter : Bytes) (byHashMode : Bool) : List RemoteFileInfo :=
  let contents := parseGenericRfc822File sExtListFilter text
  let sSubDir := match contents (lit "Directory") with
    | [] => []
    | front :: _ => stringTrimBack front ++ [47]
  let dirs := { sBaseDir, sPkgBaseDir := urlUnescape sPkgBaseDir, sSubDir }
  if byHashMode && (contents (lit "Acquire-By-Hash")).head? != some (lit "yes") then []
  else if origIdxType = .release && byHashMode then
    [CsType.md5, .sha1, .sha256, .sha512].flatMap (fun cst =>
      processList origIdxType cst dirs (contents cst.nameReleaseFile))
  else processList origIdxType csType dirs (contents sExtListFilter)

/-- `ParseAndProcessMetaFile` for these types, with the content of the file if it can be opened. -/
def parseAndProcessMetaFile (sPath : Bytes) (idxType : MetaType) (byHashMode : Bool)
    (text : Option Bytes) : List RemoteFileInfo :=
  match calculateBaseDirectories sPath, text with
  | some (sBaseDir, sPkgBaseDir), some text =>
    match idxType with
    | .diffIdx =>
      parseDebianRfc822Index text sBaseDir sPkgBaseDir .diffIdx .sha256 (lit "SHA256-Download")
        byHashMode
    | .sources =>
      parseDebianRfc822Index text sBaseDir sPkgBaseDir .sources .md5 (lit "Files") byHashMode
    | .transIdx =>
      parseDebianRfc822Index text sBaseDir sPkgBaseDir .transIdx .sha1 (lit "SHA1") byHashMode
    | .release =>
      if byHashMode then
        parseDebianRfc822Index text sBaseDir sPkgBaseDir .release .invalid [] true
      else parseDebianRfc822Index text sBaseDir sPkgBaseDir .release .sha256 (lit "SHA256") false
  | _, _ => []

end Acng
