import Acng.MetaFile

namespace Acng
open Lib

/-- What a line of a Packages file sets, with a checksum as it is written. -/
inductive PackagesField
  | sum (csType : CsType) (hexString : Bytes)
  | size (size : Int)
  | filename (val : Bytes)
deriving DecidableEq, Repr

def PackagesField.ofLine (sLine : Bytes) : Option PackagesField :=
  match parseKeyValLine (stringTrimBack sLine) with
  | none => none
  | some (key, val) =>
    if key = lit "MD5sum" then some (.sum .md5 val)
    else if key = lit "SHA256" then some (.sum .sha256 val)
    else if key = lit "Size" then some (.size (strtoll val))
    else if key = lit "Filename" then some (.filename val)
    else none

/-- The bytes that `CsAsciiToBin` writes. It stops at what is no hex digit. -/
def csWritten : Bytes → Bytes
  | a :: b :: s =>
    match hexVal a, hexVal b with
    | some x, some y => UInt8.ofNat (16 * x + y) :: csWritten s
    | _, _ => []
  | _ => []

/-- The `tRemoteFileInfo` that the lines of a Packages file go to. Nothing clears the bytes of its
checksum. -/
structure PackagesInfo where
  size : Int := -1
  csType : CsType := .invalid
  csum : Nat → UInt8
  sDirectory : Bytes := []
  sFileName : Bytes := []

namespace PackagesInfo

/-- `SetInvalid`. -/
def setInvalid (info : PackagesInfo) : PackagesInfo := { csum := info.csum }

/-- `IsUsable`. -/
def isUsable (info : PackagesInfo) : Bool :=
  !info.sFileName.isEmpty && info.csType != .invalid && 0 < info.size

/-- `SetCs` with the type that is wanted. The type is set before the digits are looked at, and its result
is not asked for. -/
def setCs (info : PackagesInfo) (hexString : Bytes) (eCstype : CsType) : PackagesInfo :=
  let l := hexString.length
  if l = 0 || l % 2 = 1 || l != 2 * eCstype.len then info
  else
    { info with
      csType := eCstype
      csum := fun j => ((csWritten hexString)[j]?).getD (info.csum j) }

def set (sPkgBaseDir : Bytes) (info : PackagesInfo) : PackagesField → PackagesInfo
  | .sum csType hexString => info.setCs hexString csType
  | .size size => { info with size }
  | .filename val =>
    -- what UrlUnescape returns is dropped, for the name and for the directory
    match rfind 47 val with
    | none => { info with sDirectory := sPkgBaseDir, sFileName := val }
    | some pos =>
      { info with
        sDirectory := sPkgBaseDir ++ val.take (pos + 1)
        sFileName := val.drop (pos + 1) }

def toRemoteFileInfo (info : PackagesInfo) : RemoteFileInfo where
  fpr := ⟨info.size, info.csType, (List.range info.csType.len).map info.csum⟩
  sDirectory := info.sDirectory
  sFileName := info.sFileName

end PackagesInfo

/-- The loop of `ParseAndProcessMetaFile` over a Packages file. For each line that is empty: what it
reports of the lines before, if it does. -/
structure PackagesReader where
  info : PackagesInfo
  reports : List (Option RemoteFileInfo) := []

namespace PackagesReader

def commit (st : PackagesReader) : PackagesReader where
  info := st.info.setInvalid
  reports := st.reports ++ [if st.info.isUsable then some st.info.toRemoteFileInfo else none]

def readLine (sPkgBaseDir : Bytes) (st : PackagesReader) (sLine : Bytes) : PackagesReader :=
  if (stringTrimBack sLine).isEmpty then st.commit
  else
    match PackagesField.ofLine sLine with
    | none => st
    | some field => { st with info := st.info.set sPkgBaseDir field }

end PackagesReader

/-- The reports for a file that can be opened, unless the user stops it. There is one more line end behind
the file, and `csum` is what the array holds in the beginning. -/
def readPackages (sPkgBaseDir : Bytes) (csum : Nat → UInt8) (text : Bytes) :
    List (Option RemoteFileInfo) :=
  ((fileLines text ++ [[]]).foldl (PackagesReader.readLine sPkgBaseDir) ⟨{ csum }, []⟩).reports

end Acng
