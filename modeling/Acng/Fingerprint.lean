import Acng.Lib.Numeral

namespace Acng
open Lib

/-- `CSTYPES`. -/
inductive CsType
  | invalid | md5 | sha1 | sha256 | sha512
deriving DecidableEq, Repr

namespace CsType

/-- `GetCSTypeLen`. -/
def len : CsType → Nat
  | invalid => 0
  | md5 => 16
  | sha1 => 20
  | sha256 => 32
  | sha512 => 64

/-- `GuessCStype`. -/
def guess (n : Nat) : CsType :=
  if n = 16 then md5 else if n = 20 then sha1 else if n = 32 then sha256
  else if n = 64 then sha512 else invalid

/-- `GetCsNameReleaseFile`. -/
def nameReleaseFile : CsType → Bytes
  | invalid => lit "Other"
  | md5 => lit "MD5Sum"
  | sha1 => lit "SHA1"
  | sha256 => lit "SHA256"
  | sha512 => lit "SHA512"

end CsType

/-- `CsAsciiToBin`. -/
def csAsciiToBin : Bytes → Option Bytes
  | a :: b :: s => do
    let x ← hexVal a
    let y ← hexVal b
    let rest ← csAsciiToBin s
    some (UInt8.ofNat (16 * x + y) :: rest)
  | _ => some []

def hexDigit (n : Nat) : UInt8 := UInt8.ofNat (if n < 10 then 48 + n else 87 + n)

/-- `BytesToHexString`. -/
def bytesToHexString (sum : Bytes) : Bytes :=
  sum.flatMap (fun b => [hexDigit (b.toNat / 16), hexDigit (b.toNat % 16)])

/-- `tFingerprint`. The checksum has the length of its type. -/
structure Fingerprint where
  size : Int := 0
  csType : CsType := .invalid
  csum : Bytes := []
deriving DecidableEq, Repr

namespace Fingerprint

/-- `SetCs`; `none` is the result false. -/
def setCs (self : Fingerprint) (hexString : Bytes) (eCstype : CsType) : Option Fingerprint :=
  let l := hexString.length
  let type := if eCstype = .invalid then CsType.guess (l / 2) else eCstype
  if l = 0 || l % 2 = 1 || type = .invalid || l != 2 * type.len then none
  else (csAsciiToBin hexString).map (fun csum => { self with csType := type, csum })

end Fingerprint

/-- `tRemoteFileInfo`, an entry of an index file. -/
structure RemoteFileInfo where
  fpr : Fingerprint := {}
  sDirectory : Bytes := []
  sFileName : Bytes := []
deriving DecidableEq, Repr

/-- `SetInvalid`. -/
def RemoteFileInfo.setInvalid (info : RemoteFileInfo) : RemoteFileInfo :=
  { fpr := { info.fpr with csType := .invalid, size := -1 } }

end Acng
