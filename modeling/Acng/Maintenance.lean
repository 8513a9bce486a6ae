import Acng.Prepare

namespace Acng
open Lib

/-- `eMaintWorkType`. -/
inductive MaintWorkType
  | workNotSpecial
  | workExExpire | workExList | workExPurge | workExListDamaged | workExPurgeDamaged
  | workExTruncDamaged
  | workUSERINFO | workMAINTREPORT | workAUTHREQUEST | workAUTHREJECT
  | workIMPORT | workMIRROR | workDELETE | workDELETECONFIRM
  | workCOUNTSTATS | workSTYLESHEET | workTraceStart | workTraceEnd
  | workTRUNCATE | workTRUNCATECONFIRM
deriving DecidableEq, Repr

namespace MaintWorkType

/-- Work that deletes, truncates, imports, mirrors, expires or switches the tracing, with its
listings and confirmation pages. -/
def changesState : MaintWorkType → Bool
  | workNotSpecial | workUSERINFO | workMAINTREPORT | workAUTHREQUEST | workAUTHREJECT
  | workCOUNTSTATS | workSTYLESHEET => false
  | _ => true

end MaintWorkType

def base64Alphabet : Bytes := lit "ABCDEFGHIJKLMNOPQRSTUVWXYZabcdefghijklmnopqrstuvwxyz0123456789+/"

/-- `alphabet[bits & 0x3f]`. -/
def base64Digit (bits : Nat) : UInt8 := base64Alphabet.getD (bits % 64) 0

/-- `EncodeBase64`. -/
def encodeBase64 : Bytes → Bytes
  | a :: b :: c :: data =>
    let bits := a.toNat * 65536 + b.toNat * 256 + c.toNat
    base64Digit (bits / 262144) :: base64Digit (bits / 4096) :: base64Digit (bits / 64) ::
      base64Digit bits :: encodeBase64 data
  | [a, b] =>
    let bits := a.toNat * 65536 + b.toNat * 256
    [base64Digit (bits / 262144), base64Digit (bits / 4096), base64Digit (bits / 64), 61]
  | [a] =>
    let bits := a.toNat * 65536
    [base64Digit (bits / 262144), base64Digit (bits / 4096), 61, 61]
  | [] => []

/-- What the option `AdminAuth` stores. -/
def encodeBase64Auth (sPwdString : Bytes) : Bytes := encodeBase64 (urlUnescape sPwdString)

/-- `cfg::CheckAdminAuth`, without hashed passwords. The value of the header is a C string or the
null pointer. -/
def checkAdminAuth (adminauthB64 : Bytes) (auth : Option Bytes) : Int :=
  if adminauthB64.isEmpty then 0
  else
    let auth := auth.elim [] cstr
    if auth.isEmpty then 1
    else if !(lit "Basic").isPrefixOf auth then -1
    else if adminauthB64 == (auth.drop 5).dropWhile isspace then 0
    else 1

/-- The actions in the order of the tests. -/
def needles : List (Bytes × MaintWorkType) :=
  [(lit "doExpire=", .workExExpire),
    (lit "justShow=", .workExList),
    (lit "justRemove=", .workExPurge),
    (lit "justShowDamaged=", .workExListDamaged),
    (lit "justRemoveDamaged=", .workExPurgeDamaged),
    (lit "justTruncDamaged=", .workExTruncDamaged),
    (lit "doImport=", .workIMPORT),
    (lit "doMirror=", .workMIRROR),
    (lit "doDelete=", .workDELETECONFIRM),
    (lit "doDeleteYes=", .workDELETE),
    (lit "doTruncate=", .workTRUNCATECONFIRM),
    (lit "doTruncateYes=", .workTRUNCATE),
    (lit "doCount=", .workCOUNTSTATS),
    (lit "doTraceStart=", .workTraceStart),
    (lit "doTraceEnd=", .workTraceEnd)]

/-- The test in front of everything that has parameters. Builds without checksums refuse all of
it. -/
def authVerdict (haveChecksum : Bool) (adminauthB64 : Bytes) (auth : Option Bytes) :
    Option MaintWorkType :=
  match checkAdminAuth adminauthB64 auth with
  | 0 => if haveChecksum then none else some .workAUTHREJECT
  | 1 => some .workAUTHREQUEST
  | _ => some .workAUTHREJECT

/-- What is behind the name of the page decides about the work. -/
def workFor (cfg : ServeCfg) (haveChecksum : Bool) (adminauthB64 : Bytes) (auth : Option Bytes)
    (word params : Bytes) : MaintWorkType :=
  if word == lit "style.css" then .workSTYLESHEET
  else if word != cfg.reportpage then .workNotSpecial
  else if params.isEmpty then .workMAINTREPORT
  else
    match authVerdict haveChecksum adminauthB64 auth with
    | some refusal => refusal
    | none =>
      let hit := needles.find? (fun needle => (find needle.1 params).isSome)
      hit.elim .workMAINTREPORT Prod.snd

/-- `tSpecialRequest::DispatchMaintWork`; `none` is the exception of `compare` for a command that
has nothing but slashes. -/
def dispatchMaintWork (cfg : ServeCfg) (haveChecksum : Bool) (adminauthB64 cmdRaw : Bytes)
    (auth : Option Bytes) : Option MaintWorkType := do
  let cmd := expandEncapsulatedCmd cfg cmdRaw
  let epos := (find [63] cmd).getD cmd.length
  let spos ← cmd.findIdx? (· != 47)
  let word := (cmd.drop spos).take (epos - spos)
  some (workFor cfg haveChecksum adminauthB64 auth word (cmd.drop epos))

end Acng
