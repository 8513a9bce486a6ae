import Acng.FileGroups
import Acng.PackagesIndex

namespace Acng
open Lib

def maxCsLen : Nat := 64

/-- `tFingerprint` with all bytes of its array, of which the type tells how many count. -/
@[ext]
structure FprObject where
  size : Int := 0
  csType : CsType := .invalid
  csum : Bytes
  whole : csum.length = maxCsLen
deriving DecidableEq

/-- The type that `SetCs` goes on with. `GuessCStype` takes an unsigned short. -/
def triedCsType (hexString : Bytes) (eCstype : CsType) : Option CsType :=
  let l := hexString.length
  if l = 0 ∨ l % 2 = 1 then none
  else if eCstype = .invalid then
    let guessed := CsType.guess (l / 2 % 2 ^ 16)
    if guessed = .invalid then none else some guessed
  else if l ≠ 2 * eCstype.len then none
  else some eCstype

namespace FprObject

variable (self other : FprObject)

/-- The bytes that count. -/
def sum : Bytes := self.csum.take self.csType.len

def value : Fingerprint := ⟨self.size, self.csType, self.sum⟩

/-- Some bytes are written to the front of the array. -/
def write (bytes : Bytes) (hfits : bytes.length ≤ maxCsLen) : FprObject where
  size := self.size
  csType := self.csType
  csum := bytes ++ self.csum.drop bytes.length
  whole := by
    rw [List.length_append, List.length_drop, self.whole]
    omega

/-- What `CsAsciiToBin` writes for a type: bytes up to the first bad digit. -/
def csBytes (hexString : Bytes) (csType : CsType) : Bytes := csWritten (hexString.take (2 * csType.len))

theorem csWritten_le (s : Bytes) : 2 * (csWritten s).length ≤ s.length := by
  induction s using csWritten.induct with
  | case1 a b s x y hx hy ih => simp only [csWritten, hx, hy, List.length_cons]; omega
  | case2 a b s hno => rw [csWritten]; split <;> simp_all
  | case3 s hs => rw [csWritten.eq_2 s hs]; simp

theorem csBytes_le (hexString : Bytes) (csType : CsType) : (csBytes hexString csType).length ≤ csType.len := by
  have hle := csWritten_le (hexString.take (2 * csType.len))
  rw [List.length_take] at hle
  rw [csBytes]
  omega

theorem len_le (t : CsType) : t.len ≤ maxCsLen := by
  cases t <;> decide

/-- The type is set before the digits are looked at. -/
def stored (hexString : Bytes) (csType : CsType) : FprObject :=
  { self with csType : FprObject }.write (csBytes hexString csType)
    (Nat.le_trans (csBytes_le hexString csType) (len_le csType))

/-- `SetCs`. -/
def setCs (hexString : Bytes) (eCstype : CsType) : Bool × FprObject :=
  match triedCsType hexString eCstype with
  | none => (false, self)
  | some csType => ((csBytes hexString csType).length = csType.len, self.stored hexString csType)

/-- `Set` on the words of a splitter. -/
def set (words : List Bytes) (wantedType : CsType) : Bool × FprObject :=
  match words with
  | [] => (false, self)
  | hexString :: rest =>
    match self.setCs hexString wantedType with
    | (false, self) => (false, self)
    | (true, self) =>
      match rest with
      | [] => (false, self)
      | word :: _ =>
        let size := strtoll word
        (0 ≤ size, { self with size })

/-- `operator==`. -/
def eq : Bool :=
  if other.csType ≠ self.csType ∨ self.size ≠ other.size then false
  else self.csum.take self.csType.len == other.csum.take self.csType.len

/-- `operator<`. -/
def lt : Bool :=
  if other.csType ≠ self.csType then self.csType.ctorIdx < other.csType.ctorIdx
  else if self.size ≠ other.size then self.size < other.size
  else bytesLt (self.csum.take self.csType.len) (other.csum.take self.csType.len)

end FprObject

/-- `tContentKey` with such a fingerprint. -/
structure ContentKeyObject where
  distinctName : Bytes := []
  fpr : FprObject

namespace ContentKeyObject

def eq (a b : ContentKeyObject) : Bool := a.distinctName == b.distinctName && a.fpr.eq b.fpr

/-- `operator<`. -/
def lt (a b : ContentKeyObject) : Bool :=
  if a.fpr.eq b.fpr then bytesLt a.distinctName b.distinctName else a.fpr.lt b.fpr

def value (key : ContentKeyObject) : ContentKey := ⟨key.distinctName, key.fpr.value⟩

end ContentKeyObject

end Acng
