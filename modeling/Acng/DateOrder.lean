import Acng.SendData

namespace Acng
open Lib

/-- What the C library does with dates, of which `τ` are the broken-down ones. `strptime` also tells how much it has
read. -/
structure CTime (τ : Type) where
  strptime : Bytes → Bytes → Option (Nat × τ)
  mktime : τ → Int
  strftime : Bytes → τ → Bytes

/-- The first of `fmts`. -/
def normFmt : Bytes := lit "%a, %d %b %Y %H:%M:%S GMT"

def fmts : List Bytes := [normFmt, lit "%A, %d-%b-%y %H:%M:%S GMT", lit "%a %b %d %H:%M:%S %Y"]

namespace CTime

variable {τ : Type} (c : CTime τ)

/-- `ParseDate` to a broken-down time. -/
def parseTm (s : Bytes) : Option τ :=
  fmts.findSome? fun fmt =>
    match c.strptime s fmt with
    | some (pEnd, tm) => if 23 < pEnd then some tm else none
    | none => none

/-- `FormatTime` to a buffer of 30 bytes. -/
def formatTime (src : τ) : Bytes :=
  if (c.strftime normFmt src).length < 30 ∧ 10 ≤ (c.strftime normFmt src).length then c.strftime normFmt src else []

def dateLib : DateLib where
  parseDate s := (c.parseTm s).map c.mktime
  formatNorm s := ((c.parseTm s).map c.formatTime).getD []

end CTime

namespace HttpDate

variable (lib : DateLib) (a b : HttpDate)

/-- `operator<`. -/
def lt : Bool := b.ge lib a

/-- `operator<=`. -/
def le : Bool := a.value lib (-1) ≤ b.value lib (-2)

/-- `operator>`. -/
def gt : Bool := b.le lib a

end HttpDate

end Acng
