import Acng.Lib.Bytes

namespace Acng.Lib

def hexVal (c : UInt8) : Option Nat :=
  if 48 ≤ c && c ≤ 57 then some (c.toNat - 48)
  else if 65 ≤ c && c ≤ 70 then some (c.toNat - 55)
  else if 97 ≤ c && c ≤ 102 then some (c.toNat - 87)
  else none

def isxdigit (c : UInt8) : Bool := (hexVal c).isSome

def decimal (ds : Bytes) : Nat := ds.foldl (fun n d => 10 * n + (d.toNat - 48)) 0

def hexadecimal (ds : Bytes) : Nat := ds.foldl (fun n d => 16 * n + (hexVal d).getD 0) 0

/-- An optional sign in front of a number. -/
def sign : Bytes → Bool × Bytes
  | [] => (false, [])
  | c :: s => if c == 45 then (true, s) else if c == 43 then (false, s) else (false, c :: s)

/-- `strtol`, `strtoll` and `atoll` in base ten with 64-bit results: leading
white space, a sign, digits, and saturation at both ends. -/
def strtoll (s : Bytes) : Int :=
  let (neg, r) := sign ((cstr s).dropWhile isspace)
  let v : Int := decimal (r.takeWhile isdigit)
  max (-2 ^ 63) (min (2 ^ 63 - 1) (if neg then -v else v))

/-- Conversion of a wide signed value to a 32-bit `int`. -/
def toInt32 (v : Int) : Int := (v + 2 ^ 31) % 2 ^ 32 - 2 ^ 31

/-- The digits `sscanf` collects for `%x`, after a sign: a `0x` counts as one
zero digit even when no digit follows it. -/
def hexDigits (r : Bytes) : Bytes :=
  match r with
  | [] => []
  | z :: t =>
    if z == 48 && (t.head? == some 120 || t.head? == some 88) then
      z :: t.tail.takeWhile isxdigit
    else (z :: t).takeWhile isxdigit

/-- `sscanf(s, "%x", &u)` with a 32-bit `u`. The digits are read as an unsigned
long, which saturates, and are then cut down to 32 bits. -/
def scanHex (s : Bytes) : Option Nat :=
  let (neg, r) := sign ((cstr s).dropWhile isspace)
  let ds := hexDigits r
  if ds.isEmpty then none
  else
    let v := hexadecimal ds
    if 2 ^ 64 ≤ v then some (2 ^ 32 - 1)
    else some ((if neg then 2 ^ 64 - v else v) % 2 ^ 32)

/-- Decimal digits of a natural number. -/
def decDigits (n : Nat) : Bytes := (Nat.toDigits 10 n).map (fun c => UInt8.ofNat c.toNat)

end Acng.Lib
