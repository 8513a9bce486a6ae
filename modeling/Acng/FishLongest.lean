import Acng.Lib.Mapped

namespace Acng
open Lib

/-- The arguments of `fish_longest_match`, with what lies behind the string. -/
structure Fishing where
  stringToScan : Mapped
  sep : UInt8
  check_ex : Bytes → Bool

namespace Fishing

variable (f : Fishing)

def length : Nat := f.stringToScan.text.length

/-- `find_last_not_of(sep) + 1`, which is zero if there is nothing else. -/
def trimmed : Nat := (f.stringToScan.text.rdropWhile (· == f.sep)).length

/-- The string that is offered for a position. -/
def offered (m : Nat) : Bytes := f.stringToScan.text.take m

/-- `while (stringToScan[m] != sep && m != R)`, with what is left up to `R`. -/
def moveRight (m : Nat) : Nat → Nat
  | 0 => m
  | left + 1 => if f.stringToScan.get m = f.sep then m else moveRight (m + 1) left

/-- `while (true_m > L && stringToScan[true_m] != sep)`. -/
def moveLeft (L : Nat) : Nat → Nat
  | 0 => 0
  | true_m + 1 => if L < true_m + 1 ∧ f.stringToScan.get (true_m + 1) ≠ f.sep then moveLeft L true_m else true_m + 1

/-- The position that is tried between two others. -/
def probe (L R : Nat) : Nat := f.moveRight ((L + R) / 2) (R - (L + R) / 2)

def narrow (L R : Nat) : Nat × Nat :=
  if f.check_ex (f.offered (f.probe L R)) then (f.probe L R, R) else (L, f.moveLeft L ((L + R) / 2))

/-- What was offered, and the end of what was read. -/
structure Seen where
  checked : List Bytes := []
  reach : Nat := 0

/-- The loop, for so many rounds at most. Each reads on from the middle, also at the last position. -/
def run : Nat → Nat → Nat → Seen → Option Seen
  | 0, _, _, _ => none
  | rounds + 1, L, R, seen =>
    if L < R then
      run rounds (f.narrow L R).1 (f.narrow L R).2
        ⟨seen.checked ++ [f.offered (f.probe L R)], max seen.reach (f.probe L R + 1)⟩
    else some seen

def fish_longest_match (rounds : Nat) : Option Seen :=
  if f.stringToScan.text.isEmpty then some ⟨[f.stringToScan.text], 0⟩ else f.run rounds 0 f.trimmed {}

end Fishing

end Acng
