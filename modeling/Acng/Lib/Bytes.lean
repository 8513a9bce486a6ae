import Mathlib.Data.List.DropRight
import Mathlib.Tactic.Linarith

namespace Acng.Lib

/-- Byte strings, the contents of a `std::string`, a `string_view` or a buffer. -/
abbrev Bytes := List UInt8

def lit (s : String) : Bytes := s.toList.map (fun c => UInt8.ofNat c.toNat)

/-- The C locale's white space, which is also the default junk set of the trimmers. -/
def isspace (c : UInt8) : Bool :=
  c == 32 || c == 12 || c == 10 || c == 13 || c == 9 || c == 11

def isdigit (c : UInt8) : Bool := 48 ≤ c && c ≤ 57

def isalpha (c : UInt8) : Bool := (65 ≤ c && c ≤ 90) || (97 ≤ c && c ≤ 122)

def isalnum (c : UInt8) : Bool := isdigit c || isalpha c

def tolower (c : UInt8) : UInt8 := if 65 ≤ c && c ≤ 90 then c + 32 else c

/-- Equality up to letter case, as `strcasecmp` on whole strings decides it. -/
def caseEq (a b : Bytes) : Bool := a.map tolower == b.map tolower

/-- `strncasecmp(a, b, n) == 0` on C strings: both are compared up to `n` bytes. -/
def caseEqN (n : Nat) (a b : Bytes) : Bool := caseEq (a.take n) (b.take n)

/-- The C string that starts a byte string: everything before the first NUL. -/
def cstr (b : Bytes) : Bytes := b.takeWhile (· != 0)

def trimFront (b : Bytes) : Bytes := b.dropWhile isspace

def trimBack (b : Bytes) : Bytes := b.rdropWhile isspace

def trimBoth (b : Bytes) : Bytes := trimFront (trimBack b)

/-- Index of the first occurrence of `pat`. -/
def find (pat : List α) [BEq α] : List α → Option Nat
  | [] => if pat.isEmpty then some 0 else none
  | c :: s => if pat.isPrefixOf (c :: s) then some 0 else (find pat s).map (· + 1)

/-- Index of the last occurrence of one symbol. -/
def rfind [BEq α] (c : α) (s : List α) : Option Nat :=
  (s.reverse.idxOf? c).map (fun i => s.length - 1 - i)

def consHead (c : α) : List (List α) → List (List α)
  | [] => [[c]]
  | l :: ls => (c :: l) :: ls

/-- Left-to-right splitting at a non-empty separator. The counter skips the
rest of a separator that has been recognised. -/
def slices [BEq α] (sep : List α) : Nat → List α → List (List α)
  | _, [] => [[]]
  | k + 1, _ :: s => slices sep k s
  | 0, c :: s =>
    if sep.isPrefixOf (c :: s) then [] :: slices sep (sep.length - 1) s
    else consHead c (slices sep 0 s)

def crlf : Bytes := [13, 10]

theorem slices_ne_nil [BEq α] (sep : List α) (k : Nat) (s : List α) : slices sep k s ≠ [] := by
  induction s generalizing k with
  | nil => simp [slices]
  | cons c s ih =>
    cases k with
    | succ k => exact ih k
    | zero =>
      unfold slices
      split
      · simp
      · cases h : slices sep 0 s <;> simp [consHead]

end Acng.Lib
