import Acng.Lib.Chunks
import Acng.Lib.Scan

namespace Acng
open Lib

def lineEnd (c : UInt8) : Bool := c == 13 || c == 10

/-- What `filereader::GetOneLine` returns on a plain file until it fails. Two line ends of different
kinds are one, and there is an empty line behind the last byte. -/
def fileLines : Bytes → List Bytes
  | [] => [[]]
  | [c] => if lineEnd c then [[], []] else [[c], []]
  | c :: d :: t =>
    if !lineEnd c then consHead c (fileLines (d :: t))
    else if lineEnd d && c != d then [] :: fileLines t
    else [] :: fileLines (d :: t)

/-- The slices of `tSplitWalk`, and the tokens of `Tokenize`: what lies between separators and is
not empty. -/
def splitWalk (isSep : UInt8 → Bool) (s : Bytes) : List Bytes :=
  (s.splitOnP isSep).filter (fun slice => !slice.isEmpty)

/-- `strtoull` in base ten: the number and what is left behind it. Without digits the whole string is
left. -/
def strtoull (s : Bytes) : Nat × Bytes :=
  let (neg, r) := sign ((cstr s).dropWhile isspace)
  let digits := r.takeWhile isdigit
  if digits.isEmpty then (0, cstr s)
  else
    let v := decimal digits
    let v := if 2 ^ 64 ≤ v then 2 ^ 64 - 1 else if neg then (2 ^ 64 - v) % 2 ^ 64 else v
    (v, r.dropWhile isdigit)

/-- Digits up to a byte that ends them: the number, or the largest one there is, and what is behind
it. -/
theorem strtoull_digits {ds x : Bytes} (hne : ds ≠ []) (hds : ∀ d ∈ ds, isdigit d = true)
    (hx : x.head?.any isdigit = false) :
    strtoull (ds ++ x) = (min (decimal ds) (2 ^ 64 - 1), cstr x) := by
  have hfull : ds.isEmpty = false := by simpa using hne
  unfold strtoull
  rw [sign_digits hne hds]
  simp only [takeWhile_digits hds (cstr_head_digit hx), dropWhile_digits hds (cstr_head_digit hx),
    hfull, Bool.false_eq_true, if_false, Prod.mk.injEq, and_true]
  split <;> omega

/-- A line is read back as it was written if it has no line end itself. -/
theorem fileLines_line (line rest : Bytes) (h : ∀ c ∈ line, lineEnd c = false)
    (hrest : rest.head?.all (· != 13) = true) :
    fileLines (line ++ 10 :: rest) = line :: fileLines rest := by
  induction line with
  | nil =>
    cases rest with
    | nil => rfl
    | cons d t =>
      have hd : d ≠ 13 := by simpa using hrest
      have hpair : (lineEnd d && (10 : UInt8) != d) = false := by
        by_cases h10 : d = 10
        · simp [h10]
        · simp [lineEnd, hd, h10]
      rw [List.nil_append, fileLines, hpair]
      rfl
  | cons c line ih =>
    obtain ⟨hc, hline⟩ := List.forall_mem_cons.mp h
    cases hrest' : line ++ 10 :: rest with
    | nil => simp at hrest'
    | cons d t =>
      rw [List.cons_append, hrest', fileLines, hc, ← hrest', ih hline]
      rfl

end Acng
