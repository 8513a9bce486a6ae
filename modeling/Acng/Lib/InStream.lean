import Acng.Lib.Scan

namespace Acng.Lib

/-- A `std::istream` on a text: what is left of it, and two of the state bits. -/
structure InStream where
  rest : Bytes
  eof : Bool := false
  fail : Bool := false
deriving DecidableEq, Repr

namespace InStream

def good (s : InStream) : Bool := !s.eof && !s.fail

/-- `std::getline`. The string has `old` in it. -/
def getline (s : InStream) (old : Bytes) : InStream × Bytes :=
  if !s.good then ({ s with fail := true }, old)
  else
    let text := s.rest.takeWhile (· != 10)
    match s.rest.dropWhile (· != 10) with
    | [] => ({ rest := [], eof := true, fail := text.isEmpty }, text)
    | _ :: rest => ({ rest }, text)

/-- `operator>>` for a type with these bounds. The variable has `old` in it. -/
def readInt (lo hi : Int) (s : InStream) (old : Int) : InStream × Int :=
  if !s.good then ({ s with fail := true }, old)
  else
    let text := s.rest.dropWhile isspace
    if text.isEmpty then ({ rest := [], eof := true, fail := true }, old)
    else
      let (neg, text) := sign text
      let digits := text.takeWhile isdigit
      let rest := text.dropWhile isdigit
      let v : Int := if neg then -decimal digits else decimal digits
      ({ rest, eof := rest.isEmpty, fail := digits.isEmpty || v < lo || hi < v }, max lo (min hi v))

theorem sign_length (text : Bytes) : (sign text).2.length ≤ text.length := by
  cases text with
  | nil => exact le_rfl
  | cons c text =>
    simp only [sign]
    split
    · exact Nat.le_succ _
    · split
      · exact Nat.le_succ _
      · exact le_rfl

theorem getline_bad {s : InStream} (h : s.good = false) (old : Bytes) :
    s.getline old = ({ s with fail := true }, old) := by
  simp [getline, h]

theorem readInt_bad {s : InStream} (h : s.good = false) (lo hi old : Int) :
    readInt lo hi s old = ({ s with fail := true }, old) := by
  simp [readInt, h]

/-- A stream that is good has been good before, and a line was read. -/
theorem getline_good {s : InStream} {old : Bytes} (h : (s.getline old).1.good = true) :
    s.good = true ∧ (s.getline old).1.rest.length < s.rest.length := by
  cases hs : s.good with
  | false =>
    rw [getline_bad hs] at h
    simp [good] at h
  | true =>
    refine ⟨rfl, ?_⟩
    have hle := (s.rest.dropWhile_suffix (· != 10)).length_le
    unfold getline at h ⊢
    simp only [hs, Bool.not_true, Bool.false_eq_true, if_false] at h ⊢
    split at h
    · simp [good] at h
    · rename_i hdrop
      rw [hdrop] at hle
      exact hle

theorem readInt_good {s : InStream} {lo hi old : Int} (h : (readInt lo hi s old).1.good = true) :
    s.good = true ∧ (readInt lo hi s old).1.rest.length ≤ s.rest.length := by
  cases hs : s.good with
  | false =>
    rw [readInt_bad hs] at h
    simp [good] at h
  | true =>
    refine ⟨rfl, ?_⟩
    have hspace := (s.rest.dropWhile_suffix isspace).length_le
    have hsign := sign_length (s.rest.dropWhile isspace)
    have hdigits := ((sign (s.rest.dropWhile isspace)).2.dropWhile_suffix isdigit).length_le
    unfold readInt
    simp only [hs, Bool.not_true, Bool.false_eq_true, if_false]
    split
    · exact Nat.zero_le _
    · exact hdigits.trans (hsign.trans hspace)

/-- A line is read as it was written. -/
theorem getline_line {text : Bytes} (h : 10 ∉ text) (rest old : Bytes) :
    getline { rest := text ++ 10 :: rest } old = ({ rest }, text) := by
  have hne : ∀ c ∈ text, (c != 10) = true := by
    intro c hc
    rw [bne_iff_ne]
    rintro rfl
    exact h hc
  simp [getline, good, List.takeWhile_append_of_pos hne, List.dropWhile_append_of_pos hne]

/-- The last line has no end. -/
theorem getline_last {text : Bytes} (h : 10 ∉ text) (old : Bytes) :
    getline { rest := text } old = ({ rest := [], eof := true, fail := text.isEmpty }, text) := by
  have hne : ∀ c ∈ text, (c != 10) = true := by
    intro c hc
    rw [bne_iff_ne]
    rintro rfl
    exact h hc
  have htake : text.takeWhile (· != 10) = text := List.takeWhile_eq_self_iff.mpr hne
  have hdrop : text.dropWhile (· != 10) = [] := List.dropWhile_eq_nil_iff.mpr hne
  simp [getline, good, htake, hdrop]

/-- The sign of a number is in front of its digits. -/
theorem sign_number (neg : Bool) {digits : Bytes} (hne : digits ≠ []) (hdigits : ∀ d ∈ digits, isdigit d = true)
    (rest : Bytes) :
    let text := (if neg then [45] else []) ++ digits ++ rest
    text.dropWhile isspace = text ∧ sign text = (neg, digits ++ rest) := by
  cases neg with
  | true => exact ⟨rfl, rfl⟩
  | false =>
    obtain ⟨d, ds, rfl⟩ := List.exists_cons_of_ne_nil hne
    obtain ⟨hspace, hminus, hplus, -⟩ := isdigit_graph d (hdigits d List.mem_cons_self)
    simp [sign, hspace, hminus, hplus]

/-- A number is read to its end. -/
theorem readInt_number {neg : Bool} {digits : Bytes} {v lo hi : Int} (hne : digits ≠ [])
    (hdigits : ∀ d ∈ digits, isdigit d = true) (hv : v = if neg then -(decimal digits : Int) else decimal digits)
    (hlo : lo ≤ v) (hhi : v ≤ hi) {rest : Bytes} (hrest : rest.head?.any isdigit = false) (old : Int) :
    readInt lo hi { rest := (if neg then [45] else []) ++ digits ++ rest } old =
      ({ rest, eof := rest.isEmpty }, v) := by
  obtain ⟨hspace, hsign⟩ := sign_number neg hne hdigits rest
  have hsome : ((if neg then [45] else []) ++ digits ++ rest : Bytes).isEmpty = false := by
    simp [hne]
  have hempty : digits.isEmpty = false := by simpa using hne
  simp only [readInt, good, Bool.not_false, Bool.and_self, Bool.not_true, Bool.false_eq_true, if_false, hspace,
    hsome, hsign, takeWhile_digits hdigits hrest, dropWhile_digits hdigits hrest, hempty, Bool.false_or, ← hv]
  have hin : (decide (v < lo) || decide (hi < v)) = false := by
    rw [Bool.or_eq_false_iff, decide_eq_false_iff_not, decide_eq_false_iff_not]
    omega
  rw [hin, min_eq_right hhi, max_eq_right hlo]

/-- Behind a part of a number the stream is at its end. -/
theorem readInt_part {neg : Bool} {digits text : Bytes} (hdigits : ∀ d ∈ digits, isdigit d = true)
    (h : text <+: (if neg then [45] else []) ++ digits) (lo hi old : Int) :
    (readInt lo hi { rest := text } old).1.good = false := by
  have hnumber : ∀ text : Bytes, text.dropWhile isspace = text → text.isEmpty = false →
      (sign text).2.dropWhile isdigit = [] → (readInt lo hi { rest := text } old).1.good = false := by
    intro text hspace hne hrest
    simp [readInt, good, hspace, hne, hrest]
  cases htext : text with
  | nil => rfl
  | cons c text' =>
    subst htext
    cases neg with
    | true =>
      obtain ⟨rfl, hpart⟩ := List.cons_prefix_cons.mp h
      exact hnumber _ rfl rfl (List.dropWhile_eq_nil_iff.mpr (fun d hd => hdigits d (hpart.subset hd)))
    | false =>
      have hall : ∀ d ∈ c :: text', isdigit d = true := fun d hd => hdigits d (h.subset hd)
      obtain ⟨hspace, hsign⟩ := sign_number false (List.cons_ne_nil c text') hall []
      simp only [Bool.false_eq_true, if_false, List.nil_append, List.append_nil] at hspace hsign
      refine hnumber _ hspace rfl ?_
      rw [hsign]
      exact List.dropWhile_eq_nil_iff.mpr hall

end InStream

end Acng.Lib
