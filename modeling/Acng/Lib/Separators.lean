import Acng.Lib.Bytes
import Mathlib.Data.List.Basic

namespace Acng.Lib

section MaximalRuns

variable {α : Type u} {p : α → Bool}

/-- The longest runs of symbols that are no separators. Behind a run there is nothing, or a separator. -/
inductive MaximalRuns (p : α → Bool) : List α → List (List α) → Prop
  | gap {gap : List α} (hgap : ∀ c ∈ gap, p c = true) : MaximalRuns p gap []
  | run {gap run rest : List α} {l : List (List α)} (hgap : ∀ c ∈ gap, p c = true) (hne : run ≠ [])
      (hrun : ∀ c ∈ run, p c = false) (hend : rest.head?.all p = true) (hrest : MaximalRuns p rest l) :
      MaximalRuns p (gap ++ run ++ rest) (run :: l)

theorem filter_splitOnP_gap {gap : List α} (hgap : ∀ c ∈ gap, p c = true) (s : List α) :
    ((gap ++ s).splitOnP p).filter (fun run => !run.isEmpty) = (s.splitOnP p).filter (fun run => !run.isEmpty) := by
  induction gap with
  | nil => rfl
  | cons c gap ih =>
    rw [List.cons_append, List.splitOnP_cons_eq_if_modifyHead, if_pos (hgap c List.mem_cons_self)]
    exact ih (fun c hc => hgap c (List.mem_cons_of_mem _ hc))

/-- They are what lies between the separators and is not empty. -/
theorem MaximalRuns.eq_splitOnP {s : List α} {l : List (List α)} (h : MaximalRuns p s l) :
    l = (s.splitOnP p).filter (fun run => !run.isEmpty) := by
  induction h with
  | @gap gap hgap =>
    have hall := filter_splitOnP_gap hgap []
    rw [List.append_nil] at hall
    exact hall.symm
  | @run gap run rest l hgap hne hrun hend hrest ih =>
    rw [List.append_assoc, filter_splitOnP_gap hgap]
    cases rest with
    | nil =>
      rw [List.append_nil, List.splitOnP_eq_singleton hrun]
      simp [hne, ih]
    | cons c rest =>
      have hc : p c = true := by simpa using hend
      rw [List.splitOnP_append_cons_of_forall_mem hrun c hc, ih, List.splitOnP_cons_eq_if_modifyHead, if_pos hc]
      simp [hne]

end MaximalRuns

section Split

variable {c : UInt8}

theorem idxOf?_sep {a : Bytes} (b : Bytes) (h : c ∉ a) : (a ++ c :: b).idxOf? c = some a.length := by
  induction a with
  | nil => simp [List.idxOf?_cons]
  | cons d a ih =>
    have hd : (d == c) = false := by
      rw [beq_eq_false_iff_ne]
      rintro rfl
      exact h List.mem_cons_self
    rw [List.cons_append, List.idxOf?_cons, hd, ih (fun hmem => h (List.mem_cons_of_mem d hmem))]
    rfl

theorem idxOf?_cases (c : UInt8) (y : Bytes) :
    (c ∉ y ∧ y.idxOf? c = none) ∨ ∃ a b, y = a ++ c :: b ∧ c ∉ a ∧ y.idxOf? c = some a.length := by
  by_cases hmem : c ∈ y
  · obtain ⟨a, b, rfl, hnot⟩ := List.eq_append_cons_of_mem hmem
    exact .inr ⟨a, b, rfl, hnot, idxOf?_sep b hnot⟩
  · exact .inl ⟨hmem, List.idxOf?_eq_none_iff.mpr hmem⟩

/-- Line by line: a text without the separator, or a line in front of a text. -/
@[elab_as_elim]
theorem line_induction (c : UInt8) {motive : Bytes → Prop} (rest : ∀ s, c ∉ s → motive s)
    (line : ∀ a b, c ∉ a → motive b → motive (a ++ c :: b)) (s : Bytes) : motive s := by
  induction hn : s.length using Nat.strong_induction_on generalizing s with
  | _ n ih =>
    subst hn
    by_cases hmem : c ∈ s
    · obtain ⟨a, b, rfl, hnot⟩ := List.eq_append_cons_of_mem hmem
      exact line a b hnot (ih b.length (by rw [List.length_append, List.length_cons]; omega) b rfl)
    · exact rest s hmem

theorem takeWhile_sep {a : Bytes} (b : Bytes) (h : c ∉ a) : (a ++ c :: b).takeWhile (· != c) = a := by
  rw [List.takeWhile_append_of_pos (fun d hd => by simpa using fun heq : d = c => h (heq ▸ hd))]
  simp

theorem dropWhile_sep {a : Bytes} (b : Bytes) (h : c ∉ a) : (a ++ c :: b).dropWhile (· != c) = c :: b := by
  rw [List.dropWhile_append_of_pos (fun d hd => by simpa using fun heq : d = c => h (heq ▸ hd))]
  simp

theorem dropWhile_none {a : Bytes} (h : c ∉ a) : a.dropWhile (· != c) = [] := by
  rw [List.dropWhile_eq_nil_iff]
  intro d hd
  simpa using fun heq : d = c => h (heq ▸ hd)

end Split

end Acng.Lib
