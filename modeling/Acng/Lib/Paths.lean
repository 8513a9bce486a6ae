import Mathlib.Data.List.Basic
import Mathlib.Data.List.Infix

namespace Acng.Lib

/-- Runs of one symbol are cut down to a single one. -/
def squeeze [BEq α] (a : α) : List α → List α
  | [] => []
  | x :: s => if x == a && s.head? == some a then squeeze a s else x :: squeeze a s

/-- Two texts have the same components but for empty ones in the middle. -/
def SameParts [BEq α] (a : α) (s t : List α) : Prop :=
  ∃ first more more', s.splitOn a = first :: more ∧ t.splitOn a = first :: more' ∧
    more'.getLast? = more.getLast? ∧ ∀ w, w ≠ [] → (w ∈ more' ↔ w ∈ more)

theorem SameParts.mem [BEq α] {a : α} {s t w : List α} (h : SameParts a s t) (hw : w ≠ []) :
    w ∈ t.splitOn a ↔ w ∈ s.splitOn a := by
  obtain ⟨first, more, more', hs, ht, -, hmem⟩ := h
  rw [hs, ht, List.mem_cons, List.mem_cons, hmem w hw]

theorem SameParts.last [BEq α] {a : α} {s t : List α} (h : SameParts a s t) :
    (t.splitOn a).getLast? = (s.splitOn a).getLast? := by
  obtain ⟨first, more, more', hs, ht, hlast, -⟩ := h
  rw [hs, ht, List.getLast?_cons, List.getLast?_cons, hlast]

/-- A component is followed by a separator or ends the text. -/
theorem mem_splitOn [BEq α] [LawfulBEq α] {a : α} (s w : List α) (h : w ∈ s.splitOn a) :
    ∃ b c, s = b ++ w ++ c ∧ (c = [] ∨ c.head? = some a) := by
  by_cases ha : a ∈ s
  · obtain ⟨b, t, hs, hb⟩ := List.eq_append_cons_of_mem ha
    have hlen : t.length < s.length := by
      rw [hs, List.length_append, List.length_cons]
      omega
    rw [hs, List.splitOn_append_cons_self_of_not_mem hb, List.mem_cons] at h
    rcases h with rfl | h
    · exact ⟨[], a :: t, by simp [hs], .inr rfl⟩
    · obtain ⟨b', c, ht, hc⟩ := mem_splitOn t w h
      exact ⟨b ++ a :: b', c, by simp [hs, ht], hc⟩
  · rw [List.splitOn_eq_singleton ha, List.mem_singleton] at h
    exact ⟨[], [], by simp [h], .inl rfl⟩
termination_by s.length

theorem eq_append_cons_last {a : α} {s : List α} (h : a ∈ s) :
    ∃ b t, s = b ++ a :: t ∧ a ∉ t := by
  obtain ⟨t, b, hs, ht⟩ := List.eq_append_cons_of_mem (List.mem_reverse.mpr h)
  refine ⟨b.reverse, t.reverse, ?_, fun hm => ht (List.mem_reverse.mp hm)⟩
  rw [← List.reverse_reverse s, hs]
  simp

end Acng.Lib
