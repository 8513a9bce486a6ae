import Mathlib.Data.List.Perm.Basic
import Mathlib.Order.Lattice

namespace Acng.Lib

variable {α : Type u} {κ : Type v}

/-- What a sort by `less` may leave, stable or not: the same elements without an inversion. -/
structure SortedBy (less : α → α → Bool) (l order : List α) : Prop where
  perm : order.Perm l
  sorted : order.Pairwise (fun a b => less b a = false)

section Key

variable [LinearOrder κ] {less : α → α → Bool} {key : α → κ} {l order : List α}

/-- Who compares keys leaves them in their order. -/
theorem SortedBy.key_le (h : SortedBy less l order) (hless : ∀ a b, less a b = true ↔ key a < key b) :
    order.Pairwise (fun a b => key a ≤ key b) := by
  refine h.sorted.imp (fun {a b} hab => ?_)
  rw [← not_lt, ← hless b a, hab]
  exact Bool.false_ne_true

theorem sortedBy_mergeSort (hless : ∀ a b, less a b = true ↔ key a < key b) (l : List α) :
    SortedBy less l (l.mergeSort (fun a b => !less b a)) := by
  have hle (a b : α) : (!less b a) = true ↔ key a ≤ key b := by
    rw [Bool.not_eq_true', ← Bool.not_eq_true, hless b a, not_lt]
  refine ⟨List.mergeSort_perm l _, ?_⟩
  refine (List.pairwise_mergeSort ?_ ?_ l).imp (fun h => by simpa using h)
  · intro a b c hab hbc
    exact (hle a c).mpr (le_trans ((hle a b).mp hab) ((hle b c).mp hbc))
  · intro a b
    rw [Bool.or_eq_true, hle a b, hle b a]
    exact le_total (key a) (key b)

end Key

end Acng.Lib
