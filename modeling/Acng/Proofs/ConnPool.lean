import Acng.ConnPool

namespace Acng
open Lib

namespace SpareCon

/-- The loop cleans the first entries and leaves the others as they are. -/
theorem eraseReadable_eq (rfds : Finset Nat) (r : Nat) (spareConPool : List SpareCon) :
    eraseReadable rfds r spareConPool =
      (spareConPool.take r).filter (fun con => con.fd ∉ rfds) ++ spareConPool.drop r := by
  induction spareConPool generalizing r with
  | nil => cases r <;> simp [eraseReadable]
  | cons con spareConPool ih =>
    cases r with
    | zero => simp [eraseReadable]
    | succ r =>
      unfold eraseReadable
      rw [ih r, List.take_succ_cons, List.drop_succ_cons, List.filter_cons]
      by_cases hfd : con.fd ∈ rfds <;> simp [hfd]

/-- What the cleanup should leave: the entries that have not expired and cannot be read. -/
def healthy (now : Int) (select : Option (Finset Nat)) (spareConPool : List SpareCon) :
    List SpareCon :=
  spareConPool.filter (fun con => !con.expired now && decide (con.fd ∉ select.getD ∅))

theorem filter_eq_append_iff {α : Type} (p : α → Bool) (r : Nat) (l : List α) :
    (l.take r).filter p ++ l.drop r = l.filter p ↔ ∀ a ∈ l.drop r, p a = true := by
  conv_lhs => rhs; rw [← List.take_append_drop r l, List.filter_append]
  rw [List.append_cancel_left_eq, eq_comm, List.filter_eq_self]

/-- The cleanup is complete, and takes nothing else, in exactly the pools where no connection that
can be read is behind as many others that have not expired as there are readable descriptors. -/
theorem backgroundCleanup_healthy_iff (now later : Int) (select : Option (Finset Nat))
    (spareConPool : List SpareCon) :
    (backgroundCleanup now later select spareConPool).1 = healthy now select spareConPool ↔
      ∀ con ∈ (spareConPool.filter (fun con => !con.expired now)).drop (select.getD ∅).card,
        con.fd ∉ select.getD ∅ := by
  have hsplit : healthy now select spareConPool =
      (spareConPool.filter (fun con => !con.expired now)).filter
        (fun con => decide (con.fd ∉ select.getD ∅)) := by
    rw [List.filter_filter]
    exact List.filter_congr (fun con _ => Bool.and_comm _ _)
  rw [hsplit]
  cases select with
  | none => simp [backgroundCleanup]
  | some rfds =>
    unfold backgroundCleanup
    simp only [Option.getD_some, eraseReadable_eq, filter_eq_append_iff, decide_eq_true_eq]

/-- Of two fresh connections the second one was closed by its server, and stays. -/
theorem backgroundCleanup_keeps_closed :
    ¬(backgroundCleanup 100 100 (some {8})
        [⟨(lit "a", 80, false), 7, 90⟩, ⟨(lit "b", 80, false), 8, 90⟩]).1 =
      healthy 100 (some {8}) [⟨(lit "a", 80, false), 7, 90⟩, ⟨(lit "b", 80, false), 8, 90⟩] := by
  decide

end SpareCon

end Acng
