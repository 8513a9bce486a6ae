import Mathlib.Tactic.Common

namespace Acng.Lib

variable {α : Type}

/-- A scan that starts over each time it has changed something, with so many scans at most. -/
def restart (scan : α → Option α) : Nat → α → Option α
  | 0, _ => none
  | scans + 1, s =>
    match scan s with
    | none => some s
    | some s' => restart scan scans s'

/-- If each change keeps the invariant and makes something smaller, the scans come to an end in which nothing is to
be changed. -/
theorem restart_ends {scan : α → Option α} {P : α → Prop} {size : α → Nat}
    (hscan : ∀ s s', P s → scan s = some s' → P s' ∧ size s' < size s) {scans : Nat} {s : α}
    (hsize : size s < scans) (hs : P s) : ∃ r, restart scan scans s = some r ∧ P r ∧ scan r = none := by
  induction scans generalizing s with
  | zero => omega
  | succ scans ih =>
    rw [restart]
    cases hnext : scan s with
    | none => exact ⟨s, rfl, hs, hnext⟩
    | some s' =>
      obtain ⟨hs', hless⟩ := hscan s s' hs hnext
      exact ih (by omega) hs'

end Acng.Lib
