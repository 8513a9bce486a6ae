import Mathlib.Data.List.Chain
import Mathlib.Logic.Function.Iterate

namespace Acng.Lib

variable {α β : Type} {body : (α → β) → α → β}

/-- What the body keeps holds of a function that goes through it some times. -/
theorem iterate_keep {p : (α → β) → Prop} {f : α → β} (start : p f)
    (next : ∀ g, p g → p (body g)) (n : Nat) : p (body^[n] f) := by
  induction n with
  | zero => exact start
  | succ n ih =>
    rw [Function.iterate_succ_apply']
    exact next _ ih

/-- A body that only calls itself for something of smaller depth does not see what it is started
with once the depth is used up. -/
theorem iterate_agree (depth : α → Nat)
    (calls : ∀ f g a, (∀ b, depth b < depth a → f b = g b) → body f a = body g a) (f g : α → β)
    {n : Nat} {a : α} (h : depth a < n) : body^[n] f a = body^[n] g a := by
  induction n generalizing a with
  | zero => omega
  | succ n ih =>
    rw [Function.iterate_succ_apply', Function.iterate_succ_apply']
    exact calls _ _ a (fun b hb => ih (by omega))

/-- So it is a function that calls itself. -/
theorem iterate_fixed (depth : α → Nat)
    (calls : ∀ f g a, (∀ b, depth b < depth a → f b = g b) → body f a = body g a) (f : α → β)
    {n : Nat} (h : ∀ a, depth a < n) : body (body^[n] f) = body^[n] f := by
  funext a
  rw [← Function.iterate_succ_apply' body, Function.iterate_succ_apply]
  exact iterate_agree depth calls (body f) f (h a)

/-- A chain of calls is not longer than the depth of the first one. -/
theorem chain_length_le (depth : α → Nat) {r : α → α → Prop} (hr : ∀ a b, r a b → depth b < depth a)
    {a : α} {l : List α} (h : (a :: l).IsChain r) : l.length ≤ depth a := by
  induction l generalizing a with
  | nil => exact Nat.zero_le _
  | cons b l ih =>
    obtain ⟨hab, hl⟩ := List.isChain_cons_cons.mp h
    have hlen := ih hl
    have hlt := hr a b hab
    rw [List.length_cons]
    omega

end Acng.Lib
