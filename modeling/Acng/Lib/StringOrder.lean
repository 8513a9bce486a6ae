import Acng.Lib.Bytes
import Mathlib.Data.List.Lex
import Mathlib.Order.RelClasses

namespace Acng.Lib

section BoolOrder

variable {β : Type u} {lt : β → β → Bool} [IsStrictTotalOrder β (fun a b => lt a b = true)]

theorem order_irrefl (a : β) : lt a a = false := by
  rw [← Bool.not_eq_true]
  exact irrefl_of (fun a b => lt a b = true) a

theorem order_trans {a b c : β} (hab : lt a b = true) (hbc : lt b c = true) : lt a c = true :=
  trans_of (fun a b => lt a b = true) hab hbc

theorem order_asymm {a b : β} (h : lt a b = true) : lt b a = false := by
  rw [← Bool.not_eq_true]
  exact asymm_of (fun a b => lt a b = true) h

theorem order_of_not {a b : β} (hne : a ≠ b) (h : lt b a = false) : lt a b = true := by
  obtain h' | h' | h' := trichotomous_of (fun a b => lt a b = true) a b
  · exact h'
  · exact absurd h' hne
  · rw [h] at h'
    exact absurd h' Bool.false_ne_true

theorem order_not_trans (a b c : β) (hab : (!lt b a) = true) (hbc : (!lt c b) = true) :
    (!lt c a) = true := by
  rw [Bool.not_eq_true'] at hab hbc ⊢
  by_cases h1 : a = b
  · exact h1 ▸ hbc
  · by_cases h2 : b = c
    · exact h2 ▸ hab
    · exact order_asymm (order_trans (order_of_not h1 hab) (order_of_not h2 hbc))

theorem order_not_total (a b : β) : (!lt b a || !lt a b) = true := by
  cases hab : lt b a with
  | false => rfl
  | true => simp [order_asymm hab]

end BoolOrder

/-- `operator<` of `std::string`. -/
def bytesLt (a b : Bytes) : Bool := a.map UInt8.toNat < b.map UInt8.toNat

theorem map_toNat_inj {a b : Bytes} (h : a.map UInt8.toNat = b.map UInt8.toNat) : a = b :=
  List.map_injective_iff.mpr (fun _ _ => UInt8.toNat_inj.mp) h

instance : IsStrictTotalOrder Bytes (fun a b => bytesLt a b = true) where
  trichotomous a b hab hba := by
    simp only [bytesLt, decide_eq_true_eq] at hab hba
    exact map_toNat_inj (le_antisymm (not_lt.mp hba) (not_lt.mp hab))
  irrefl a h := lt_irrefl _ (of_decide_eq_true h)
  trans a b c hab hbc := decide_eq_true (lt_trans (of_decide_eq_true hab) (of_decide_eq_true hbc))

instance : Std.Total (fun a b => bytesLt b a = false) where
  total a b := by simpa using @order_not_total Bytes bytesLt _ a b

instance : IsTrans Bytes (fun a b => bytesLt b a = false) where
  trans a b c hab hbc := by simpa using @order_not_trans Bytes bytesLt _ a b c (by simpa) (by simpa)

end Acng.Lib
