import Acng.FingerprintObject
import Acng.Lib.OrdMap

namespace Acng
open Lib

theorem ctorIdx_inj {a b : CsType} (h : a.ctorIdx = b.ctorIdx) : a = b := by
  cases a <;> cases b <;> first | rfl | cases h

/-- By type, then by size, then by checksum. -/
theorem Fingerprint.lt_iff (a b : Fingerprint) :
    a.lt b = true ↔ a.csType.ctorIdx < b.csType.ctorIdx ∨
      a.csType = b.csType ∧ (a.size < b.size ∨ a.size = b.size ∧ bytesLt a.csum b.csum = true) := by
  rw [Fingerprint.lt]
  by_cases htype : b.csType = a.csType
  · rw [if_neg (not_not.mpr htype), htype]
    by_cases hsize : a.size = b.size
    · rw [if_neg (not_not.mpr hsize), hsize]
      simp
    · rw [if_pos hsize, decide_eq_true_eq]
      simp [hsize]
  · rw [if_pos htype, decide_eq_true_eq]
    simp [Ne.symm htype]

instance : IsStrictTotalOrder Fingerprint (fun a b => a.lt b = true) where
  trichotomous a b hab hba := by
    rw [Fingerprint.lt_iff] at hab hba
    push Not at hab hba
    have htype : a.csType = b.csType := ctorIdx_inj (le_antisymm hba.1 hab.1)
    obtain ⟨hsize, hsum⟩ := hab.2 htype
    obtain ⟨hsize', hsum'⟩ := hba.2 htype.symm
    have hsame : a.size = b.size := le_antisymm hsize' hsize
    have heq : a.csum = b.csum := by
      by_contra hne
      refine hsum hsame (order_of_not hne ?_)
      rw [← Bool.not_eq_true]
      exact hsum' hsame.symm
    obtain ⟨size, csType, csum⟩ := a
    obtain ⟨size', csType', csum'⟩ := b
    simp only at htype hsame heq
    rw [htype, hsame, heq]
  irrefl a h := by
    rw [Fingerprint.lt_iff] at h
    obtain h | ⟨-, h | ⟨-, h⟩⟩ := h
    · exact lt_irrefl _ h
    · exact lt_irrefl _ h
    · exact Bool.false_ne_true ((order_irrefl a.csum).symm.trans h)
  trans a b c hab hbc := by
    rw [Fingerprint.lt_iff] at hab hbc ⊢
    obtain hab | ⟨htype, hab⟩ := hab
    · obtain hbc | ⟨htype', -⟩ := hbc
      · exact .inl (lt_trans hab hbc)
      · exact .inl (htype' ▸ hab)
    · obtain hbc | ⟨htype', hbc⟩ := hbc
      · exact .inl (htype ▸ hbc)
      · refine .inr ⟨htype.trans htype', ?_⟩
        obtain hab | ⟨hsize, hab⟩ := hab
        · obtain hbc | ⟨hsize', -⟩ := hbc
          · exact .inl (lt_trans hab hbc)
          · exact .inl (hsize' ▸ hab)
        · obtain hbc | ⟨hsize', hbc⟩ := hbc
          · exact .inl (hsize ▸ hbc)
          · exact .inr ⟨hsize.trans hsize', order_trans hab hbc⟩

/-- By fingerprint, then by name. -/
theorem ContentKey.lt_iff (a b : ContentKey) :
    a.lt b = true ↔ a.fpr.lt b.fpr = true ∨ a.fpr = b.fpr ∧ bytesLt a.distinctName b.distinctName = true := by
  rw [ContentKey.lt]
  by_cases hfpr : a.fpr = b.fpr
  · have hirr : b.fpr.lt b.fpr = false := order_irrefl b.fpr
    rw [if_pos hfpr, hfpr, hirr]
    simp
  · rw [if_neg hfpr]
    simp [hfpr]

instance : IsStrictTotalOrder ContentKey (fun a b => a.lt b = true) where
  trichotomous a b hab hba := by
    rw [ContentKey.lt_iff] at hab hba
    push Not at hab hba
    have hfpr : a.fpr = b.fpr := by
      by_contra hne
      exact hab.1 (order_of_not hne (Bool.not_eq_true _ ▸ hba.1))
    have hname : a.distinctName = b.distinctName := by
      by_contra hne
      exact hab.2 hfpr (order_of_not hne (Bool.not_eq_true _ ▸ hba.2 hfpr.symm))
    obtain ⟨name, fpr⟩ := a
    obtain ⟨name', fpr'⟩ := b
    simp only at hfpr hname
    rw [hfpr, hname]
  irrefl a h := by
    rw [ContentKey.lt_iff] at h
    obtain h | ⟨-, h⟩ := h
    · exact Bool.false_ne_true ((order_irrefl a.fpr).symm.trans h)
    · exact Bool.false_ne_true ((order_irrefl a.distinctName).symm.trans h)
  trans a b c hab hbc := by
    rw [ContentKey.lt_iff] at hab hbc ⊢
    obtain hab | ⟨hfpr, hab⟩ := hab
    · obtain hbc | ⟨hfpr', -⟩ := hbc
      · exact .inl (order_trans hab hbc)
      · exact .inl (hfpr' ▸ hab)
    · obtain hbc | ⟨hfpr', hbc⟩ := hbc
      · exact .inl (hfpr ▸ hbc)
      · exact .inr ⟨hfpr.trans hfpr', order_trans hab hbc⟩

theorem FprObject.eq_iff (a b : FprObject) : a.eq b = true ↔ a.value = b.value := by
  unfold FprObject.eq FprObject.value FprObject.sum
  by_cases htype : b.csType = a.csType
  · by_cases hsize : a.size = b.size
    · simp [htype, hsize]
    · simp [hsize]
  · simp [htype, Ne.symm htype]

theorem FprObject.lt_value (a b : FprObject) : a.lt b = a.value.lt b.value := by
  unfold FprObject.lt Fingerprint.lt FprObject.value FprObject.sum
  by_cases htype : b.csType = a.csType
  · rw [htype]
  · rw [if_pos htype, if_pos htype]

theorem ContentKeyObject.eq_iff (a b : ContentKeyObject) : a.eq b = true ↔ a.value = b.value := by
  rw [ContentKeyObject.eq, Bool.and_eq_true, beq_iff_eq, FprObject.eq_iff, value, value, ContentKey.mk.injEq]

theorem ContentKeyObject.lt_value (a b : ContentKeyObject) : a.lt b = a.value.lt b.value := by
  have heq : a.fpr.eq b.fpr = decide (a.fpr.value = b.fpr.value) := by
    rw [Bool.eq_iff_iff, FprObject.eq_iff, decide_eq_true_eq]
  unfold ContentKeyObject.lt ContentKey.lt ContentKeyObject.value
  simp [heq, FprObject.lt_value]

/-- What a `std::map` asks of the order of its keys, and what it then finds. -/
structure KeyLaws {κ : Type} (lt eq : κ → κ → Bool) : Prop where
  irrefl (a : κ) : lt a a = false
  trans (a b c : κ) : lt a b = true → lt b c = true → lt a c = true
  /-- One of the three holds, and the other two do not. -/
  one (a b : κ) : [lt a b, eq a b, lt b a].count true = 1
  found {ν : Type} (entries : List (κ × ν)) (key : κ) :
    OrdMap.find lt key (OrdMap.fill lt entries) =
      (entries.filter (fun e => eq e.1 key)).getLast?.map Prod.snd

/-- Objects are keys when their values are in a total order. -/
theorem keyed_of_value {κ : Type} {μ : Type} {lt eq : κ → κ → Bool} {ltv : μ → μ → Bool}
    [IsStrictTotalOrder μ (fun a b => ltv a b = true)] (value : κ → μ)
    (hlt : ∀ a b, lt a b = ltv (value a) (value b)) (heq : ∀ a b, eq a b = true ↔ value a = value b) :
    KeyLaws lt eq where
  irrefl a := (hlt a a).trans (order_irrefl _)
  trans a b c hab hbc := by
    rw [hlt] at hab hbc ⊢
    exact order_trans hab hbc
  one a b := by
    by_cases hvalue : value a = value b
    · have hab : lt a b = false := by rw [hlt, hvalue]; exact order_irrefl _
      have hba : lt b a = false := by rw [hlt, hvalue]; exact order_irrefl _
      rw [hab, hba, (heq a b).mpr hvalue]
      rfl
    · have hno : eq a b = false := Bool.not_eq_true _ ▸ mt (heq a b).mp hvalue
      rw [hno]
      cases hab : lt a b with
      | true =>
        rw [hlt] at hab
        rw [hlt b a, order_asymm hab]
        rfl
      | false =>
        rw [hlt] at hab
        rw [hlt b a, order_of_not (Ne.symm hvalue) hab]
        rfl
  found entries key := by
    have hsame : ∀ a b, OrdMap.same lt a b = eq a b := by
      intro a b
      rw [Bool.eq_iff_iff, heq, ← @OrdMap.same_iff μ ltv, OrdMap.same, OrdMap.same, hlt, hlt]
    have : IsStrictWeakOrder κ (fun a b => lt a b = true) := by
      have hon : (fun a b => lt a b = true) = Order.Preimage value (fun a b => ltv a b = true) := by
        funext a b
        rw [hlt]
        rfl
      rw [hon]
      have := isStrictWeakOrder_of_isOrderConnected (r := fun a b => ltv a b = true)
      infer_instance
    rw [OrdMap.find_fill]
    simp only [hsame]

theorem keys_total :
    KeyLaws FprObject.lt FprObject.eq ∧ KeyLaws ContentKeyObject.lt ContentKeyObject.eq :=
  ⟨keyed_of_value FprObject.value FprObject.lt_value FprObject.eq_iff,
    keyed_of_value ContentKeyObject.value ContentKeyObject.lt_value ContentKeyObject.eq_iff⟩

end Acng
