import Acng.SendData

namespace Acng
open Lib

/-- The digits of a number, as bytes. -/
theorem dec_natCast (n : Nat) : dec n = (Nat.toDigits 10 n).map (fun c => UInt8.ofNat c.toNat) := by
  change (Nat.repr n).toList.map _ = _
  rw [Nat.toList_repr]

theorem decDigits_eq_dec (n : Nat) : decDigits n = dec n := (dec_natCast n).symm

theorem dec_neg (v : Int) (h : v < 0) : dec v = 45 :: dec (-v).toNat := by
  change v.repr.toList.map _ = _
  rw [Int.repr_eq_if, if_neg (by omega), dec_natCast]
  simp only [String.toList_append, Nat.toList_repr, List.map_append]
  rfl

theorem byte_of_digit (c : Char) (h : c.isDigit = true) :
    isdigit (UInt8.ofNat c.toNat) = true ∧ (UInt8.ofNat c.toNat).toNat = c.toNat := by
  obtain ⟨h1, h2⟩ := Char.isDigit_iff_toNat.mp h
  have hn : (UInt8.ofNat c.toNat).toNat = c.toNat := by
    refine UInt8.toNat_ofNat_of_lt' (lt_of_le_of_lt h2 (by decide))
  refine ⟨?_, hn⟩
  simp only [isdigit, Bool.and_eq_true, decide_eq_true_eq, UInt8.le_iff_toNat_le, hn]
  exact ⟨h1, h2⟩

theorem digits_value (cs : List Char) (n : Nat) (h : ∀ c ∈ cs, c.isDigit = true) :
    (cs.map (fun c => UInt8.ofNat c.toNat)).foldl (fun n d => 10 * n + (d.toNat - 48)) n =
      Nat.ofDigitChars 10 cs n := by
  induction cs generalizing n with
  | nil => rfl
  | cons c cs ih =>
    rw [List.map_cons, List.foldl_cons, (byte_of_digit c (h c List.mem_cons_self)).2,
      ih _ (fun d hd => h d (List.mem_cons_of_mem c hd)), Nat.ofDigitChars_cons]
    rfl

theorem toDigits_isDigit (n : Nat) : ∀ c ∈ Nat.toDigits 10 n, c.isDigit = true :=
  fun _ hc => Nat.isDigit_of_mem_toDigits (by decide) (by decide) hc

theorem decimal_dec (n : Nat) : decimal (dec n) = n := by
  rw [dec_natCast, decimal, digits_value _ _ (toDigits_isDigit n), Nat.ofDigitChars_ten_toDigits]

theorem dec_digits (n : Nat) : ∀ c ∈ dec n, isdigit c = true := by
  rw [dec_natCast]
  intro c hc
  obtain ⟨d, hd, rfl⟩ := List.mem_map.mp hc
  exact (byte_of_digit d (toDigits_isDigit n d hd)).1

theorem dec_length {n k : Nat} (hk : 0 < k) (hn : n < 10 ^ k) : (dec n).length ≤ k := by
  rw [dec_natCast, List.length_map]
  exact (Nat.length_toDigits_le_iff (by decide) hk).mpr hn

theorem dec_ne (n : Nat) : dec n ≠ [] := by
  rw [dec_natCast]
  simp

theorem takeWhile_dec (n : Nat) (c : UInt8) (x : Bytes) (h : isdigit c = false) :
    (dec n ++ c :: x).takeWhile isdigit = dec n := by
  rw [List.takeWhile_append_of_pos (dec_digits n), List.takeWhile_cons_of_neg (by simp [h]),
    List.append_nil]

theorem dec_ne_sign (n : Nat) (x y : Bytes) : dec n ++ x ≠ 45 :: y := by
  intro h
  cases hd : dec n with
  | nil => exact dec_ne n hd
  | cons d ds =>
    rw [hd] at h
    simp only [List.cons_append, List.cons.injEq] at h
    have hdig := dec_digits n d (by rw [hd]; exact List.mem_cons_self)
    rw [h.1] at hdig
    cases hdig

theorem dec_natCast_inj (m n : Nat) (c d : UInt8) (x y : Bytes) (hc : isdigit c = false)
    (hd : isdigit d = false) (h : dec m ++ c :: x = dec n ++ d :: y) : m = n ∧ c :: x = d :: y := by
  have hm : dec m = dec n := by rw [← takeWhile_dec m c x hc, h, takeWhile_dec n d y hd]
  refine ⟨by rw [← decimal_dec m, hm, decimal_dec], ?_⟩
  rwa [hm, List.append_cancel_left_eq] at h

/-- A printed number ends in front of the first byte that is not a digit. -/
theorem dec_append_inj (v w : Int) (c d : UInt8) (x y : Bytes) (hc : isdigit c = false)
    (hd : isdigit d = false) (h : dec v ++ c :: x = dec w ++ d :: y) : v = w ∧ c :: x = d :: y := by
  rcases Int.lt_or_le v 0 with hv | hv <;> rcases Int.lt_or_le w 0 with hw | hw
  · rw [dec_neg v hv, dec_neg w hw] at h
    simp only [List.cons_append, List.cons.injEq, true_and] at h
    obtain ⟨he, hr⟩ := dec_natCast_inj _ _ c d x y hc hd h
    exact ⟨by omega, hr⟩
  · obtain ⟨n, rfl⟩ := Int.eq_ofNat_of_zero_le hw
    rw [dec_neg v hv] at h
    exact absurd h.symm (dec_ne_sign n _ _)
  · obtain ⟨n, rfl⟩ := Int.eq_ofNat_of_zero_le hv
    rw [dec_neg w hw] at h
    exact absurd h (dec_ne_sign n _ _)
  · obtain ⟨m, rfl⟩ := Int.eq_ofNat_of_zero_le hv
    obtain ⟨n, rfl⟩ := Int.eq_ofNat_of_zero_le hw
    obtain ⟨he, hr⟩ := dec_natCast_inj m n c d x y hc hd h
    exact ⟨by rw [he], hr⟩

/-- A printed number has nothing but digits and a sign. -/
theorem dec_bytes (v : Int) : ∀ c ∈ dec v, c = 45 ∨ isdigit c = true := by
  rcases Int.lt_or_le v 0 with hv | hv
  · rw [dec_neg v hv]
    intro c hc
    rcases List.mem_cons.mp hc with rfl | hc
    · exact .inl rfl
    · exact .inr (dec_digits _ c hc)
  · obtain ⟨n, rfl⟩ := Int.eq_ofNat_of_zero_le hv
    exact fun c hc => .inr (dec_digits n c hc)

theorem dec_ne_nil (v : Int) : dec v ≠ [] := by
  rcases Int.lt_or_le v 0 with hv | hv
  · rw [dec_neg v hv]
    exact List.cons_ne_nil _ _
  · obtain ⟨n, rfl⟩ := Int.eq_ofNat_of_zero_le hv
    exact dec_ne n

end Acng
