import Acng.Fingerprint
import Acng.HttpUrl

namespace Acng
open Lib

theorem hexVal_hexDigit {k : Nat} (h : k < 16) : hexVal (hexDigit k) = some k := by
  have hall : ∀ k : Fin 16, hexVal (hexDigit k) = some k.val := by decide
  exact hall ⟨k, h⟩

theorem hexDigits_byte (b : UInt8) : UInt8.ofNat (16 * (b.toNat / 16) + b.toNat % 16) = b := by
  rw [← UInt8.toNat_inj, UInt8.toNat_ofNat']
  have hb := b.toNat_lt
  omega

theorem urlUnescape_nil : urlUnescape [] = [] := rfl

theorem urlUnescape_triple (c a b : UInt8) (t : Bytes) :
    urlUnescape (c :: a :: b :: t) =
      if c == 37 then
        match hexVal a, hexVal b with
        | some x, some y => UInt8.ofNat (16 * x + y) :: urlUnescape t
        | _, _ => urlUnescape (a :: b :: t)
      else c :: urlUnescape (a :: b :: t) :=
  rfl

/-- With less than two bytes behind it. -/
theorem urlUnescape_short (c : UInt8) {s : Bytes} (hs : ∀ a b t, s = a :: b :: t → False) :
    urlUnescape (c :: s) = if c == 37 then urlUnescape s else c :: urlUnescape s := by
  rcases s with - | ⟨a, - | ⟨b, t⟩⟩
  · rfl
  · rfl
  · exact (hs a b t rfl).elim

theorem urlUnescape_other {c : UInt8} (s : Bytes) (h : (c == 37) = false) :
    urlUnescape (c :: s) = c :: urlUnescape s := by
  rcases s with - | ⟨a, - | ⟨b, t⟩⟩
  · rw [urlUnescape_short c (s := []) (by simp), h]
    rfl
  · rw [urlUnescape_short c (s := [a]) (by simp), h]
    rfl
  · rw [urlUnescape_triple, h]
    rfl

theorem urlUnescape_dropped {c a b : UInt8} {t : Bytes} (hc : (c == 37) = true)
    (hno : ∀ x y, hexVal a = some x → hexVal b = some y → False) :
    urlUnescape (c :: a :: b :: t) = urlUnescape (a :: b :: t) := by
  rw [urlUnescape_triple, if_pos hc]
  split
  · next x y hx hy => exact (hno x y hx hy).elim
  · rfl

theorem urlUnescape_le (s : Bytes) : (urlUnescape s).length ≤ s.length := by
  induction s using urlUnescape.induct with
  | case1 c a b t hc x y hb ha ih =>
    simp only [urlUnescape_triple, hc, if_true, ha, hb, List.length_cons]
    omega
  | case2 c a b t hc hno ih =>
    rw [urlUnescape_dropped hc hno, List.length_cons]
    omega
  | case3 c a b t hc ih =>
    rw [urlUnescape_other _ (Bool.not_eq_true _ ▸ hc), List.length_cons, List.length_cons]
    omega
  | case4 c s hs hc ih =>
    rw [urlUnescape_short c hs, if_pos hc, List.length_cons]
    omega
  | case5 c s hs hc ih =>
    rw [urlUnescape_other _ (Bool.not_eq_true _ ▸ hc), List.length_cons, List.length_cons]
    omega
  | case6 => exact Nat.le_refl 0

/-- A percent sign is always lost. -/
theorem urlUnescape_percent (s : Bytes) : (urlUnescape (37 :: s)).length ≤ s.length := by
  rcases s with - | ⟨a, - | ⟨b, t⟩⟩
  · exact Nat.le_refl 0
  · exact urlUnescape_le [a]
  · rw [urlUnescape_triple, if_pos (by decide)]
    have ht := urlUnescape_le t
    split
    · rw [List.length_cons, List.length_cons, List.length_cons]
      omega
    · exact urlUnescape_le (a :: b :: t)

/-- A name is kept if it has no percent sign, and else it gets shorter. -/
theorem urlUnescape_kept (s : Bytes) :
    (37 ∉ s → urlUnescape s = s) ∧ (37 ∈ s → (urlUnescape s).length < s.length) := by
  induction s with
  | nil => exact ⟨fun _ => rfl, fun h => absurd h List.not_mem_nil⟩
  | cons c s ih =>
    by_cases hc : c = 37
    · subst hc
      refine ⟨fun h => absurd List.mem_cons_self h, fun _ => ?_⟩
      exact Nat.lt_succ_of_le (urlUnescape_percent s)
    · rw [urlUnescape_other s (beq_false_of_ne hc), List.mem_cons, List.length_cons,
        List.length_cons, List.cons.injEq]
      refine ⟨fun h => ⟨rfl, ih.1 (not_or.mp h).2⟩, fun h => ?_⟩
      exact Nat.succ_lt_succ (ih.2 (h.resolve_left (Ne.symm hc)))

/-- Nothing is left only of percent signs. -/
theorem urlUnescape_eq_nil {s : Bytes} : urlUnescape s = [] ↔ ∀ c ∈ s, c = 37 := by
  constructor
  · intro hnil
    induction s using urlUnescape.induct with
    | case1 c a b t hc x y hb ha ih =>
      simp only [urlUnescape_triple, hc, if_true, ha, hb] at hnil
      cases hnil
    | case2 c a b t hc hno ih =>
      rw [urlUnescape_dropped hc hno] at hnil
      exact List.forall_mem_cons.mpr ⟨beq_iff_eq.mp hc, ih hnil⟩
    | case3 c a b t hc ih =>
      rw [urlUnescape_other _ (Bool.not_eq_true _ ▸ hc)] at hnil
      cases hnil
    | case4 c s hs hc ih =>
      rw [urlUnescape_short c hs, if_pos hc] at hnil
      exact List.forall_mem_cons.mpr ⟨beq_iff_eq.mp hc, ih hnil⟩
    | case5 c s hs hc ih =>
      rw [urlUnescape_other _ (Bool.not_eq_true _ ▸ hc)] at hnil
      cases hnil
    | case6 => exact List.forall_mem_nil _
  · intro hall
    obtain ⟨n, rfl⟩ : ∃ n, s = List.replicate n 37 := ⟨_, List.eq_replicate_of_mem hall⟩
    induction n using Nat.strong_induction_on with
    | _ n ih =>
      match n with
      | 0 | 1 | 2 => rfl
      | n + 3 => exact ih (n + 2) (by omega) (fun c hc => List.eq_of_mem_replicate hc)

end Acng
