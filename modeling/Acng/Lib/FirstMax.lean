import Mathlib.Data.List.Induction
import Mathlib.Data.List.Perm.Basic
import Mathlib.Order.Nat

namespace Acng.Lib

variable {α : Type} {size : α → Nat} {p : α → Bool} {l l' : List α} {a b : α}

/-- The first of the largest elements that are wanted, found in one pass. Those of size zero
are not. -/
def firstMax (size : α → Nat) (p : α → Bool) (l : List α) : Option α :=
  l.foldl (fun best a => if (best.elim 0 size) < size a && p a then some a else best) none

theorem firstMax_concat (l : List α) (a : α) :
    firstMax size p (l ++ [a]) =
      if ((firstMax size p l).elim 0 size) < size a && p a then some a else firstMax size p l := by
  rw [firstMax, List.foldl_append]
  rfl

theorem firstMax_map {β : Type} (f : β → α) (l : List β) :
    firstMax size p (l.map f) = (firstMax (size ∘ f) (p ∘ f) l).map f := by
  induction l using List.reverseRecOn with
  | nil => rfl
  | append_singleton l b ih =>
    rw [List.map_append, List.map_singleton, firstMax_concat, firstMax_concat, ih]
    have helim : ((firstMax (size ∘ f) (p ∘ f) l).map f).elim 0 size =
        (firstMax (size ∘ f) (p ∘ f) l).elim 0 (size ∘ f) := by
      cases firstMax (size ∘ f) (p ∘ f) l with
      | none => rfl
      | some a => rfl
    rw [helim]
    simp only [Function.comp_apply]
    split
    · rfl
    · rfl

theorem firstMax_filter (q : α → Bool) (l : List α) :
    firstMax size p (l.filter q) = firstMax size (fun a => q a && p a) l := by
  induction l using List.reverseRecOn with
  | nil => rfl
  | append_singleton l a ih =>
    rw [List.filter_append, firstMax_concat, ← ih]
    cases hq : q a with
    | false =>
      rw [List.filter_cons_of_neg (by simp [hq]), List.filter_nil, List.append_nil]
      exact (if_neg (by simp)).symm
    | true =>
      rw [List.filter_cons_of_pos hq, List.filter_nil, firstMax_concat, Bool.true_and]

/-- Where it stands: what is before it is smaller, and what is behind it is not larger. -/
structure FirstMax (size : α → Nat) (p : α → Bool) (l : List α) (a : α) : Prop where
  wanted : p a = true
  pos : 0 < size a
  split : ∃ before after, l = before ++ a :: after ∧ (∀ b ∈ before, p b = true → size b < size a) ∧
    ∀ b ∈ after, p b = true → size b ≤ size a

theorem FirstMax.mem (h : FirstMax size p l a) : a ∈ l := by
  obtain ⟨before, after, rfl, -, -⟩ := h.split
  simp

theorem FirstMax.le (h : FirstMax size p l a) (hb : b ∈ l) (hp : p b = true) : size b ≤ size a := by
  obtain ⟨before, after, rfl, hbefore, hafter⟩ := h.split
  rcases List.mem_append.mp hb with hb | hb
  · exact (hbefore b hb hp).le
  · rcases List.mem_cons.mp hb with rfl | hb
    · exact le_rfl
    · exact hafter b hb hp

theorem firstMax_cases (size : α → Nat) (p : α → Bool) (l : List α) :
    (firstMax size p l = none ∧ ∀ a ∈ l, p a = true → size a = 0) ∨
      ∃ a, firstMax size p l = some a ∧ FirstMax size p l a := by
  induction l using List.reverseRecOn with
  | nil => exact .inl ⟨rfl, fun _ h => absurd h List.not_mem_nil⟩
  | append_singleton l a ih =>
    rw [firstMax_concat]
    rcases ih with ⟨hnone, hall⟩ | ⟨best, hsome, hbest⟩
    · rw [hnone, Option.elim_none]
      split
      · rename_i hnew
        rw [Bool.and_eq_true, decide_eq_true_eq] at hnew
        refine .inr ⟨a, rfl, hnew.2, hnew.1, l, [], rfl, fun b hb hp => ?_,
          fun _ h => absurd h List.not_mem_nil⟩
        rw [hall b hb hp]
        exact hnew.1
      · rename_i hold
        refine .inl ⟨rfl, fun b hb hp => ?_⟩
        rcases List.mem_append.mp hb with hb | hb
        · exact hall b hb hp
        · obtain rfl := List.mem_singleton.mp hb
          by_contra hne
          exact hold (by simp [hp, Nat.pos_of_ne_zero hne])
    · rw [hsome, Option.elim_some]
      split
      · rename_i hnew
        rw [Bool.and_eq_true, decide_eq_true_eq] at hnew
        refine .inr ⟨a, rfl, hnew.2, by omega, l, [], rfl, fun b hb hp => ?_,
          fun _ h => absurd h List.not_mem_nil⟩
        exact (hbest.le hb hp).trans_lt hnew.1
      · rename_i hold
        obtain ⟨before, after, rfl, hbefore, hafter⟩ := hbest.split
        refine .inr ⟨best, rfl, hbest.wanted, hbest.pos, before, after ++ [a], by simp, hbefore,
          fun b hb hp => ?_⟩
        rcases List.mem_append.mp hb with hb | hb
        · exact hafter b hb hp
        · obtain rfl := List.mem_singleton.mp hb
          by_contra hlarger
          exact hold (by simp [hp, not_le.mp hlarger])

theorem firstMax_spec (h : firstMax size p l = some a) : FirstMax size p l a := by
  rcases firstMax_cases size p l with ⟨hnone, -⟩ | ⟨b, hsome, hb⟩
  · rw [hnone] at h
    cases h
  · rw [hsome] at h
    exact Option.some.inj h ▸ hb

theorem firstMax_none : firstMax size p l = none ↔ ∀ a ∈ l, p a = true → size a = 0 := by
  rcases firstMax_cases size p l with ⟨hnone, hall⟩ | ⟨b, hsome, hb⟩
  · exact iff_of_true hnone hall
  · rw [hsome]
    refine iff_of_false nofun (fun hall => ?_)
    have hzero := hall b hb.mem hb.wanted
    have hpos := hb.pos
    omega

/-- It is the first of its size. -/
theorem FirstMax.head (h : FirstMax size p l a) :
    (l.filter (fun b => p b && size b == size a)).head? = some a := by
  obtain ⟨before, after, rfl, hbefore, -⟩ := h.split
  have hnone : before.filter (fun b => p b && size b == size a) = [] := by
    rw [List.filter_eq_nil_iff]
    intro b hb hyes
    rw [Bool.and_eq_true, beq_iff_eq] at hyes
    have hless := hbefore b hb hyes.1
    omega
  rw [List.filter_append, hnone, List.nil_append, List.filter_cons_of_pos (by simp [h.wanted])]
  rfl

/-- It does not depend on the order of elements with different sizes. -/
theorem firstMax_congr
    (h : ∀ n, l.filter (fun a => p a && size a == n) = l'.filter (fun a => p a && size a == n)) :
    firstMax size p l = firstMax size p l' := by
  have hmem (b : α) (hp : p b = true) : b ∈ l ↔ b ∈ l' := by
    have hb : b ∈ l.filter (fun a => p a && size a == size b) ↔
        b ∈ l'.filter (fun a => p a && size a == size b) := by rw [h]
    simpa only [List.mem_filter, hp, beq_self_eq_true, Bool.and_self, and_true] using hb
  rcases firstMax_cases size p l with ⟨hnone, hall⟩ | ⟨a, hsome, ha⟩
  · rw [hnone, eq_comm, firstMax_none]
    exact fun b hb hp => hall b ((hmem b hp).mpr hb) hp
  · rcases firstMax_cases size p l' with ⟨-, hall⟩ | ⟨b, hsome', hb⟩
    · have hzero := hall a ((hmem a ha.wanted).mp ha.mem) ha.wanted
      have hpos := ha.pos
      omega
    · have hsize : size a = size b := Nat.le_antisymm
        (hb.le ((hmem a ha.wanted).mp ha.mem) ha.wanted)
        (ha.le ((hmem b hb.wanted).mpr hb.mem) hb.wanted)
      have hhead := ha.head
      rw [h, hsize, hb.head] at hhead
      rw [hsome, hsome', Option.some.inj hhead]

/-- Its size does not depend on the order at all. -/
theorem firstMax_perm (size : α → Nat) (p : α → Bool) (h : l.Perm l') :
    (firstMax size p l).map size = (firstMax size p l').map size := by
  rcases firstMax_cases size p l with ⟨hnone, hall⟩ | ⟨a, hsome, ha⟩
  · have hnone' : firstMax size p l' = none :=
      firstMax_none.mpr (fun b hb => hall b (h.mem_iff.mpr hb))
    rw [hnone, hnone']
  · rcases firstMax_cases size p l' with ⟨-, hall⟩ | ⟨b, hsome', hb⟩
    · have hzero := hall a (h.mem_iff.mp ha.mem) ha.wanted
      have hpos := ha.pos
      omega
    · rw [hsome, hsome']
      exact congrArg some (Nat.le_antisymm (hb.le (h.mem_iff.mp ha.mem) ha.wanted)
        (ha.le (h.mem_iff.mpr hb.mem) hb.wanted))

end Acng.Lib
