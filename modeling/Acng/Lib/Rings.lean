import Acng.Lib.StringOrder
import Mathlib.Dynamics.PeriodicPts.Defs

namespace Acng.Lib

/-! Circular lists over cells that hold one link each. The lists are linked one after the other, and a
cell that is in several of them keeps the link of the last one. -/

namespace Rings

variable {α : Type u}

/-- Two functions have the same iterates where they agree on the way. -/
theorem iterate_agree {f g : α → α} {x : α} {n : Nat} (h : ∀ k < n, f (g^[k] x) = g (g^[k] x)) :
    f^[n] x = g^[n] x := by
  induction n with
  | zero => rfl
  | succ n ih =>
    have hn := ih (fun k hk => h k (Nat.lt_succ_of_lt hk))
    rw [Function.iterate_succ_apply', Function.iterate_succ_apply', hn]
    exact h n (Nat.lt_succ_self n)

/-- In a sorted list a cell does not come again behind another one. -/
theorem notMem_of_sorted {lt : α → α → Bool} [IsStrictTotalOrder α (fun a b => lt a b = true)]
    {a b : α} {l : List α} (hne : a ≠ b)
    (h : (a :: b :: l).Pairwise (fun x y => lt y x = false)) : a ∉ b :: l := by
  intro hmem
  obtain ⟨ha, hb⟩ := List.pairwise_cons.mp h
  have hl := (List.mem_cons.mp hmem).resolve_left hne
  have hlt := order_of_not hne (ha b List.mem_cons_self)
  rw [(List.pairwise_cons.mp hb).1 a hl] at hlt
  exact Bool.false_ne_true hlt

/-- No list loses a part of its cells to the lists behind it, unless it loses them all. -/
def Undisturbed : List (List α) → Prop
  | [] => True
  | l :: back =>
    ((∀ x ∈ l, x ∉ back.flatten) ∨ ∀ x ∈ l, x ∈ back.flatten) ∧ Undisturbed back

theorem undisturbed_congr {β : Type v} {f g : β → List α} (h : ∀ b x, x ∈ f b ↔ x ∈ g b) (l : List β) :
    Undisturbed (l.map f) ↔ Undisturbed (l.map g) := by
  induction l with
  | nil => exact Iff.rfl
  | cons b back ih =>
    have hback : ∀ x, x ∈ (back.map f).flatten ↔ x ∈ (back.map g).flatten := by
      intro x
      simp only [List.mem_flatten, List.mem_map, exists_exists_and_eq_and, h]
    simp only [List.map_cons, Undisturbed, ih, h, hback]

variable [DecidableEq α]

def linkFrom (first : α) : α → List α → (α → α) → α → α
  | prev, [], bro => Function.update bro prev first
  | prev, next :: l, bro => linkFrom first next l (Function.update bro prev next)

def link : List α → (α → α) → α → α
  | [], bro => bro
  | first :: l, bro => linkFrom first first l bro

def linkAll (rings : List (List α)) (bro : α → α) : α → α :=
  rings.foldl (fun bro l => link l bro) bro

theorem linkFrom_outside {first prev x : α} {l : List α} (h : x ∉ prev :: l) (bro : α → α) :
    linkFrom first prev l bro x = bro x := by
  induction l generalizing prev bro with
  | nil => exact Function.update_of_ne (fun heq => h (List.mem_singleton.mpr heq)) _ _
  | cons next l ih =>
    rw [List.mem_cons, not_or] at h
    exact (ih h.2 _).trans (Function.update_of_ne h.1 _ _)

theorem linkFrom_mem (first : α) {prev x : α} {l : List α} (h : x ∈ prev :: l) (bro : α → α) :
    linkFrom first prev l bro x ∈ first :: prev :: l := by
  induction l generalizing prev bro with
  | nil =>
    obtain rfl := List.mem_singleton.mp h
    rw [linkFrom, Function.update_self]
    exact List.mem_cons_self
  | cons next l ih =>
    by_cases hx : x ∈ next :: l
    · have := ih hx (Function.update bro prev next)
      simp only [List.mem_cons] at this ⊢
      tauto
    · obtain rfl := (List.mem_cons.mp h).resolve_right hx
      rw [linkFrom, linkFrom_outside hx, Function.update_self]
      simp

section Sorted

variable {lt : α → α → Bool} [IsStrictTotalOrder α (fun a b => lt a b = true)]

theorem linkFrom_reach (first : α) {prev y : α} {l : List α}
    (h : (prev :: l).Pairwise (fun x y => lt y x = false)) (bro : α → α) (hy : y ∈ prev :: l) :
    (∃ n, (linkFrom first prev l bro)^[n] prev = y) ∧
      ∃ n, 0 < n ∧ (linkFrom first prev l bro)^[n] y = first := by
  induction l generalizing prev y bro with
  | nil =>
    obtain rfl := List.mem_singleton.mp hy
    exact ⟨⟨0, rfl⟩, ⟨1, Nat.one_pos, Function.update_self _ _ _⟩⟩
  | cons next l ih =>
    have hl := (List.pairwise_cons.mp h).2
    by_cases heq : prev = next
    · subst heq
      have hy' : y ∈ prev :: l := (List.mem_cons.mp hy).elim (fun e => e ▸ List.mem_cons_self) id
      exact ih hl _ hy'
    · have hstep : linkFrom first prev (next :: l) bro prev = next := by
        rw [linkFrom, linkFrom_outside (notMem_of_sorted heq h), Function.update_self]
      obtain rfl | hy := List.mem_cons.mp hy
      · obtain ⟨-, n, -, hn⟩ := ih hl (Function.update bro y next) List.mem_cons_self
        refine ⟨⟨0, rfl⟩, ⟨n + 1, Nat.succ_pos n, ?_⟩⟩
        rw [Function.iterate_succ_apply, hstep]
        exact hn
      · obtain ⟨⟨n, hn⟩, hback⟩ := ih hl (Function.update bro prev next) hy
        refine ⟨⟨n + 1, ?_⟩, hback⟩
        rw [Function.iterate_succ_apply, hstep]
        exact hn

/-- From every cell of a list the links lead to every other one, and around. -/
theorem link_reach {l : List α} (h : l.Pairwise (fun x y => lt y x = false)) (bro : α → α) {x y : α}
    (hx : x ∈ l) (hy : y ∈ l) : ∃ n, 0 < n ∧ (link l bro)^[n] x = y := by
  cases l with
  | nil => cases hx
  | cons first l =>
    obtain ⟨-, n, hpos, hn⟩ := linkFrom_reach first h bro hx
    obtain ⟨⟨m, hm⟩, -⟩ := linkFrom_reach first h bro hy
    refine ⟨m + n, Nat.add_pos_right m hpos, ?_⟩
    rw [Function.iterate_add_apply, link, hn, hm]

end Sorted

theorem link_outside {x : α} {l : List α} (h : x ∉ l) (bro : α → α) : link l bro x = bro x := by
  cases l with
  | nil => rfl
  | cons first l => exact linkFrom_outside h bro

theorem link_mem {x : α} {l : List α} (h : x ∈ l) (bro : α → α) : link l bro x ∈ l := by
  cases l with
  | nil => cases h
  | cons first l =>
    obtain heq | hmem := List.mem_cons.mp (linkFrom_mem first h bro)
    · exact List.mem_cons.mpr (.inl heq)
    · exact hmem

theorem linkAll_outside {x : α} {rings : List (List α)} (h : x ∉ rings.flatten) (bro : α → α) :
    linkAll rings bro x = bro x := by
  induction rings generalizing bro with
  | nil => rfl
  | cons l back ih =>
    rw [List.flatten_cons, List.mem_append, not_or] at h
    exact (ih h.2 _).trans (link_outside h.1 bro)

theorem linkAll_mem {x : α} {rings : List (List α)} (h : x ∈ rings.flatten) (bro : α → α) :
    linkAll rings bro x ∈ rings.flatten := by
  induction rings generalizing bro with
  | nil => cases h
  | cons l back ih =>
    rw [List.flatten_cons, List.mem_append] at h ⊢
    by_cases hback : x ∈ back.flatten
    · exact .inr (ih hback _)
    · have hl := h.resolve_right hback
      refine .inl ?_
      change linkAll back (link l bro) x ∈ l
      rw [linkAll_outside hback]
      exact link_mem hl bro

theorem linkAll_iterate_mem {x : α} {rings : List (List α)} (h : x ∈ rings.flatten) (bro : α → α)
    (n : Nat) : (linkAll rings bro)^[n] x ∈ rings.flatten := by
  induction n with
  | zero => exact h
  | succ n ih =>
    rw [Function.iterate_succ_apply']
    exact linkAll_mem ih bro

variable {lt : α → α → Bool} [IsStrictTotalOrder α (fun a b => lt a b = true)]

/-- A list that lost some of its cells has one from which no link leads back. -/
theorem disjoint_or_subset {l : List α} (hsorted : l.Pairwise (fun x y => lt y x = false))
    {back : List (List α)} {bro : α → α}
    (hret : ∀ x, x ∈ Function.periodicPts (linkAll back (link l bro))) :
    (∀ x ∈ l, x ∉ back.flatten) ∨ ∀ x ∈ l, x ∈ back.flatten := by
  by_contra hnot
  push Not at hnot
  obtain ⟨⟨x, hx, hxback⟩, y, hy, hyback⟩ := hnot
  obtain ⟨n, -, hn⟩ := link_reach hsorted bro hy hx
  have hex : ∃ n, (link l bro)^[n] y ∈ back.flatten := ⟨n, hn ▸ hxback⟩
  -- the first cell on the way that another list took
  classical
  have hway : (linkAll back (link l bro))^[Nat.find hex] y = (link l bro)^[Nat.find hex] y :=
    iterate_agree (fun k hk => linkAll_outside (Nat.find_min hex hk) _)
  have hlost := hway ▸ Nat.find_spec hex
  obtain ⟨p, hp, hper⟩ := hret y
  have hround := hper.const_mul (Nat.find hex)
  have hsplit : Nat.find hex * p = Nat.find hex * (p - 1) + Nat.find hex := by
    obtain ⟨q, rfl⟩ := Nat.exists_eq_succ_of_ne_zero hp.ne'
    rw [Nat.succ_sub_one, Nat.mul_succ]
  rw [hsplit, Function.IsPeriodicPt, Function.IsFixedPt, Function.iterate_add_apply] at hround
  exact hyback (hround ▸ linkAll_iterate_mem hlost _ _)

theorem undisturbed_of_returns {rings : List (List α)}
    (hsorted : ∀ l ∈ rings, l.Pairwise (fun x y => lt y x = false)) {bro : α → α}
    (hret : ∀ x, x ∈ Function.periodicPts (linkAll rings bro)) : Undisturbed rings := by
  induction rings generalizing bro with
  | nil => trivial
  | cons l back ih =>
    obtain ⟨hl, hback⟩ := List.forall_mem_cons.mp hsorted
    exact ⟨disjoint_or_subset hl hret, ih hback hret⟩

theorem returns_of_undisturbed {rings : List (List α)}
    (hsorted : ∀ l ∈ rings, l.Pairwise (fun x y => lt y x = false)) (h : Undisturbed rings)
    {bro : α → α} (hclosed : ∀ x, x ∉ rings.flatten → bro x ∉ rings.flatten)
    (hret : ∀ x, x ∉ rings.flatten → x ∈ Function.periodicPts bro) (x : α) :
    x ∈ Function.periodicPts (linkAll rings bro) := by
  induction rings generalizing bro with
  | nil => exact hret x (by simp)
  | cons l back ih =>
    obtain ⟨hl, hback⟩ := List.forall_mem_cons.mp hsorted
    obtain ⟨hlost, hrest⟩ := h
    have hring : ∀ x ∈ l, x ∉ back.flatten → ∀ y ∈ l, y ∉ back.flatten := by
      intro x hx hxback
      exact hlost.resolve_right (fun hall => hxback (hall x hx))
    simp only [List.flatten_cons, List.mem_append, not_or] at hclosed hret
    refine ih hback hrest ?_ ?_
    · intro x hx
      by_cases hxl : x ∈ l
      · exact hring x hxl hx _ (link_mem hxl bro)
      · change link l bro x ∉ back.flatten
        rw [link_outside hxl]
        exact (hclosed x ⟨hxl, hx⟩).2
    · intro x hx
      by_cases hxl : x ∈ l
      · obtain ⟨n, hpos, hn⟩ := link_reach hl bro hxl hxl
        exact ⟨n, hpos, hn⟩
      · obtain ⟨n, hpos, hn⟩ := hret x ⟨hxl, hx⟩
        have hout : ∀ k, bro^[k] x ∉ l ∧ bro^[k] x ∉ back.flatten := by
          intro k
          induction k with
          | zero => exact ⟨hxl, hx⟩
          | succ k ih =>
            rw [Function.iterate_succ_apply']
            exact hclosed _ ih
        exact ⟨n, hpos, (iterate_agree (fun k _ => link_outside (hout k).1 bro)).trans hn⟩

/-- The links come around from every cell if and only if no list is disturbed. -/
theorem returns_iff {rings : List (List α)}
    (hsorted : ∀ l ∈ rings, l.Pairwise (fun x y => lt y x = false)) :
    (∀ x, x ∈ Function.periodicPts (linkAll rings id)) ↔ Undisturbed rings := by
  refine ⟨undisturbed_of_returns hsorted, fun h => ?_⟩
  refine returns_of_undisturbed hsorted h (fun _ => id) ?_
  exact fun x _ => ⟨1, Nat.one_pos, rfl⟩

/-- A cell shares a list with every cell that the links lead to from there. -/
theorem linkAll_stays {rings : List (List α)} (h : Undisturbed rings) (bro : α → α) {x : α}
    (hx : x ∈ rings.flatten) : ∃ l ∈ rings, x ∈ l ∧ ∀ n, (linkAll rings bro)^[n] x ∈ l := by
  induction rings generalizing bro with
  | nil => cases hx
  | cons l back ih =>
    obtain ⟨hlost, hrest⟩ := h
    by_cases hback : x ∈ back.flatten
    · obtain ⟨l', hl', hstay⟩ := ih hrest (link l bro) hback
      exact ⟨l', List.mem_cons_of_mem _ hl', hstay⟩
    · rw [List.flatten_cons, List.mem_append] at hx
      have hxl := hx.resolve_right hback
      have hkept := hlost.resolve_right (fun hall => hback (hall x hxl))
      refine ⟨l, List.mem_cons_self, hxl, fun n => ?_⟩
      induction n with
      | zero => exact hxl
      | succ n ih =>
        rw [Function.iterate_succ_apply']
        change linkAll back (link l bro) _ ∈ l
        rw [linkAll_outside (hkept _ ih)]
        exact link_mem ih bro

end Rings

end Acng.Lib
