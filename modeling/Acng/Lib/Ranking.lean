import Acng.Lib.StringOrder
import Mathlib.Algebra.Order.Group.Nat
import Mathlib.Data.List.SplitBy
import Mathlib.Data.List.Dedup
import Mathlib.Data.List.Perm.Subperm

namespace Acng.Lib

variable {α : Type u} {β : Type v} {κ : Type w}

section Front

variable {p : α → Bool} {l : List α}

/-- What satisfies a condition stands in front, if nothing that does is behind something that does
not. -/
theorem filter_eq_take_of_closed (h : l.Pairwise (fun a b => p b = true → p a = true)) :
    l.filter p = l.take (l.filter p).length := by
  induction l with
  | nil => rfl
  | cons a l ih =>
    obtain ⟨ha, hl⟩ := List.pairwise_cons.mp h
    cases hp : p a with
    | true =>
      rw [List.filter_cons_of_pos hp, List.length_cons, List.take_succ_cons, ← ih hl]
    | false =>
      have hnone : l.filter p = [] := by
        rw [List.filter_eq_nil_iff]
        intro b hb hpb
        exact Bool.false_ne_true (hp.symm.trans (ha b hb hpb))
      rw [List.filter_cons_of_neg (by simp [hp]), hnone]
      rfl

theorem filter_eq_take_of_index {k : Nat} (h : ∀ i (hi : i < l.length), p l[i] = true ↔ i < k) :
    l.filter p = l.take k := by
  have hfront : (l.take k).filter p = l.take k := by
    rw [List.filter_eq_self]
    intro a ha
    obtain ⟨i, hi, rfl⟩ := List.mem_iff_getElem.mp ha
    rw [List.getElem_take]
    exact (h i _).mpr (by rw [List.length_take] at hi; omega)
  have hback : (l.drop k).filter p = [] := by
    rw [List.filter_eq_nil_iff]
    intro a ha
    obtain ⟨i, hi, rfl⟩ := List.mem_iff_getElem.mp ha
    rw [List.getElem_drop]
    exact fun hp => absurd ((h _ _).mp hp) (by omega)
  conv_lhs => rw [← List.take_append_drop k l, List.filter_append, hfront, hback, List.append_nil]

/-- The front of so many elements is what satisfies the condition exactly if so many do. -/
theorem take_iff_filter (hl : l.Nodup) (h : l.Pairwise (fun a b => p b = true → p a = true))
    (k : Nat) :
    (∀ a, a ∈ l.take k ↔ a ∈ l.filter p) ↔ (l.filter p).length = min k l.length := by
  constructor
  · intro hmem
    have hperm : (l.take k).Perm (l.filter p) :=
      (List.perm_ext_iff_of_nodup (hl.sublist (List.take_sublist k l)) (hl.filter p)).mpr hmem
    rw [← hperm.length_eq, List.length_take]
  · intro hlen a
    rw [filter_eq_take_of_closed h, hlen, ← List.take_eq_take_min]

end Front

section Rank

variable {gt : β → β → Bool}

/-- How many different values are above one. -/
def rank [DecidableEq β] (gt : β → β → Bool) (vals : List β) (v : β) : Nat := (vals.filter (gt · v)).dedup.length

theorem rank_congr [DecidableEq β] {vals vals' : List β} (h : ∀ v, v ∈ vals ↔ v ∈ vals') (v : β) :
    rank gt vals v = rank gt vals' v := by
  unfold rank
  refine ((List.perm_ext_iff_of_nodup (List.nodup_dedup _) (List.nodup_dedup _)).mpr ?_).length_eq
  intro a
  rw [List.mem_dedup, List.mem_dedup, List.mem_filter, List.mem_filter, h a]

variable [IsStrictTotalOrder β (fun a b => gt a b = true)]

variable [DecidableEq β]

/-- A value that is not below another has no more above it. -/
theorem rank_le (vals : List β) {a b : β} (h : gt b a = false) : rank gt vals a ≤ rank gt vals b := by
  refine (List.subperm_of_subset (List.nodup_dedup _) ?_).length_le
  intro v hv
  rw [List.mem_dedup, List.mem_filter] at hv ⊢
  refine ⟨hv.1, ?_⟩
  by_cases hab : a = b
  · exact hab ▸ hv.2
  · exact order_trans hv.2 (order_of_not hab h)

theorem rank_of_sorted {vals : List β} (h : vals.Pairwise (fun a b => gt a b = true)) (i : Nat)
    (hi : i < vals.length) : rank gt vals vals[i] = i := by
  have hfilter : vals.filter (gt · vals[i]) = vals.take i := by
    refine filter_eq_take_of_index (fun j hj => ?_)
    constructor
    · intro hgt
      by_contra hij
      obtain rfl | hlt := Nat.eq_or_lt_of_le (Nat.le_of_not_lt hij)
      · exact Bool.false_ne_true ((order_irrefl _).symm.trans hgt)
      · have hback := order_asymm (List.pairwise_iff_getElem.mp h i j hi hj hlt)
        exact Bool.false_ne_true (hback.symm.trans hgt)
    · exact List.pairwise_iff_getElem.mp h j i hj hi
  have hnodup : vals.Nodup := h.imp (fun hgt => by
    rintro rfl
    exact Bool.false_ne_true ((order_irrefl _).symm.trans hgt))
  rw [rank, hfilter, (hnodup.sublist (List.take_sublist i vals)).dedup, List.length_take]
  omega

/-- Of different values, so many have fewer than `k` above them. -/
theorem length_filter_rank {vals : List β} (hvals : vals.Nodup) (k : Nat) :
    (vals.filter (fun v => decide (rank gt vals v < k))).length = min k vals.length := by
  obtain ⟨s, hperm, hsorted⟩ : ∃ s : List β, s.Perm vals ∧ s.Pairwise (fun a b => gt a b = true) := by
    have hle := List.pairwise_mergeSort (@order_not_trans β gt _) order_not_total vals
    have hperm := List.mergeSort_perm vals (fun a b => !gt b a)
    refine ⟨_, hperm, ?_⟩
    refine (hle.and (hperm.nodup_iff.mpr hvals)).imp (fun h => ?_)
    exact order_of_not h.2 (by simpa using h.1)
  have hrank (v : β) : rank gt vals v = rank gt s v := rank_congr (fun a => hperm.mem_iff.symm) v
  simp only [hrank]
  rw [← (hperm.filter _).length_eq, filter_eq_take_of_index (k := k), List.length_take,
    hperm.length_eq]
  intro i hi
  rw [rank_of_sorted hsorted i hi, decide_eq_true_eq]

end Rank

section Runs

variable {r : α → α → Bool} {key : α → κ}

theorem same_key_of_mem_splitBy (hr : ∀ a b, r a b = true ↔ key a = key b) {l run : List α}
    (h : run ∈ l.splitBy r) {a b : α} (ha : a ∈ run) (hb : b ∈ run) : key a = key b := by
  have hchain : run.IsChain (fun a b => key a = key b) :=
    (List.isChain_of_mem_splitBy h).imp (fun a b => (hr a b).mp)
  have : IsTrans α (fun a b => key a = key b) := ⟨fun _ _ _ => Eq.trans⟩
  have hpair := List.isChain_iff_pairwise.mp hchain
  have hsame : ∀ ⦃a⦄, a ∈ run → ∀ ⦃b⦄, b ∈ run → key a = key b :=
    List.Pairwise.forall_of_forall_of_flip (fun _ _ => rfl) hpair (hpair.imp Eq.symm)
  exact hsame ha hb

variable [DecidableEq κ]

/-- The elements with one key are those of the runs that have it. -/
theorem filter_key_eq_flatten (hr : ∀ a b, r a b = true ↔ key a = key b) (l : List α) (k : κ) :
    l.filter (fun a => key a = k) =
      ((l.splitBy r).filter (fun run => run.any (fun a => key a = k))).flatten := by
  have hruns (runs : List (List α)) (hruns : ∀ run ∈ runs, ∀ a ∈ run, ∀ b ∈ run, key a = key b) :
      runs.flatten.filter (fun a => key a = k)
        = (runs.filter (fun run => run.any (fun a => key a = k))).flatten := by
    induction runs with
    | nil => rfl
    | cons run runs ih =>
      obtain ⟨hrun, hrest⟩ := List.forall_mem_cons.mp hruns
      rw [List.flatten_cons, List.filter_append, ih hrest, List.filter_cons]
      cases hany : run.any (fun a => key a = k) with
      | true =>
        obtain ⟨a, ha, hk⟩ := List.any_eq_true.mp hany
        have hself : run.filter (fun a => key a = k) = run := by
          rw [List.filter_eq_self]
          exact fun b hb => decide_eq_true ((hrun b hb a ha).trans (of_decide_eq_true hk))
        rw [hself]
        rfl
      | false =>
        have hnone : run.filter (fun a => key a = k) = [] := by
          rw [List.filter_eq_nil_iff]
          exact fun b hb hk => Bool.false_ne_true
            (hany.symm.trans (List.any_eq_true.mpr ⟨b, hb, hk⟩))
        rw [hnone]
        rfl
  rw [← hruns (l.splitBy r)
    (fun run hrun a ha b hb => same_key_of_mem_splitBy hr hrun ha hb), List.flatten_splitBy]

/-- The elements with one key that stand together are one run. -/
theorem filter_key_mem_splitBy (hr : ∀ a b, r a b = true ↔ key a = key b) {l : List α} {k : κ}
    (hne : l.filter (fun a => key a = k) ≠ []) (h : l.filter (fun a => key a = k) <:+: l) :
    l.filter (fun a => key a = k) ∈ l.splitBy r := by
  obtain ⟨front, back, hl⟩ := h
  obtain ⟨m, hm⟩ : ∃ m, l.filter (fun a => key a = k) = m := ⟨_, rfl⟩
  rw [hm] at hl hne ⊢
  have hkey : ∀ a ∈ m, key a = k := by
    intro a ha
    rw [← hm] at ha
    exact of_decide_eq_true (List.mem_filter.mp ha).2
  have hlen := congrArg List.length hm
  rw [← hl, List.filter_append, List.filter_append, List.length_append, List.length_append,
    List.filter_eq_self.mpr (fun a ha => decide_eq_true (hkey a ha))] at hlen
  have hfront : ∀ a ∈ front, key a ≠ k := by
    have h0 : front.filter (fun a => key a = k) = [] := List.length_eq_zero_iff.mp (by omega)
    intro a ha hk
    exact List.filter_eq_nil_iff.mp h0 a ha (decide_eq_true hk)
  have hback : ∀ a ∈ back, key a ≠ k := by
    have h0 : back.filter (fun a => key a = k) = [] := List.length_eq_zero_iff.mp (by omega)
    intro a ha hk
    exact List.filter_eq_nil_iff.mp h0 a ha (decide_eq_true hk)
  have hchain : m.IsChain (fun a b => r a b = true) := by
    refine List.Pairwise.isChain (List.pairwise_of_forall_mem_list ?_)
    intro a ha b hb
    exact (hr a b).mpr ((hkey a ha).trans (hkey b hb).symm)
  rw [← hl, List.splitBy_append, List.splitBy_append, List.splitBy_of_isChain hne hchain]
  · exact List.mem_append_left _ (List.mem_append_right _ List.mem_cons_self)
  · intro a ha b hb
    rw [← Bool.not_eq_true, hr]
    intro hab
    exact hfront a (List.mem_of_getLast? ha) (hab.trans (hkey b (List.mem_of_mem_head? hb)))
  · intro a ha b hb
    rw [List.getLast?_append_of_ne_nil _ hne] at ha
    rw [← Bool.not_eq_true, hr]
    intro hab
    exact hback b (List.mem_of_mem_head? hb) (hab.symm.trans (hkey a (List.mem_of_getLast? ha)))

/-- Parts that are cut one by one keep more than the whole, unless there is only one. -/
theorem eq_singleton_of_sum_min {k : Nat} (hk : 0 < k) {runs : List (List α)}
    (hne : ∀ run ∈ runs, run ≠ [])
    (hsum : (runs.map (fun run => min k run.length)).sum = min k runs.flatten.length)
    (hlong : k < runs.flatten.length) : ∃ run, runs = [run] := by
  have hle (runs : List (List α)) :
      min k runs.flatten.length ≤ (runs.map (fun run => min k run.length)).sum := by
    induction runs with
    | nil => simp
    | cons run runs ih =>
      rw [List.flatten_cons, List.length_append, List.map_cons, List.sum_cons]
      omega
  cases runs with
  | nil => simp at hlong
  | cons run runs =>
    cases runs with
    | nil => exact ⟨run, rfl⟩
    | cons run' runs =>
      have hrest := hle (run' :: runs)
      have hpos := List.length_pos_of_ne_nil (hne run List.mem_cons_self)
      have hpos' := List.length_pos_of_ne_nil (hne run' (List.mem_cons_of_mem _ List.mem_cons_self))
      rw [List.map_cons, List.sum_cons, List.flatten_cons, List.length_append] at hsum
      rw [List.flatten_cons, List.length_append] at hlong
      rw [List.flatten_cons, List.length_append] at hrest hsum hlong
      omega

end Runs

end Acng.Lib
