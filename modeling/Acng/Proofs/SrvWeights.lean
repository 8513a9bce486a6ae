import Acng.SrvWeights
import Mathlib.Data.Prod.Lex

namespace Acng
open Lib

section Reply

variable {all : List SrvReply} {random : List Nat}

theorem foldl_max_le {start k : Nat} : all.foldl (fun m p => max p.weight m) start ≤ k ↔
    start ≤ k ∧ ∀ p ∈ all, p.weight ≤ k := by
  induction all generalizing start with
  | nil => simp
  | cons p all ih =>
    rw [List.foldl_cons, ih, List.forall_mem_cons, Nat.max_le]
    tauto

theorem maxWeight_le {k : Nat} : maxWeight all ≤ k ↔ 1 ≤ k ∧ ∀ p ∈ all, p.weight ≤ k := foldl_max_le

theorem maxWeight_pos : 0 < maxWeight all := (maxWeight_le.mp (Nat.le_refl _)).1

theorem weight_le_maxWeight {p : SrvReply} (hp : p ∈ all) : p.weight ≤ maxWeight all :=
  (maxWeight_le.mp (Nat.le_refl _)).2 p hp

/-- The largest weight is that of a service, unless all are zero. -/
theorem maxWeight_mem (hone : 1 < maxWeight all) : ∃ p ∈ all, p.weight = maxWeight all := by
  by_contra hnone
  push Not at hnone
  have hless : maxWeight all ≤ maxWeight all - 1 := by
    refine maxWeight_le.mpr ⟨by omega, fun p hp => ?_⟩
    have hlt := Nat.lt_of_le_of_ne (weight_le_maxWeight hp) (hnone p hp)
    omega
  omega

/-- A number that was not drawn counts as zero. -/
theorem getD_le {k : Nat} (hrandom : ∀ n ∈ random, n ≤ k) (i : Nat) : random.getD i 0 ≤ k := by
  rw [List.getD_eq_getElem?_getD]
  cases hi : random[i]? with
  | none => exact Nat.zero_le k
  | some n => exact hrandom n (List.mem_of_getElem? hi)

theorem mem_srvRolls {r : SrvRoll} : r ∈ srvRolls all random ↔
    ∃ i p, all[i]? = some p ∧ r = ⟨p, scaleDown INT_MAX (maxWeight all) (random.getD i 0)⟩ := by
  rw [srvRolls, List.mem_mapIdx]
  constructor
  · rintro ⟨i, hi, rfl⟩
    exact ⟨i, all[i], List.getElem?_eq_getElem hi, rfl⟩
  · rintro ⟨i, p, hp, rfl⟩
    obtain ⟨hi, rfl⟩ := List.getElem?_eq_some_iff.mp hp
    exact ⟨i, hi, rfl⟩

/-- The random numbers are brought below the largest weight, as they should. -/
theorem scaled_lt_maxWeight (hrandom : ∀ n ∈ random, n ≤ INT_MAX) {r : SrvRoll} (hr : r ∈ srvRolls all random) :
    r.scaled < maxWeight all := by
  obtain ⟨i, p, -, rfl⟩ := mem_srvRolls.mp hr
  exact scaleDown_lt maxWeight_pos (getD_le hrandom i)

end Reply

section Stored

variable {all : List SrvReply} {random : List Nat}

theorem SrvRoll.stored_exact (r : SrvRoll) : r.stored.weight = r.product ↔ r.product < 2 ^ 16 :=
  Nat.mod_eq_iff_lt (by decide)

/-- For one run: which random number cuts off which weight. -/
theorem exact_iff :
    (∀ r ∈ srvRolls all random, r.stored.weight = r.product) ↔
      ∀ i p, all[i]? = some p →
        p.weight = 0 ∨ random.getD i 0 < (65535 / p.weight + 1) * (INT_MAX / maxWeight all + 1) := by
  constructor
  · intro hexact i p hp
    have hlt := (SrvRoll.stored_exact _).mp (hexact _ (mem_srvRolls.mpr ⟨i, p, hp, rfl⟩))
    exact (mul_scaleDown_lt_iff p.weight (by decide)).mp hlt
  · intro hless r hr
    obtain ⟨i, p, hp, rfl⟩ := mem_srvRolls.mp hr
    exact (SrvRoll.stored_exact _).mpr ((mul_scaleDown_lt_iff p.weight (by decide)).mpr (hless i p hp))

/-- For all runs: the largest weight decides. -/
theorem exact_always_iff :
    (∀ random, (∀ n ∈ random, n ≤ INT_MAX) → ∀ r ∈ srvRolls all random, r.stored.weight = r.product) ↔
      maxWeight all ≤ 256 := by
  rw [← mul_scaleDown_lt_sq_iff maxWeight_pos (by decide : (256 + 1) * 256 ≤ INT_MAX)]
  constructor
  · intro hexact n hn
    obtain hone | hone := Nat.lt_or_ge 1 (maxWeight all)
    · obtain ⟨p, hp, hmax⟩ := maxWeight_mem hone
      obtain ⟨i, hi⟩ := List.mem_iff_getElem?.mp hp
      have hdrawn : (List.replicate (i + 1) n).getD i 0 = n := by simp
      have hroll := hexact (List.replicate (i + 1) n) (fun m hm => List.eq_of_mem_replicate hm ▸ hn) _
        (mem_srvRolls.mpr ⟨i, p, hi, rfl⟩)
      rw [SrvRoll.stored_exact, SrvRoll.product, hdrawn, hmax] at hroll
      exact hroll
    · calc maxWeight all * scaleDown INT_MAX (maxWeight all) n
          ≤ 1 * maxWeight all := Nat.mul_le_mul hone (Nat.le_of_lt (scaleDown_lt maxWeight_pos hn))
        _ < 256 ^ 2 := by omega
  · intro hlt random hrandom r hr
    obtain ⟨i, p, hp, rfl⟩ := mem_srvRolls.mp hr
    refine (SrvRoll.stored_exact _).mpr (Nat.lt_of_le_of_lt ?_ (hlt _ (getD_le hrandom i)))
    exact Nat.mul_le_mul_right _ (weight_le_maxWeight (List.mem_of_getElem? hp))

end Stored

section Order

variable {all : List SrvReply} {random : List Nat}

/-- What `comp` compares: the priority first, and a larger weight is less. -/
def SrvRoll.key (r : SrvRoll) : ℕ ×ₗ ℕᵒᵈ := toLex (r.stored.priority, OrderDual.toDual r.stored.weight)

theorem SrvRoll.less_iff (a b : SrvRoll) : a.less b = true ↔ a.key < b.key := by
  rw [SrvRoll.key, SrvRoll.key, Prod.Lex.toLex_lt_toLex, OrderDual.toDual_lt_toDual, SrvRoll.less,
    DnsContext.srvLess]
  split
  · rename_i hlt
    simp [hlt]
  · rename_i hle
    split
    · rename_i hgt
      simp [hle, Nat.ne_of_gt hgt]
    · rename_i hge
      simp [Nat.le_antisymm (Nat.not_lt.mp hge) (Nat.not_lt.mp hle)]

/-- Weights that are not cut off are enough for the order. -/
theorem ordered_of_exact (hexact : ∀ r ∈ srvRolls all random, r.stored.weight = r.product) {order : List SrvRoll}
    (h : SortedBy SrvRoll.less (srvTargets all random) order) :
    order.Pairwise (fun a b => a.reply.priority < b.reply.priority ∨
      a.reply.priority = b.reply.priority ∧ b.product ≤ a.product) := by
  have hmem (r : SrvRoll) (hr : r ∈ order) : r ∈ srvRolls all random :=
    (List.mem_filter.mp (h.perm.mem_iff.mp hr)).1
  refine (h.key_le SrvRoll.less_iff).imp_of_mem (fun {a b} ha hb hle => ?_)
  rw [SrvRoll.key, SrvRoll.key, Prod.Lex.toLex_le_toLex] at hle
  obtain hlt | ⟨hprio, hweight⟩ := hle
  · exact .inl hlt
  · refine .inr ⟨hprio, ?_⟩
    rw [← hexact a (hmem a ha), ← hexact b (hmem b hb)]
    exact hweight

theorem weightsKept_iff : WeightsKept all random ↔ ∀ r ∈ srvRolls all random, r.stored.weight = r.product := by
  refine ⟨WeightsKept.exact, fun hexact => ⟨hexact, fun order h => ?_⟩⟩
  refine (ordered_of_exact hexact h).imp (fun {a b} hlex hprio => ?_)
  exact (hlex.resolve_left (Nat.ne_of_lt · hprio)).2

/-- The weights are kept whatever `random` gives exactly if none is above 256, and otherwise it depends
on the numbers: each has to be below a limit. -/
theorem weightsKept_exact (all : List SrvReply) :
    ((∀ random, (∀ n ∈ random, n ≤ INT_MAX) → WeightsKept all random) ↔ ∀ p ∈ all, p.weight ≤ 256) ∧
      ∀ random, WeightsKept all random ↔ ∀ i p, all[i]? = some p →
        p.weight = 0 ∨ random.getD i 0 < (65535 / p.weight + 1) * (INT_MAX / maxWeight all + 1) := by
  refine ⟨?_, fun random => weightsKept_iff.trans exact_iff⟩
  simp only [weightsKept_iff]
  rw [exact_always_iff, maxWeight_le, and_iff_right (by decide)]

/-- Two services with one priority. The second one has the larger product, which is cut off, and it is
asked for last. -/
theorem larger_product_last :
    (∀ n ∈ [1431655800, 2147483647], n ≤ INT_MAX) ∧
      ¬ WeightsKept [⟨some (lit "a"), 0, 299⟩, ⟨some (lit "b"), 0, 300⟩] [1431655800, 2147483647] ∧
      (srvOrder [⟨some (lit "a"), 0, 299⟩, ⟨some (lit "b"), 0, 300⟩] [1431655800, 2147483647]).map
        (fun r => (r.reply.host, r.product, r.stored.weight)) =
          [(some (lit "a"), 59800, 59800), (some (lit "b"), 89700, 24164)] := by
  refine ⟨by decide, fun h => ?_, ?_⟩
  · exact absurd (weightsKept_iff.mp h) (by decide +kernel)
  · rw [srvOrder, List.mergeSort_of_pairwise (by decide +kernel)]
    decide +kernel

theorem srvOrder_sortedBy : SortedBy SrvRoll.less (srvTargets all random) (srvOrder all random) :=
  sortedBy_mergeSort SrvRoll.less_iff (srvTargets all random)

/-- Where no weight is above 256, the order is the intended one. -/
theorem srvOrder_products (hweights : ∀ p ∈ all, p.weight ≤ 256) (hrandom : ∀ n ∈ random, n ≤ INT_MAX) :
    (srvOrder all random).Pairwise (fun a b => a.reply.priority < b.reply.priority ∨
      a.reply.priority = b.reply.priority ∧ b.product ≤ a.product) := by
  have hmax : maxWeight all ≤ 256 := maxWeight_le.mpr ⟨by decide, hweights⟩
  exact ordered_of_exact (exact_always_iff.mpr hmax random hrandom) srvOrder_sortedBy

end Order

section Asked

variable (c : DnsContext) (all : List SrvReply) (random : List Nat)

/-- The hosts that are asked for are the first of this order, and the host itself as the last resort. -/
theorem srvHosts_order : c.srvHosts ARES_SUCCESS (some all) random =
    ((srvOrder all random).take DNS_MAX_PER_REQUEST).filterMap (·.reply.host) ++
      if all.any (·.host = some c.sHost) then [] else [c.sHost] := by
  have hstored : (srvOrder all random).map SrvRoll.stored =
      (((srvRolls all random).map SrvRoll.stored).filter (·.host.isSome)).mergeSort
        (fun a b => !DnsContext.srvLess b a) := by
    rw [srvOrder, srvTargets, List.filter_map]
    exact List.map_mergeSort (fun _ _ _ _ => rfl)
  have hrolled : (srvRolls all random).map SrvRoll.stored = all.mapIdx (fun i p =>
      { p with weight := p.weight * (random.getD i 0 / (INT_MAX / maxWeight all + 1)) % 2 ^ 16 }) := by
    refine List.ext_getElem? (fun i => ?_)
    rw [srvRolls, List.getElem?_map, List.getElem?_mapIdx, List.getElem?_mapIdx, Option.map_map]
    rfl
  have hhosts : ((srvOrder all random).take DNS_MAX_PER_REQUEST).filterMap (·.reply.host) =
      (((srvOrder all random).map SrvRoll.stored).take DNS_MAX_PER_REQUEST).filterMap (·.host) := by
    rw [← List.map_take, List.filterMap_map]
    rfl
  rw [hhosts, hstored, hrolled]
  simp only [DnsContext.srvHosts, decide_true]
  split
  · rw [List.append_nil]
    rfl
  · rfl

theorem newTasks_hosts (hosts : List Bytes) (instant : List (Option (Int × Option (List AddrNode)))) :
    (DnsContext.newTasks hosts instant).map (·.host) = hosts := by
  refine List.ext_getElem? (fun i => ?_)
  rw [DnsContext.newTasks, List.getElem?_map, List.getElem?_mapIdx, Option.map_map]
  refine (congrFun (congrArg Option.map (funext fun host => ?_)) hosts[i]?).trans (congrFun Option.map_id hosts[i]?)
  cases hnow : instant.getD i none with
  | none => simp
  | some answer => simp

/-- A good answer: the lookups of these hosts are added to those of the context. -/
theorem srvQuery_hosts (s : DnsState) (instant : List (Option (Int × Option (List AddrNode)))) :
    (s.srvQuery c ARES_SUCCESS (some all) random instant).2.tasks.map (·.host) =
      c.tasks.map (·.host) ++ (((srvOrder all random).take DNS_MAX_PER_REQUEST).filterMap (·.reply.host) ++
        if all.any (·.host = some c.sHost) then [] else [c.sHost]) := by
  have hhosts := srvHosts_order { c with asked := false } all random
  rw [DnsState.srvQuery, if_neg (by decide), if_neg (by decide), List.map_append, newTasks_hosts, hhosts]

end Asked

end Acng
