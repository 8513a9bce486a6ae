import Acng.AddrList
import Mathlib.Data.List.Nodup

namespace Acng
open Lib

theorem AddrInfo.same_iff (a b : AddrInfo) : a.same b = true ↔ a = b := by
  obtain ⟨family, addr⟩ := a
  obtain ⟨family', addr'⟩ := b
  simp only [same, Bool.and_eq_true, beq_iff_eq, List.take_length, AddrInfo.mk.injEq]
  constructor
  · rintro ⟨⟨hlen, rfl⟩, haddr⟩
    rw [← hlen, List.take_length] at haddr
    exact ⟨rfl, haddr⟩
  · rintro ⟨rfl, rfl⟩
    exact ⟨⟨rfl, rfl⟩, (List.take_length).symm⟩

namespace DnsContext

/-- The addresses of the nodes that can be used for connections. -/
def usable (nodes : List AddrNode) : List AddrInfo :=
  (nodes.filter (fun p => p.socktype = SOCK_STREAM && p.protocol = IPPROTO_TCP)).map (·.info)

theorem find_same (dedup : List AddrInfo) (a : AddrInfo) :
    (dedup.find? (fun b => b.same a)).isSome = dedup.contains a := by
  rw [Bool.eq_iff_iff, List.find?_isSome, List.contains_iff_mem]
  exact ⟨fun ⟨b, hb, hsame⟩ => (AddrInfo.same_iff b a).mp hsame ▸ hb,
    fun ha => ⟨a, ha, (AddrInfo.same_iff a a).mpr rfl⟩⟩

/-- A new address comes behind those that are there. -/
theorem collectNodes_eq (nodes : List AddrNode) (dedup : List AddrInfo) :
    collectNodes nodes dedup = dedup ++ ((usable nodes).filter (fun a => !dedup.contains a)).eraseDups := by
  induction nodes generalizing dedup with
  | nil => simp [collectNodes, usable]
  | cons pCur nodes ih =>
    rw [collectNodes]
    by_cases hskip : pCur.socktype ≠ SOCK_STREAM ∨ pCur.protocol ≠ IPPROTO_TCP
    · have hcons : usable (pCur :: nodes) = usable nodes := by
        rw [usable, List.filter_cons_of_neg, usable]
        rw [Bool.and_eq_true, decide_eq_true_eq, decide_eq_true_eq]
        exact not_and_or.mpr hskip
      rw [if_pos hskip, ih, hcons]
    · have hcons : usable (pCur :: nodes) = pCur.info :: usable nodes := by
        rw [usable, List.filter_cons_of_pos, List.map_cons, usable]
        rw [Bool.and_eq_true, decide_eq_true_eq, decide_eq_true_eq]
        exact not_or.mp hskip |>.imp not_not.mp not_not.mp
      have hsame := find_same dedup pCur.info
      rw [if_neg hskip, hcons]
      cases hfind : dedup.find? (fun b => b.same pCur.info) with
      | some b =>
        rw [hfind] at hsame
        rw [List.filter_cons_of_neg (by rw [← hsame]; simp)]
        exact ih dedup
      | none =>
        rw [hfind] at hsame
        rw [List.filter_cons_of_pos (by rw [← hsame]; simp), List.eraseDups_cons, List.filter_filter]
        dsimp only
        rw [ih, List.append_assoc, List.singleton_append]
        congr 3
        refine List.filter_congr (fun a _ => ?_)
        simp [Bool.and_comm, Bool.beq_eq_decide_eq]

theorem collectNodes_append (nodes nodes' : List AddrNode) (dedup : List AddrInfo) :
    collectNodes (nodes ++ nodes') dedup = collectNodes nodes' (collectNodes nodes dedup) := by
  induction nodes generalizing dedup with
  | nil => rfl
  | cons pCur nodes ih =>
    rw [List.cons_append, collectNodes, collectNodes]
    split
    · exact ih dedup
    · split
      · exact ih dedup
      · exact ih _

/-- The nodes of all tasks that have a result. -/
def allNodes (tasks : List DnsTask) : List AddrNode := tasks.flatMap (fun t => t.results.getD [])

theorem collectTasks_eq (tasks : List DnsTask) (dedup : List AddrInfo) :
    collectTasks tasks dedup = collectNodes (allNodes tasks) dedup := by
  induction tasks generalizing dedup with
  | nil => rfl
  | cons taskCtx tasks ih =>
    rw [collectTasks, allNodes, List.flatMap_cons, ← allNodes]
    cases hres : taskCtx.results with
    | none => exact ih dedup
    | some tres =>
      rw [Option.getD_some, collectNodes_append]
      exact ih _

/-- The loop makes the addresses of the context, each of them once. -/
theorem collectTasks_dedup (c : DnsContext) : collectTasks c.tasks [] = c.dedup := by
  rw [collectTasks_eq, collectNodes_eq, List.nil_append]
  simp only [List.contains_nil, Bool.not_false, List.filter_true]
  rfl

def allowed (cfg : DnsCfg) (a : AddrInfo) : Bool :=
  (wants cfg PF_INET && a.family = PF_INET) || (wants cfg PF_INET6 && a.family = PF_INET6)

def ofFamily (family : Nat) (infos : List AddrInfo) : List AddrInfo := infos.filter (·.family = family)

theorem ofFamily_same {family : Nat} {a : AddrInfo} (h : a.family = family) (infos : List AddrInfo) :
    ofFamily family (a :: infos) = a :: ofFamily family infos :=
  List.filter_cons_of_pos (by simpa using h)

theorem ofFamily_other {family : Nat} {a : AddrInfo} (h : a.family ≠ family) (infos : List AddrInfo) :
    ofFamily family (a :: infos) = ofFamily family infos :=
  List.filter_cons_of_neg (by simpa using h)

/-- The queues have the first addresses of families that are allowed. -/
theorem fillQueues_eq (cfg : DnsCfg) (dedup q4 q6 : List AddrInfo) :
    fillQueues cfg dedup q4 q6 =
      (q4 ++ ofFamily PF_INET ((dedup.filter (allowed cfg)).take (MAX_ADDR - (q4.length + q6.length))),
        q6 ++ ofFamily PF_INET6 ((dedup.filter (allowed cfg)).take (MAX_ADDR - (q4.length + q6.length)))) := by
  induction dedup generalizing q4 q6 with
  | nil => simp [fillQueues, ofFamily]
  | cons front dedup ih =>
    rw [fillQueues]
    by_cases hspace : q4.length + q6.length < MAX_ADDR
    · obtain ⟨n, hn⟩ : ∃ n, MAX_ADDR - (q4.length + q6.length) = n + 1 :=
        ⟨MAX_ADDR - (q4.length + q6.length) - 1, by omega⟩
      rw [if_pos hspace]
      cases h4 : wants cfg PF_INET && decide (front.family = PF_INET) with
      | true =>
        have hallowed : allowed cfg front = true := by rw [allowed, h4, Bool.true_or]
        have hfamily : front.family = PF_INET := of_decide_eq_true (Bool.and_eq_true_iff.mp h4).2
        have hother : front.family ≠ PF_INET6 := by
          rw [hfamily]
          decide
        have hless : MAX_ADDR - ((q4 ++ [front]).length + q6.length) = n := by
          rw [List.length_append, List.length_singleton]
          omega
        rw [if_pos rfl, ih, hless, hn, List.filter_cons_of_pos hallowed, List.take_succ_cons,
          ofFamily_same hfamily, ofFamily_other hother, List.append_assoc, List.singleton_append]
      | false =>
        rw [if_neg (by simp)]
        cases h6 : wants cfg PF_INET6 && decide (front.family = PF_INET6) with
        | true =>
          have hallowed : allowed cfg front = true := by rw [allowed, h6, Bool.or_true]
          have hfamily : front.family = PF_INET6 := of_decide_eq_true (Bool.and_eq_true_iff.mp h6).2
          have hother : front.family ≠ PF_INET := by
            rw [hfamily]
            decide
          have hless : MAX_ADDR - (q4.length + (q6 ++ [front]).length) = n := by
            rw [List.length_append, List.length_singleton]
            omega
          rw [if_pos rfl, ih, hless, hn, List.filter_cons_of_pos hallowed, List.take_succ_cons,
            ofFamily_other hother, ofFamily_same hfamily, List.append_assoc, List.singleton_append]
        | false =>
          have hnot : ¬ allowed cfg front = true := by rw [allowed, h4, h6]; simp
          rw [if_neg (by simp), ih, List.filter_cons_of_neg hnot]
    · have hzero : MAX_ADDR - (q4.length + q6.length) = 0 := by omega
      rw [if_neg hspace, hzero]
      simp [ofFamily]

theorem alternate_front (ys : List AddrInfo) : alternate [] ys = ys := rfl

theorem alternate_both (x y : AddrInfo) (xs ys : List AddrInfo) :
    alternate (x :: xs) (y :: ys) = x :: y :: alternate xs ys :=
  rfl

theorem alternate_cons (a : AddrInfo) (xs ys : List AddrInfo) :
    alternate (a :: xs) ys = a :: alternate ys xs := by
  induction ys generalizing a xs with
  | nil => cases xs <;> rfl
  | cons b ys ih =>
    cases xs with
    | nil => rfl
    | cons x xs => rw [alternate_both, ih x xs, alternate_both]

theorem alternate_nil (xs : List AddrInfo) : alternate xs [] = xs := by
  cases xs <;> rfl

theorem takeTurns_done (rounds : Nat) (sel6 : Bool) (infos : List AddrInfo) :
    takeTurns rounds sel6 [] [] infos = some infos := by
  cases rounds <;> rfl

theorem takeTurns_v6 (rounds : Nat) (q4 : List AddrInfo) (front : AddrInfo) (q6 infos : List AddrInfo) :
    takeTurns (rounds + 1) true q4 (front :: q6) infos = takeTurns rounds false q4 q6 (infos ++ [front]) := by
  change (if q4.length + (front :: q6).length = 0 then some infos else _) = _
  exact if_neg (by simp)

theorem takeTurns_v4 (rounds : Nat) (front : AddrInfo) (q4 q6 infos : List AddrInfo) :
    takeTurns (rounds + 1) false (front :: q4) q6 infos = takeTurns rounds true q4 q6 (infos ++ [front]) := by
  change (if (front :: q4).length + q6.length = 0 then some infos else _) = _
  exact if_neg (by simp)

/-- A round for an empty queue. -/
theorem takeTurns_flip (rounds : Nat) (front : AddrInfo) (q infos : List AddrInfo) :
    takeTurns (rounds + 1) true (front :: q) [] infos = takeTurns rounds false (front :: q) [] infos ∧
      takeTurns (rounds + 1) false [] (front :: q) infos = takeTurns rounds true [] (front :: q) infos := by
  constructor
  · change (if (front :: q).length + 0 = 0 then some infos else _) = _
    exact if_neg (by simp)
  · change (if 0 + (front :: q).length = 0 then some infos else _) = _
    exact if_neg (by simp)

/-- The selector flips until a queue has something: all is taken in turns. -/
theorem takeTurns_eq (rounds : Nat) (sel6 : Bool) (q4 q6 infos : List AddrInfo)
    (hrounds : 2 * (q4.length + q6.length) ≤ rounds) :
    takeTurns rounds sel6 q4 q6 infos =
      some (infos ++ if sel6 then alternate q6 q4 else alternate q4 q6) := by
  induction rounds using Nat.strongRecOn generalizing sel6 q4 q6 infos with
  | ind rounds ih =>
    cases q4 with
    | nil =>
      cases q6 with
      | nil => cases sel6 <;> simp [takeTurns_done, alternate_front]
      | cons front q6 =>
        rw [List.length_cons] at hrounds
        obtain ⟨n, rfl⟩ : ∃ n, rounds = n + 2 := ⟨rounds - 2, by omega⟩
        cases sel6 with
        | true =>
          rw [takeTurns_v6, ih (n + 1) (by omega) false [] q6 (infos ++ [front]) (by omega), if_neg (by simp),
            if_pos rfl, alternate_nil, alternate_front, List.append_assoc, List.singleton_append]
        | false =>
          rw [(takeTurns_flip (n + 1) front q6 infos).2, takeTurns_v6,
            ih n (by omega) false [] q6 (infos ++ [front]) (by omega), if_neg (by simp), if_neg (by simp),
            alternate_front, alternate_front, List.append_assoc, List.singleton_append]
    | cons front4 q4 =>
      rw [List.length_cons] at hrounds
      obtain ⟨n, rfl⟩ : ∃ n, rounds = n + 2 := ⟨rounds - 2, by omega⟩
      cases sel6 with
      | false =>
        rw [takeTurns_v4, ih (n + 1) (by omega) true q4 q6 (infos ++ [front4]) (by omega), if_pos rfl,
          if_neg (by simp), alternate_cons, List.append_assoc, List.singleton_append]
      | true =>
        cases q6 with
        | nil =>
          rw [(takeTurns_flip (n + 1) front4 q4 infos).1, takeTurns_v4,
            ih n (by omega) true q4 [] (infos ++ [front4]) (by simpa using by omega), if_pos rfl, if_pos rfl,
            alternate_front, alternate_front, List.append_assoc, List.singleton_append]
        | cons front q6 =>
          rw [List.length_cons] at hrounds
          rw [takeTurns_v6, ih (n + 1) (by omega) false (front4 :: q4) q6 (infos ++ [front])
            (by rw [List.length_cons]; omega), if_neg (by simp), if_pos rfl, alternate_cons front,
            List.append_assoc, List.singleton_append]

theorem alternate_perm (xs ys : List AddrInfo) : (alternate xs ys).Perm (xs ++ ys) := by
  fun_induction alternate xs ys with
  | case1 ys => exact List.Perm.refl _
  | case2 x xs => rw [List.append_nil]
  | case3 x xs y ys ih =>
    rw [List.cons_append]
    exact ((ih.cons y).trans List.perm_middle.symm).cons x

/-- A family that one of two lists consists of. -/
theorem ofFamily_alternate {family : Nat} {xs ys : List AddrInfo} (hxs : ∀ a ∈ xs, a.family = family)
    (hys : ∀ a ∈ ys, a.family ≠ family) :
    ofFamily family (alternate xs ys) = xs ∧ ofFamily family (alternate ys xs) = xs := by
  induction xs generalizing ys with
  | nil =>
    rw [alternate_nil, alternate_front]
    have hnone : ofFamily family ys = [] := List.filter_eq_nil_iff.mpr (fun a ha => by simpa using hys a ha)
    exact ⟨hnone, hnone⟩
  | cons x xs ih =>
    have hall : ofFamily family (x :: xs) = x :: xs :=
      List.filter_eq_self.mpr (fun a ha => by simpa using hxs a ha)
    obtain ⟨hx, hxs⟩ := List.forall_mem_cons.mp hxs
    cases ys with
    | nil =>
      rw [alternate_nil, alternate_front]
      exact ⟨hall, hall⟩
    | cons y ys =>
      obtain ⟨hy, hys⟩ := List.forall_mem_cons.mp hys
      obtain ⟨hfirst, hsecond⟩ := ih hxs hys
      rw [alternate_both, alternate_both, ofFamily_same hx, ofFamily_other hy, hfirst, ofFamily_other hy,
        ofFamily_same hx, hsecond]
      exact ⟨rfl, rfl⟩

/-- As long as both lists have something. -/
theorem alternate_getElem (xs ys : List AddrInfo) (i : Nat) (hi : i < 2 * min xs.length ys.length) :
    (alternate xs ys)[i]? = if i % 2 = 0 then xs[i / 2]? else ys[i / 2]? := by
  induction xs generalizing ys i with
  | nil => simp at hi
  | cons x xs ih =>
    cases ys with
    | nil => simp at hi
    | cons y ys =>
      rw [alternate_both]
      match i with
      | 0 => rfl
      | 1 => rfl
      | i + 2 =>
        have hhalf : (i + 2) / 2 = i / 2 + 1 := by omega
        have hless : i < 2 * min xs.length ys.length := by
          simp only [List.length_cons] at hi
          omega
        rw [List.getElem?_cons_succ, List.getElem?_cons_succ, ih ys i hless, Nat.add_mod_right, hhalf,
          List.getElem?_cons_succ, List.getElem?_cons_succ]

theorem nodup_eraseDups (infos : List AddrInfo) : infos.eraseDups.Nodup := by
  induction hn : infos.length using Nat.strongRecOn generalizing infos with
  | ind n ih =>
    cases infos with
    | nil => exact List.nodup_nil
    | cons a infos =>
      rw [List.eraseDups_cons]
      have hless : (infos.filter (fun b => !b == a)).length < n := by
        have := List.length_filter_le (fun b => !b == a) infos
        rw [List.length_cons] at hn
        omega
      refine List.nodup_cons.mpr ⟨?_, ih _ hless _ rfl⟩
      rw [List.mem_eraseDups]
      simp

/-- The family that the list begins with, and the other one. -/
def preferred (cfg : DnsCfg) : Nat :=
  if cfg.conprotos.1 = PF_INET6 || cfg.conprotos.1 = PF_UNSPEC then PF_INET6 else PF_INET

def other (cfg : DnsCfg) : Nat :=
  if cfg.conprotos.1 = PF_INET6 || cfg.conprotos.1 = PF_UNSPEC then PF_INET else PF_INET6

/-- What the list of addresses has to be for the results of some lookups. -/
structure RightList (cfg : DnsCfg) (tasks : List DnsTask) (infos : List AddrInfo) : Prop where
  nodup : infos.Nodup
  short : infos.length ≤ MAX_ADDR
  allowed : ∀ a ∈ infos, a ∈ usable (allNodes tasks) ∧ allowed cfg a = true
  order : ∀ family, (ofFamily family infos).Sublist (usable (allNodes tasks)).eraseDups
  turns : ∀ i < 2 * min (ofFamily PF_INET infos).length (ofFamily PF_INET6 infos).length,
    infos[i]?.map (·.family) = some (if i % 2 = 0 then preferred cfg else other cfg)
  complete : ∀ distinct : List AddrInfo, distinct.Nodup →
    (∀ a, a ∈ distinct ↔ a ∈ usable (allNodes tasks) ∧ DnsContext.allowed cfg a = true) →
    distinct.length ≤ MAX_ADDR → ∀ a ∈ distinct, a ∈ infos

/-- The two queues of a context. -/
def queue (cfg : DnsCfg) (tasks : List DnsTask) (family : Nat) : List AddrInfo :=
  ofFamily family (((usable (allNodes tasks)).eraseDups.filter (allowed cfg)).take MAX_ADDR)

theorem queue_family {cfg : DnsCfg} {tasks : List DnsTask} {family : Nat} {a : AddrInfo}
    (ha : a ∈ queue cfg tasks family) : a.family = family := by
  simpa using (List.mem_filter.mp ha).2

theorem queue_sublist (cfg : DnsCfg) (tasks : List DnsTask) (family : Nat) :
    (queue cfg tasks family).Sublist (usable (allNodes tasks)).eraseDups :=
  List.filter_sublist.trans ((List.take_sublist _ _).trans List.filter_sublist)

/-- The queues together are the first addresses that are allowed. -/
theorem queue_perm (cfg : DnsCfg) (tasks : List DnsTask) :
    (queue cfg tasks PF_INET ++ queue cfg tasks PF_INET6).Perm
      (((usable (allNodes tasks)).eraseDups.filter (allowed cfg)).take MAX_ADDR) := by
  have hnot : (((usable (allNodes tasks)).eraseDups.filter (allowed cfg)).take MAX_ADDR).filter
      (fun a => !decide (a.family = PF_INET)) = queue cfg tasks PF_INET6 := by
    refine List.filter_congr (fun a ha => ?_)
    have hallowed : allowed cfg a = true := (List.mem_filter.mp (List.mem_of_mem_take ha)).2
    rw [allowed, Bool.or_eq_true, Bool.and_eq_true, Bool.and_eq_true, decide_eq_true_eq, decide_eq_true_eq]
      at hallowed
    obtain ⟨-, hfamily⟩ | ⟨-, hfamily⟩ := hallowed <;> rw [hfamily] <;> rfl
  rw [← hnot]
  exact List.filter_append_perm _ _

theorem preferred_cases (cfg : DnsCfg) :
    preferred cfg = PF_INET6 ∧ other cfg = PF_INET ∨ preferred cfg = PF_INET ∧ other cfg = PF_INET6 := by
  rw [preferred, other]
  split
  · exact .inl ⟨rfl, rfl⟩
  · exact .inr ⟨rfl, rfl⟩

theorem queue_getElem {cfg : DnsCfg} {tasks : List DnsTask} {family i : Nat}
    (hi : i < (queue cfg tasks family).length) :
    (queue cfg tasks family)[i]?.map (·.family) = some family := by
  rw [List.getElem?_eq_getElem hi, Option.map_some, queue_family (List.getElem_mem hi)]

theorem rightList_alternate (cfg : DnsCfg) (tasks : List DnsTask) :
    RightList cfg tasks (alternate (queue cfg tasks (preferred cfg)) (queue cfg tasks (other cfg))) := by
  have hpair := preferred_cases cfg
  have hne : other cfg ≠ preferred cfg := by
    obtain ⟨hp, ho⟩ | ⟨hp, ho⟩ := hpair <;> rw [hp, ho] <;> decide
  have hperm : (alternate (queue cfg tasks (preferred cfg)) (queue cfg tasks (other cfg))).Perm
      (((usable (allNodes tasks)).eraseDups.filter (allowed cfg)).take MAX_ADDR) := by
    refine (alternate_perm _ _).trans ?_
    obtain ⟨hp, ho⟩ | ⟨hp, ho⟩ := hpair
    · rw [hp, ho]
      exact List.perm_append_comm.trans (queue_perm cfg tasks)
    · rw [hp, ho]
      exact queue_perm cfg tasks
  have hfirst := (ofFamily_alternate (fun a ha => queue_family ha)
    (fun a (ha : a ∈ queue cfg tasks (other cfg)) => by rw [queue_family ha]; exact hne) :
      ofFamily (preferred cfg) (alternate (queue cfg tasks (preferred cfg)) (queue cfg tasks (other cfg))) =
        queue cfg tasks (preferred cfg) ∧ _).1
  have hsecond := (ofFamily_alternate (fun a ha => queue_family ha)
    (fun a (ha : a ∈ queue cfg tasks (preferred cfg)) => by rw [queue_family ha]; exact hne.symm) :
      _ ∧ ofFamily (other cfg) (alternate (queue cfg tasks (preferred cfg)) (queue cfg tasks (other cfg))) =
        queue cfg tasks (other cfg)).2
  constructor
  · refine hperm.nodup_iff.mpr ?_
    exact ((List.take_sublist _ _).trans List.filter_sublist).nodup (nodup_eraseDups _)
  · rw [hperm.length_eq]
    exact List.length_take_le _ _
  · intro a ha
    obtain ⟨hmem, hallowed⟩ := List.mem_filter.mp (List.mem_of_mem_take (hperm.mem_iff.mp ha))
    exact ⟨List.mem_eraseDups.mp hmem, hallowed⟩
  · intro family
    by_cases hp : family = preferred cfg
    · rw [hp, hfirst]
      exact queue_sublist cfg tasks _
    · by_cases ho : family = other cfg
      · rw [ho, hsecond]
        exact queue_sublist cfg tasks _
      · have hnone : ofFamily family (alternate (queue cfg tasks (preferred cfg))
            (queue cfg tasks (other cfg))) = [] := by
          refine List.filter_eq_nil_iff.mpr (fun a ha => ?_)
          obtain ha | ha := List.mem_append.mp ((alternate_perm _ _).mem_iff.mp ha)
          · simpa [queue_family ha] using Ne.symm hp
          · simpa [queue_family ha] using Ne.symm ho
        rw [hnone]
        exact List.nil_sublist _
  · intro i hi
    have hlen : i < 2 * min (queue cfg tasks (preferred cfg)).length (queue cfg tasks (other cfg)).length := by
      obtain ⟨hp, ho⟩ | ⟨hp, ho⟩ := hpair
      · rwa [← hp, ← ho, hfirst, hsecond, Nat.min_comm] at hi
      · rwa [← hp, ← ho, hfirst, hsecond] at hi
    rw [alternate_getElem _ _ i hlen]
    split
    · exact queue_getElem (by omega)
    · exact queue_getElem (by omega)
  · intro distinct hnodup hmem hlen a ha
    have hsame : distinct.Perm ((usable (allNodes tasks)).eraseDups.filter (allowed cfg)) := by
      refine (List.perm_ext_iff_of_nodup hnodup ((nodup_eraseDups _).filter _)).mpr (fun b => ?_)
      rw [hmem b, List.mem_filter, List.mem_eraseDups]
    rw [hperm.mem_iff, List.take_of_length_le (hsame.length_eq ▸ hlen)]
    exact hsame.mem_iff.mp ha

theorem sortedInfos_eq (cfg : DnsCfg) (c : DnsContext) :
    c.sortedInfos cfg = alternate (queue cfg c.tasks (preferred cfg)) (queue cfg c.tasks (other cfg)) := by
  rw [sortedInfos, preferred, other]
  split <;> rfl

/-- The loops end and make the list that the results of the context are sorted into. -/
theorem makeList_eq (cfg : DnsCfg) (c : DnsContext) {rounds : Nat} (hrounds : 2 * MAX_ADDR ≤ rounds) :
    makeList cfg c.tasks rounds = some (c.sortedInfos cfg) := by
  have hqueues : fillQueues cfg (collectTasks c.tasks []) [] [] =
      (queue cfg c.tasks PF_INET, queue cfg c.tasks PF_INET6) := by
    rw [fillQueues_eq, collectTasks_dedup]
    rfl
  have hlen := (queue_perm cfg c.tasks).length_eq
  rw [List.length_append] at hlen
  have hshort := List.length_take_le MAX_ADDR ((usable (allNodes c.tasks)).eraseDups.filter (allowed cfg))
  rw [makeList, hqueues]
  dsimp only
  rw [takeTurns_eq _ _ _ _ _ (by omega), sortedInfos_eq, preferred, other, List.nil_append]
  split <;> rfl

/-- The list of addresses, for every list of results and every setting. -/
theorem makeList_right (cfg : DnsCfg) (c : DnsContext) :
    ∃ rounds infos, makeList cfg c.tasks rounds = some infos ∧ RightList cfg c.tasks infos := by
  refine ⟨2 * MAX_ADDR, _, makeList_eq cfg c (Nat.le_refl _), ?_⟩
  rw [sortedInfos_eq]
  exact rightList_alternate cfg c.tasks

end DnsContext

end Acng
