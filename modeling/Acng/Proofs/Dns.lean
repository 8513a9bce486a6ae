import Mathlib.Data.List.Perm.Basic
import Acng.Dns

namespace Acng
open Lib

/-- The entry was still good. An error is not older than it may become. -/
def DnsHit.Right (h : DnsHit) : Prop :=
  h.time ≤ h.entry.info.expTime ∧
    (h.entry.info.sortedInfos = [] → h.time ≤ h.entry.since + DNS_ERROR_KEEP_MAX_TIME)

/-- The entry had expired, or there was no place and it was the oldest one. -/
def DnsPurge.Right (p : DnsPurge) : Prop :=
  p.entry.info.expTime < p.time ∨
    DNS_CACHE_MAX - 1 ≤ p.size ∧ ∀ e ∈ p.stay, p.entry.since ≤ e.since

namespace DnsState

variable {cfg : DnsCfg} {s t : DnsState}

/-- The cache and its queue list the same keys in the order in which they were added. -/
structure CacheOk (s : DnsState) (cfg : DnsCfg) : Prop where
  keys : s.dnsCache.map (·.key) = s.dnsExpQ
  nodup : s.dnsExpQ.Nodup
  small : s.dnsExpQ.length < DNS_CACHE_MAX
  past : ∀ e ∈ s.dnsCache, e.since ≤ s.now
  order : s.dnsCache.Pairwise (fun a b => a.since ≤ b.since)
  errors : ∀ e ∈ s.dnsCache, e.info.sortedInfos = [] →
    e.info.expTime ≤ e.since + DNS_ERROR_KEEP_MAX_TIME
  off : cfg.dnscachetime ≤ 0 → s.dnsExpQ = []

/-- What is not about the cache. -/
structure SameRest (s t : DnsState) : Prop where
  posted : t.posted = s.posted
  contexts : t.contexts = s.contexts
  nextId : t.nextId = s.nextId
  activeIndex : t.activeIndex = s.activeIndex
  calls : t.calls = s.calls
  answers : t.answers = s.answers
  hits : t.hits = s.hits

/-- The oldest entry that the size limit leaves, if there is one. -/
def survivor (s : DnsState) : Option DnsEntry :=
  (s.dnsCache.drop (s.dnsCache.length - (DNS_CACHE_MAX - 2))).head?

/-- What the cleaning leaves. -/
structure Cleaned (s t : DnsState) : Prop where
  rest : SameRest s t
  now : t.now = s.now
  cache : ∃ n, t.dnsCache = s.dnsCache.drop n
  keys : t.dnsCache.map (·.key) = t.dnsExpQ
  space : t.dnsExpQ.length < DNS_CACHE_MAX - 1
  purges : (∀ p ∈ t.purges, p.Right) ↔
    (∀ p ∈ s.purges, p.Right) ∧ ¬ ∃ e, s.survivor = some e ∧ s.now ≤ e.info.expTime

theorem survivor_of_space (h : s.dnsCache.length < DNS_CACHE_MAX - 1) :
    s.survivor = s.dnsCache.head? := by
  have hzero : s.dnsCache.length - (DNS_CACHE_MAX - 2) = 0 := by
    simp only [DNS_CACHE_MAX] at h ⊢
    omega
  rw [survivor, hzero, List.drop_zero]

theorem survivor_of_full {e : DnsEntry} {es : List DnsEntry} (hs : s.dnsCache = e :: es)
    (ht : t.dnsCache = es) (h : DNS_CACHE_MAX - 1 ≤ s.dnsCache.length) :
    s.survivor = t.survivor := by
  have hsucc : s.dnsCache.length - (DNS_CACHE_MAX - 2) = es.length - (DNS_CACHE_MAX - 2) + 1 := by
    rw [hs, List.length_cons] at h ⊢
    simp only [DNS_CACHE_MAX] at h ⊢
    omega
  rw [survivor, survivor, hsucc, hs, ht, List.drop_succ_cons]

/-- The front of the queue is purged. -/
theorem Cleaned.purge {e : DnsEntry} {es : List DnsEntry} (hs : s.dnsCache = e :: es)
    (hold : ∀ a ∈ es, e.since ≤ a.since)
    (hgo : DNS_CACHE_MAX - 1 ≤ s.dnsCache.length ∨ s.now ≤ e.info.expTime)
    (h : Cleaned { s with
      dnsCache := es, purges := s.purges ++ [⟨e, s.now, s.dnsCache.length, es⟩] } t) :
    Cleaned s t where
  rest := ⟨h.rest.posted, h.rest.contexts, h.rest.nextId, h.rest.activeIndex, h.rest.calls,
    h.rest.answers, h.rest.hits⟩
  now := h.now
  cache := h.cache.imp' (· + 1) (fun n hn => by rw [hn, hs, List.drop_succ_cons])
  keys := h.keys
  space := h.space
  purges := by
    refine h.purges.trans ?_
    rw [List.forall_mem_append, List.forall_mem_singleton, and_assoc]
    refine and_congr_right fun _ => ?_
    by_cases hfull : DNS_CACHE_MAX - 1 ≤ s.dnsCache.length
    · rw [← survivor_of_full (t := { s with
        dnsCache := es, purges := s.purges ++ [⟨e, s.now, s.dnsCache.length, es⟩] }) hs rfl hfull]
      exact and_iff_right (.inr ⟨hfull, hold⟩)
    · -- it is too early
      have hgood : s.now ≤ e.info.expTime := hgo.resolve_left hfull
      refine iff_of_false (fun hright => ?_) (fun hno => hno ⟨e, ?_, hgood⟩)
      · obtain hexp | hsize := hright.1
        · exact absurd hexp (Int.not_lt.mpr hgood)
        · exact hfull hsize.1
      · rw [survivor_of_space (Nat.lt_of_not_le hfull), hs]
        rfl

theorem cleanDnsCache_spec {q : List Bytes} (s : DnsState) (keys : s.dnsCache.map (·.key) = q)
    (nodup : q.Nodup) (order : s.dnsCache.Pairwise (fun a b => a.since ≤ b.since)) :
    Cleaned s (s.cleanDnsCache q) := by
  induction q generalizing s with
  | nil =>
    have hnil : s.dnsCache = [] := List.map_eq_nil_iff.mp keys
    refine ⟨⟨rfl, rfl, rfl, rfl, rfl, rfl, rfl⟩, rfl, ⟨0, rfl⟩, keys, Nat.zero_lt_succ _, ?_⟩
    simp [cleanDnsCache, survivor, hnil]
  | cons key q ih =>
    obtain ⟨e, es, hcache, rfl, hes⟩ := List.map_eq_cons_iff.mp keys
    obtain ⟨hnew, nodup⟩ := List.nodup_cons.mp nodup
    obtain ⟨hold, horder⟩ := List.pairwise_cons.mp (hcache ▸ order)
    have hfind : s.cached e.key = some e := by simp [cached, hcache]
    have hstay : s.dnsCache.filter (·.key ≠ e.key) = es := by
      rw [hcache, List.filter_cons_of_neg (by simp), List.filter_eq_self]
      intro a ha
      have hne : a.key ≠ e.key := fun heq => hnew (heq ▸ hes ▸ List.mem_map_of_mem ha)
      simpa using hne
    rw [cleanDnsCache, hfind]
    simp only [hstay]
    split
    · rename_i hgo
      rw [Bool.or_eq_true, decide_eq_true_eq, decide_eq_true_eq] at hgo
      exact .purge hcache hold hgo (ih _ hes nodup horder)
    · rename_i hstop
      rw [Bool.or_eq_true, decide_eq_true_eq, decide_eq_true_eq, not_or] at hstop
      have hspace := Nat.lt_of_not_le hstop.1
      refine ⟨⟨rfl, rfl, rfl, rfl, rfl, rfl, rfl⟩, rfl, ⟨0, rfl⟩, keys, ?_, ?_⟩
      · simpa [← keys] using hspace
      · rw [survivor_of_space hspace, hcache]
        simpa using fun _ => hstop.2

/-- The queue has a place for a new key, and the order and the ages are kept. -/
theorem keep_spec (s : DnsState) (key : Bytes) (info : CAddrInfo) (later : Nat) (h : s.CacheOk cfg)
    (hon : 0 < cfg.dnscachetime) (hkey : key ∉ s.dnsExpQ)
    (herr : info.sortedInfos = [] → info.expTime ≤ s.now + DNS_ERROR_KEEP_MAX_TIME) :
    (s.keep key info later).CacheOk cfg ∧ SameRest s (s.keep key info later) ∧
      (∀ k ∈ (s.keep key info later).dnsExpQ, k ∈ s.dnsExpQ ∨ k = key) ∧
      ((∀ p ∈ (s.keep key info later).purges, p.Right) ↔ (∀ p ∈ s.purges, p.Right) ∧
        ¬ ∃ e, s.survivor = some e ∧ s.now + later ≤ e.info.expTime) := by
  let s' : DnsState := { s with now := s.now + later }
  have hclean : Cleaned s' (s'.cleanDnsCache s'.dnsExpQ) :=
    cleanDnsCache_spec s' h.keys h.nodup h.order
  unfold keep
  simp only
  change Cleaned s' (s'.cleanDnsCache s.dnsExpQ) at hclean
  generalize s'.cleanDnsCache s.dnsExpQ = t at hclean ⊢
  obtain ⟨n, hn⟩ := hclean.cache
  have hcache : t.dnsCache = s.dnsCache.drop n := hn
  have hmem : ∀ e ∈ t.dnsCache, e ∈ s.dnsCache := fun e he => List.mem_of_mem_drop (hcache ▸ he)
  have hsub : t.dnsExpQ.Sublist s.dnsExpQ := by
    rw [← hclean.keys, hcache, ← h.keys]
    exact (List.drop_sublist n _).map _
  have hnone : (t.cached key).isSome = false := by
    rw [Option.isSome_eq_false_iff, Option.isNone_iff_eq_none, cached, List.find?_eq_none]
    intro e he heq
    refine hkey (hsub.subset (hclean.keys ▸ ?_))
    exact decide_eq_true_eq.mp heq ▸ List.mem_map_of_mem he
  have hnow : t.now = s.now + later := hclean.now
  simp only [hnone, Bool.false_eq_true, if_false]
  refine ⟨⟨?_, ?_, ?_, ?_, ?_, ?_, fun hoff => absurd hon (Int.not_lt.mpr hoff)⟩, ?_, ?_,
    hclean.purges⟩
  · rw [List.map_append, hclean.keys]
    rfl
  · rw [List.nodup_append]
    refine ⟨h.nodup.sublist hsub, List.pairwise_singleton _ _, fun k hk k' hk' heq => ?_⟩
    rw [List.mem_singleton] at hk'
    exact hkey (hk' ▸ heq ▸ hsub.subset hk)
  · have := hclean.space
    simp only [List.length_append, List.length_singleton, DNS_CACHE_MAX] at this ⊢
    omega
  · rw [List.forall_mem_append, List.forall_mem_singleton, hnow]
    refine ⟨fun e he => ?_, by simp only; omega⟩
    have := h.past e (hmem e he)
    omega
  · rw [List.pairwise_append]
    refine ⟨?_, List.pairwise_singleton _ _, fun a ha b hb => ?_⟩
    · rw [hcache]
      exact h.order.sublist (List.drop_sublist _ _)
    · rw [List.mem_singleton.mp hb]
      exact h.past a (hmem a ha)
  · rw [List.forall_mem_append, List.forall_mem_singleton]
    exact ⟨fun e he => h.errors e (hmem e he), herr⟩
  · exact ⟨hclean.rest.posted, hclean.rest.contexts, hclean.rest.nextId, hclean.rest.activeIndex,
      hclean.rest.calls, hclean.rest.answers, hclean.rest.hits⟩
  · intro k hk
    rw [List.mem_append, List.mem_singleton] at hk
    exact hk.imp (fun hk => hsub.subset hk) id

end DnsState

/-- A context that nobody finds has no reporters, and nothing comes for it. The key of another one
is not in the cache. -/
structure DnsContext.Ok (keys : List Bytes) (c : DnsContext) : Prop where
  leaked : c.indexed = false → c.cbs = [] ∧ c.asked = false ∧ c.tasks = []
  fresh : c.indexed = true → c.key ∉ keys

/-- The contexts in any order, and the index over them. -/
structure ContextsOk (cs : List DnsContext) (activeIndex : List (Bytes × Nat)) (nextId : Nat)
    (keys : List Bytes) : Prop where
  index : activeIndex.Perm ((cs.filter (·.indexed)).map (fun c => (c.key, c.id)))
  active : (activeIndex.map (·.1)).Nodup
  ids : (cs.map (·.id)).Nodup
  bound : ∀ c ∈ cs, c.id < nextId
  each : ∀ c ∈ cs, c.Ok keys

namespace ContextsOk

variable {cs cs' : List DnsContext} {c d : DnsContext} {index : List (Bytes × Nat)} {nextId : Nat}
  {keys keys' : List Bytes}

theorem perm (h : ContextsOk cs index nextId keys) (hperm : cs.Perm cs') :
    ContextsOk cs' index nextId keys where
  index := h.index.trans ((hperm.filter _).map _)
  active := h.active
  ids := (hperm.map _).nodup_iff.mp h.ids
  bound := fun c hc => h.bound c (hperm.mem_iff.mpr hc)
  each := fun c hc => h.each c (hperm.mem_iff.mpr hc)

theorem replace (h : ContextsOk (d :: cs) index nextId keys) (hid : c.id = d.id)
    (hkey : c.key = d.key) (hindexed : c.indexed = d.indexed) (hok : c.Ok keys) :
    ContextsOk (c :: cs) index nextId keys where
  index := by
    refine h.index.trans (.of_eq ?_)
    rw [List.filter_cons, List.filter_cons, hindexed]
    split
    · rw [List.map_cons, List.map_cons, hid, hkey]
    · rfl
  active := h.active
  ids := by
    rw [List.map_cons, hid]
    exact h.ids
  bound := by
    rw [List.forall_mem_cons, hid]
    exact List.forall_mem_cons.mp h.bound
  each := List.forall_mem_cons.mpr ⟨hok, (List.forall_mem_cons.mp h.each).2⟩

/-- The context leaves, and its key may be cached. -/
theorem remove (h : ContextsOk (d :: cs) index nextId keys) (hindexed : d.indexed = true)
    (hkeys : ∀ k ∈ keys', k ∈ keys ∨ k = d.key) :
    ContextsOk cs (index.filter (·.2 ≠ d.id)) nextId keys' := by
  have hids := List.nodup_cons.mp h.ids
  have hother : ∀ c ∈ cs, c.id ≠ d.id := fun c hc heq => hids.1 (List.mem_map.mpr ⟨c, hc, heq⟩)
  have hindex :
      index.Perm ((d.key, d.id) :: (cs.filter (·.indexed)).map (fun c => (c.key, c.id))) := by
    have := h.index
    rwa [List.filter_cons_of_pos hindexed, List.map_cons] at this
  have hrest : (index.filter (·.2 ≠ d.id)).Perm
      ((cs.filter (·.indexed)).map (fun c => (c.key, c.id))) := by
    refine (hindex.filter _).trans (.of_eq ?_)
    rw [List.filter_cons_of_neg (by simp), List.filter_eq_self]
    intro e he
    obtain ⟨c, hc, rfl⟩ := List.mem_map.mp he
    simpa using hother c (List.mem_filter.mp hc).1
  have hkeysNodup := (hindex.map (·.1)).nodup_iff.mp h.active
  rw [List.map_cons, List.nodup_cons] at hkeysNodup
  refine ⟨hrest, ?_, hids.2, (List.forall_mem_cons.mp h.bound).2, fun c hc =>
    ⟨?_, fun hc' hmem => ?_⟩⟩
  · exact (hrest.map (·.1)).nodup_iff.mpr hkeysNodup.2
  · exact ((List.forall_mem_cons.mp h.each).2 c hc).leaked
  · obtain hmem | hsame := hkeys _ hmem
    · exact ((List.forall_mem_cons.mp h.each).2 c hc).fresh hc' hmem
    · refine hkeysNodup.1 (hsame ▸ ?_)
      rw [List.map_map]
      exact List.mem_map_of_mem (f := fun c => c.key) (List.mem_filter.mpr ⟨hc, hc'⟩)

/-- A new context with or without a place in the index. -/
theorem add (h : ContextsOk cs index nextId keys) (hid : c.id = nextId) (hok : c.Ok keys)
    (hnew : c.indexed = true → c.key ∉ index.map (·.1)) :
    ContextsOk (cs ++ [c]) (if c.indexed then index ++ [(c.key, c.id)] else index) (nextId + 1)
      keys where
  index := by
    rw [List.filter_append, List.map_append]
    split
    · rename_i hindexed
      rw [List.filter_cons_of_pos hindexed]
      exact h.index.append_right _
    · rename_i hindexed
      rw [List.filter_cons_of_neg hindexed]
      exact h.index.trans (.of_eq (List.append_nil _).symm)
  active := by
    split
    · rename_i hindexed
      rw [List.map_append, List.nodup_append]
      refine ⟨h.active, List.pairwise_singleton _ _, fun k hk k' hk' heq => ?_⟩
      rw [List.map_singleton, List.mem_singleton] at hk'
      rw [heq, hk'] at hk
      exact hnew hindexed hk
    · exact h.active
  ids := by
    rw [List.map_append, List.nodup_append]
    refine ⟨h.ids, List.pairwise_singleton _ _, fun i hi i' hi' heq => ?_⟩
    obtain ⟨c', hc', rfl⟩ := List.mem_map.mp hi
    rw [List.map_singleton, List.mem_singleton] at hi'
    have := h.bound c' hc'
    omega
  bound := by
    rw [List.forall_mem_append, List.forall_mem_singleton]
    exact ⟨fun c hc => Nat.lt_succ_of_lt (h.bound c hc), by omega⟩
  each := by
    rw [List.forall_mem_append, List.forall_mem_singleton]
    exact ⟨h.each, hok⟩

end ContextsOk

namespace DnsState

variable {cfg : DnsCfg} {s t : DnsState}

/-- The reporters: those that were called, those that wait in a context, and those of the requests
that nobody has looked at. Each of them is in one place. -/
def Counted (s : DnsState) (cs : List DnsContext) : Prop :=
  (s.answers.map (·.1) ++ (cs.flatMap (·.cbs) ++ s.posted.map (·.rep))).Perm (List.range s.calls)

structure Inv (s : DnsState) (cfg : DnsCfg) : Prop where
  cache : s.CacheOk cfg
  contexts : ContextsOk s.contexts s.activeIndex s.nextId s.dnsExpQ
  counted : s.Counted s.contexts

theorem Counted.perm {cs cs' : List DnsContext} (h : s.Counted cs) (hperm : cs.Perm cs') :
    s.Counted cs' :=
  (List.Perm.append_left _ ((hperm.symm.flatMap_right _).append_right _)).trans h

/-- The reporters of a context are called. -/
theorem Counted.report {cs : List DnsContext} {d : DnsContext} (h : s.Counted (d :: cs))
    (info : CAddrInfo) : (s.answer d.cbs info).Counted cs := by
  have hreps : (d.cbs.map (fun rep => (rep, info))).map (·.1) = d.cbs := by
    rw [List.map_map]
    exact List.map_id _
  unfold Counted at h ⊢
  simp only [answer, List.map_append, hreps]
  simpa only [List.flatMap_cons, List.append_assoc] using h

theorem Counted.silent {cs : List DnsContext} {c : DnsContext} (h : s.Counted cs)
    (hc : c.cbs = []) : s.Counted (c :: cs) := by
  unfold Counted at h ⊢
  rwa [List.flatMap_cons, hc, List.nil_append]

theorem CacheOk.of_eq (h : s.CacheOk cfg) (hcache : t.dnsCache = s.dnsCache)
    (hqueue : t.dnsExpQ = s.dnsExpQ) (hnow : s.now ≤ t.now) : t.CacheOk cfg where
  keys := by rw [hcache, hqueue, h.keys]
  nodup := hqueue ▸ h.nodup
  small := hqueue ▸ h.small
  past := fun e he => (h.past e (hcache ▸ he)).trans hnow
  order := hcache ▸ h.order
  errors := hcache ▸ h.errors
  off := hqueue ▸ h.off

/-- The contexts besides one. -/
def others (s : DnsState) (id : Nat) : List DnsContext := s.contexts.filter (·.id ≠ id)

theorem find_perm {cs : List DnsContext} {d : DnsContext} {id : Nat} (ids : (cs.map (·.id)).Nodup)
    (hd : cs.find? (·.id = id) = some d) : d.id = id ∧ cs.Perm (d :: cs.filter (·.id ≠ id)) := by
  induction cs with
  | nil => cases hd
  | cons c cs ih =>
    rw [List.map_cons, List.nodup_cons] at ids
    by_cases hc : c.id = id
    · rw [List.find?_cons_of_pos (by simpa using hc)] at hd
      obtain rfl := Option.some.inj hd
      refine ⟨hc, .of_eq ?_⟩
      rw [List.filter_cons_of_neg (by simpa using hc), List.filter_eq_self.mpr]
      intro a ha
      have hne : a.id ≠ id := fun heq => ids.1 (List.mem_map.mpr ⟨a, ha, heq.trans hc.symm⟩)
      simpa using hne
    · rw [List.find?_cons_of_neg (by simpa using hc)] at hd
      obtain ⟨hid, hperm⟩ := ih ids.2 hd
      refine ⟨hid, ?_⟩
      rw [List.filter_cons_of_pos (by simpa using hc)]
      exact (hperm.cons c).trans (.swap d c _)

theorem context_perm {d : DnsContext} {id : Nat} (ids : (s.contexts.map (·.id)).Nodup)
    (hd : s.context id = some d) : d.id = id ∧ s.contexts.Perm (d :: s.others id) :=
  find_perm ids hd

theorem map_perm {d : DnsContext} {id : Nat} (ids : (s.contexts.map (·.id)).Nodup)
    (hd : s.context id = some d) {f : DnsContext → DnsContext} (hf : ∀ c, c.id ≠ id → f c = c) :
    (s.contexts.map f).Perm (f d :: s.others id) := by
  refine ((context_perm ids hd).2.map f).trans (.of_eq ?_)
  rw [List.map_cons, List.map_congr_left (g := fun c => c), List.map_id']
  intro c hc
  exact hf c (by simpa using (List.mem_filter.mp hc).2)

theorem update_perm {c d : DnsContext} {id : Nat} (ids : (s.contexts.map (·.id)).Nodup)
    (hd : s.context id = some d) (hid : c.id = id) :
    (s.update c).contexts.Perm (c :: s.others id) := by
  have hperm := map_perm ids hd (f := fun d => if d.id = c.id then c else d)
    (fun a ha => if_neg (hid.symm ▸ ha))
  rwa [if_pos ((context_perm ids hd).1.trans hid.symm)] at hperm

/-- What is known of a context that is being changed: it has its place in the index, and the state
holds it in an older version. -/
structure Held (s : DnsState) (cfg : DnsCfg) (c d : DnsContext) : Prop where
  found : s.context c.id = some d
  key : c.key = d.key
  indexed : c.indexed = true ∧ d.indexed = true
  counted : s.Counted (c :: s.others c.id)
  cache : s.CacheOk cfg
  contexts : ContextsOk s.contexts s.activeIndex s.nextId s.dnsExpQ

theorem Held.update {c d : DnsContext} (h : s.Held cfg c d) : (s.update c).Inv cfg := by
  have hperm := update_perm h.contexts.ids h.found rfl
  obtain ⟨hid, hold⟩ := context_perm h.contexts.ids h.found
  have hd := (h.contexts.perm hold).each d List.mem_cons_self
  refine ⟨h.cache.of_eq rfl rfl (Int.le_refl _),
    ((h.contexts.perm hold).replace hid.symm h.key (h.indexed.1.trans h.indexed.2.symm) ?_).perm
      hperm.symm, h.counted.perm hperm.symm⟩
  exact ⟨fun hno => absurd (h.indexed.1.symm.trans hno) (by decide),
    fun _ => h.key ▸ hd.fresh h.indexed.2⟩

theorem result_error (c : DnsContext) (now : Int) (hworth : (c.result cfg now).2 = true)
    (hnil : (c.result cfg now).1.sortedInfos = []) :
    (c.result cfg now).1.expTime ≤ now + DNS_ERROR_KEEP_MAX_TIME := by
  unfold DnsContext.result at hworth hnil ⊢
  simp only at hworth hnil ⊢
  split
  · rename_i hempty
    rw [if_pos hempty] at hworth
    iterate 4
      split
      · rename_i hno
        rw [if_pos hno] at hworth
        cases hworth
      rename_i hno
      rw [if_neg hno] at hworth
    exact Int.add_le_add_left (Int.min_le_right _ _) now
  · rename_i hsome
    rw [if_neg hsome] at hnil
    exact absurd (List.isEmpty_iff.mpr hnil) hsome

/-- An entry is purged too early if this context leaves now. -/
def PurgesEarly (cfg : DnsCfg) (s : DnsState) (c : DnsContext) (later : Nat) : Prop :=
  (c.result cfg s.now).2 = true ∧ 0 < cfg.dnscachetime ∧
    ∃ e, s.survivor = some e ∧ s.now + later ≤ e.info.expTime

/-- The copy is made for others, or the cache stays as it is. -/
theorem Held.destroy {c d : DnsContext} (h : s.Held cfg c d) (later : Nat) :
    (s.destroy cfg c later).Inv cfg ∧ (s.destroy cfg c later).contexts = s.others c.id ∧
      (s.destroy cfg c later).hits = s.hits ∧
      ((∀ p ∈ (s.destroy cfg c later).purges, p.Right) ↔
        (∀ p ∈ s.purges, p.Right) ∧ ¬ s.PurgesEarly cfg c later) := by
  obtain ⟨hid, hold⟩ := context_perm h.contexts.ids h.found
  have hctx := h.contexts.perm hold
  have hkey : c.key ∉ s.dnsExpQ := h.key ▸ (hctx.each d List.mem_cons_self).fresh h.indexed.2
  let s' : DnsState := { s with
    contexts := s.others c.id
    activeIndex := s.activeIndex.filter (·.2 ≠ c.id) }
  have hcache : s'.CacheOk cfg := h.cache.of_eq rfl rfl (Int.le_refl _)
  have hdestroy : s.destroy cfg c later =
      (if (c.result cfg s.now).2 && 0 < cfg.dnscachetime then
        s'.keep c.key (c.result cfg s.now).1 later else s').answer c.cbs
          (c.result cfg s.now).1 := rfl
  rw [hdestroy]
  have hkept : ∀ t, t = (if (c.result cfg s.now).2 && 0 < cfg.dnscachetime then
      s'.keep c.key (c.result cfg s.now).1 later else s') →
      t.CacheOk cfg ∧ SameRest s' t ∧ (∀ k ∈ t.dnsExpQ, k ∈ s.dnsExpQ ∨ k = c.key) ∧
        ((∀ p ∈ t.purges, p.Right) ↔
          (∀ p ∈ s.purges, p.Right) ∧ ¬ s.PurgesEarly cfg c later) := by
    rintro t rfl
    split
    · rename_i hkeep
      rw [Bool.and_eq_true_iff, decide_eq_true_eq] at hkeep
      obtain ⟨hcache', hrest, hkeys, hpurges⟩ := keep_spec s' c.key (c.result cfg s.now).1 later
        hcache hkeep.2 hkey (result_error c s.now hkeep.1)
      refine ⟨hcache', hrest, hkeys, hpurges.trans (and_congr_right fun _ => not_congr ?_)⟩
      exact ⟨fun hearly => ⟨hkeep.1, hkeep.2, hearly⟩, fun hearly => hearly.2.2⟩
    · rename_i hno
      rw [Bool.and_eq_true_iff, decide_eq_true_eq] at hno
      refine ⟨hcache, ⟨rfl, rfl, rfl, rfl, rfl, rfl, rfl⟩, fun k hk => .inl hk, ?_⟩
      exact (and_iff_left fun hearly => hno ⟨hearly.1, hearly.2.1⟩).symm
  obtain ⟨hcache', hrest, hkeys, hpurges⟩ := hkept _ rfl
  generalize (if (c.result cfg s.now).2 && 0 < cfg.dnscachetime then
    s'.keep c.key (c.result cfg s.now).1 later else s') = t at hcache' hrest hkeys hpurges ⊢
  refine ⟨⟨hcache'.of_eq rfl rfl (Int.le_refl _), ?_, ?_⟩, hrest.contexts, hrest.hits, hpurges⟩
  · have hremoved := hctx.remove h.indexed.2 (fun k hk => h.key ▸ hkeys k hk)
    rw [hid] at hremoved
    simpa only [answer, hrest.contexts, hrest.activeIndex, hrest.nextId] using hremoved
  · have hcounted : t.Counted (c :: s.others c.id) := by
      have := h.counted
      unfold Counted at this ⊢
      rwa [hrest.answers, hrest.posted, hrest.calls]
    simpa only [answer, hrest.contexts] using hcounted.report (c.result cfg s.now).1

/-- The keys of the contexts do not become more. -/
def KeysStay (s t : DnsState) : Prop :=
  ∃ l, (t.contexts.map (·.key) ++ l).Perm (s.contexts.map (·.key))

theorem KeysStay.of_eq (h : t.contexts.map (·.key) = s.contexts.map (·.key)) : s.KeysStay t :=
  ⟨[], by rw [List.append_nil, h]⟩

theorem KeysStay.nodup (h : s.KeysStay t) (hs : (s.contexts.map (·.key)).Nodup) :
    (t.contexts.map (·.key)).Nodup := by
  obtain ⟨l, hperm⟩ := h
  exact (List.nodup_append.mp (hperm.nodup_iff.mpr hs)).1

theorem KeysStay.trans {u : DnsState} (h : s.KeysStay t) (h' : t.KeysStay u) : s.KeysStay u := by
  obtain ⟨l, hl⟩ := h
  obtain ⟨l', hl'⟩ := h'
  refine ⟨l' ++ l, ?_⟩
  rw [← List.append_assoc]
  exact (hl'.append_right l).trans hl

/-- With the last reference the context goes away. -/
theorem Held.release {c d : DnsContext} (h : s.Held cfg c d) (later : Nat) :
    (s.release cfg c later).Inv cfg ∧
      s.KeysStay (s.release cfg c later) := by
  obtain ⟨-, hold⟩ := context_perm h.contexts.ids h.found
  have hkeys := hold.map (·.key)
  rw [List.map_cons] at hkeys
  unfold DnsState.release
  split
  · have hperm := (update_perm h.contexts.ids h.found rfl).map (·.key)
    rw [List.map_cons, h.key] at hperm
    exact ⟨h.update, [], by rw [List.append_nil]; exact hperm.trans hkeys.symm⟩
  · obtain ⟨hinv, hcontexts, -⟩ := h.destroy later
    refine ⟨hinv, [d.key], ?_⟩
    rw [hcontexts]
    exact (List.perm_append_singleton _ _).trans hkeys.symm

/-- A context of the index is held. -/
theorem Inv.held (h : s.Inv cfg) {d : DnsContext} {id : Nat} (hd : s.context id = some d)
    (hindexed : d.indexed = true) : s.Held cfg d d := by
  obtain ⟨rfl, hperm⟩ := context_perm h.contexts.ids hd
  exact ⟨hd, rfl, ⟨hindexed, hindexed⟩, h.counted.perm hperm, h.cache, h.contexts⟩

theorem Held.reportNewError {c d : DnsContext} (h : s.Held cfg c d) (msg : Bytes) :
    (s.reportNewError c msg).1.Held cfg (s.reportNewError c msg).2 d where
  found := h.found
  key := h.key
  indexed := h.indexed
  counted := (h.counted.report _).silent rfl
  cache := h.cache.of_eq rfl rfl (Int.le_refl _)
  contexts := h.contexts

theorem Held.srvQuery {c d : DnsContext} (h : s.Held cfg c d) (status : Int)
    (reply : Option (List SrvReply)) (random : List Nat)
    (instant : List (Option (Int × Option (List AddrNode)))) :
    (s.srvQuery c status reply random instant).1.Held cfg
      (s.srvQuery c status reply random instant).2 d := by
  have hasked : s.Held cfg { c with asked := false } d :=
    ⟨h.found, h.key, h.indexed, h.counted, h.cache, h.contexts⟩
  unfold DnsState.srvQuery
  simp only
  split
  · exact hasked.reportNewError _
  · split
    · exact hasked.reportNewError _
    · exact ⟨h.found, h.key, h.indexed, h.counted, h.cache, h.contexts⟩

theorem Held.keys {c d : DnsContext} (h : s.Held cfg c d) : s.KeysStay (s.update c) := by
  have hold := (context_perm h.contexts.ids h.found).2.map (·.key)
  have hperm := (update_perm h.contexts.ids h.found rfl).map (·.key)
  rw [List.map_cons] at hold
  rw [List.map_cons, h.key] at hperm
  exact ⟨[], by rw [List.append_nil]; exact hperm.trans hold.symm⟩

theorem Inv.rejectPending (ids : List Nat) (h : s.Inv cfg)
    (hids : ∀ c ∈ s.contexts, c.id ∈ ids → c.indexed = true) :
    (s.rejectPending ids).Inv cfg ∧ s.KeysStay (s.rejectPending ids) := by
  induction ids generalizing s with
  | nil => exact ⟨h, .of_eq rfl⟩
  | cons id ids ih =>
    rw [DnsState.rejectPending]
    split
    · exact ih h (fun c hc hi => hids c hc (List.mem_cons_of_mem _ hi))
    · rename_i c hc
      obtain ⟨rfl, hperm⟩ := context_perm h.contexts.ids hc
      have hindexed : c.indexed = true :=
        hids c (hperm.mem_iff.mpr List.mem_cons_self) List.mem_cons_self
      have hheld := (h.held hc hindexed).reportNewError (lit "System shutting down")
      have hkeys : s.KeysStay ((s.reportNewError c (lit "System shutting down")).1.update
          (s.reportNewError c (lit "System shutting down")).2) := hheld.keys
      obtain ⟨hinv, hrest⟩ := ih hheld.update (fun d hd hi => by
        obtain ⟨d', hd', rfl⟩ := List.mem_map.mp hd
        split
        · exact hindexed
        · rename_i hne
          rw [if_neg hne] at hi
          exact hids d' hd' (List.mem_cons_of_mem _ hi))
      exact ⟨hinv, hkeys.trans hrest⟩

/-- The request as a context that holds its reporter. -/
def waiting (r : DnsRequest) : DnsContext :=
  { id := 0, sHost := r.sHost, nPort := r.nPort, cbs := [r.rep] }

/-- The lookup of a request begins: there is nothing to share. -/
def Begins (cfg : DnsCfg) (s : DnsState) (r : DnsRequest) : Prop :=
  (0 < cfg.dnscachetime → s.cached r.key = none) ∧ s.activeIndex.lookup r.key = none

theorem context_of_mem {c : DnsContext} (ids : (s.contexts.map (·.id)).Nodup)
    (hc : c ∈ s.contexts) : s.context c.id = some c := by
  cases hfind : s.context c.id with
  | none => exact absurd (List.find?_eq_none.mp hfind c hc) (by simp)
  | some d =>
    obtain ⟨-, hperm⟩ := context_perm ids hfind
    obtain rfl | hother := List.mem_cons.mp (hperm.mem_iff.mp hc)
    · rfl
    · exact absurd (List.mem_filter.mp hother).2 (by simp)

/-- A key of the index belongs to a context with a place in it. -/
theorem indexed_context {key : Bytes} {id : Nat}
    (h : ContextsOk s.contexts s.activeIndex s.nextId s.dnsExpQ) (hi : (key, id) ∈ s.activeIndex) :
    ∃ c, s.context id = some c ∧ c.indexed = true ∧ c.key = key := by
  obtain ⟨c, hc, heq⟩ := List.mem_map.mp (h.index.mem_iff.mp hi)
  obtain ⟨rfl, rfl⟩ := Prod.mk.inj heq
  obtain ⟨hc, hindexed⟩ := List.mem_filter.mp hc
  exact ⟨c, context_of_mem h.ids hc, hindexed, rfl⟩

theorem join_spec {r : DnsRequest} {id : Nat} (hcache : s.CacheOk cfg)
    (hctx : ContextsOk s.contexts s.activeIndex s.nextId s.dnsExpQ)
    (hcounted : s.Counted (waiting r :: s.contexts)) (hi : (r.key, id) ∈ s.activeIndex) :
    let t : DnsState := { s with contexts := s.contexts.map (fun c =>
      if c.id = id then { c with cbs := c.cbs ++ [r.rep] } else c) }
    t.Inv cfg ∧ s.KeysStay t := by
  intro t
  obtain ⟨c, hc, hindexed, -⟩ := indexed_context hctx hi
  obtain ⟨hid, hold⟩ := context_perm hctx.ids hc
  have hnew : t.contexts.Perm ({ c with cbs := c.cbs ++ [r.rep] } :: s.others id) := by
    have := map_perm hctx.ids hc (f := fun c =>
      if c.id = id then { c with cbs := c.cbs ++ [r.rep] } else c) (fun a ha => if_neg ha)
    rwa [if_pos hid] at this
  have hok := (hctx.perm hold).each c List.mem_cons_self
  have hjoined : DnsContext.Ok s.dnsExpQ { c with cbs := c.cbs ++ [r.rep] } :=
    ⟨fun hno => absurd (hindexed.symm.trans hno) (by decide), hok.fresh⟩
  have hreplaced := (hctx.perm hold).replace (c := { c with cbs := c.cbs ++ [r.rep] }) rfl rfl rfl
    hjoined
  refine ⟨⟨hcache.of_eq rfl rfl (Int.le_refl _), hreplaced.perm hnew.symm,
    Counted.perm ?_ hnew.symm⟩, ?_⟩
  · have hall := hcounted.perm (hold.cons (waiting r))
    unfold Counted at hall ⊢
    refine (List.Perm.append_left _ (List.Perm.append_right _ ?_)).trans hall
    simp only [List.flatMap_cons, ← List.append_assoc]
    exact List.Perm.append_right _ List.perm_append_comm
  · refine ⟨[], ?_⟩
    rw [List.append_nil]
    exact (hnew.map (·.key)).trans (hold.map (·.key)).symm

theorem invoke_refused (r : DnsRequest) (resolver : Bool) :
    s.invoke cfg r true resolver = s.answer [r.rep] { sError := lit "system error" } := by
  rw [invoke, if_pos rfl]

theorem invoke_begins {r : DnsRequest} (hbegins : s.Begins cfg r) (resolver : Bool) :
    s.invoke cfg r false resolver =
      (let ctx : DnsContext :=
        { id := s.nextId, sHost := r.sHost, nPort := r.nPort, cbs := [r.rep] }
      if resolver then
        { s with
          nextId := s.nextId + 1
          contexts := s.contexts ++ [{ ctx with asked := true, indexed := true }]
          activeIndex := s.activeIndex ++ [(r.key, ctx.id)] }
      else
        { s with nextId := s.nextId + 1, contexts := s.contexts ++ [{ ctx with cbs := [] }] }.answer
          [r.rep] { sError := lit "503 Bad DNS configuration" }) := by
  have hmiss : (if 0 < cfg.dnscachetime then s.cached r.key else none) = none := by
    split
    · rename_i hon
      exact hbegins.1 hon
    · rfl
  rw [invoke, if_neg (by decide), hmiss]
  simp only [hbegins.2]

/-- A new object is there with the key of the request. -/
theorem begins_spec {r : DnsRequest} (hbegins : s.Begins cfg r) (hcache : s.CacheOk cfg)
    (hctx : ContextsOk s.contexts s.activeIndex s.nextId s.dnsExpQ)
    (hcounted : s.Counted (waiting r :: s.contexts)) (resolver : Bool) :
    (s.invoke cfg r false resolver).Inv cfg ∧
      (s.invoke cfg r false resolver).contexts.map (·.key) = s.contexts.map (·.key) ++ [r.key] := by
  have hnew : r.key ∉ s.activeIndex.map (·.1) := by
    intro hmem
    obtain ⟨e, he, heq⟩ := List.mem_map.mp hmem
    simpa [heq] using List.lookup_eq_none_iff.mp hbegins.2 e he
  have hmissing : r.key ∉ s.dnsExpQ := by
    intro hmem
    by_cases hon : 0 < cfg.dnscachetime
    · obtain ⟨e, he, heq⟩ := List.mem_map.mp (hcache.keys ▸ hmem)
      exact absurd heq (by simpa using List.find?_eq_none.mp (hbegins.1 hon) e he)
    · rw [hcache.off (Int.not_lt.mp hon)] at hmem
      cases hmem
  rw [invoke_begins hbegins]
  cases resolver with
  | true =>
    let c : DnsContext := { id := s.nextId, sHost := r.sHost, nPort := r.nPort, cbs := [r.rep]
                            asked := true, indexed := true }
    have hok : c.Ok s.dnsExpQ := ⟨nofun, fun _ => hmissing⟩
    refine ⟨⟨hcache.of_eq rfl rfl (Int.le_refl _), hctx.add (c := c) rfl hok (fun _ => hnew), ?_⟩,
      ?_⟩
    · have hwait : s.Counted (c :: s.contexts) := hcounted
      exact hwait.perm (List.perm_append_singleton c _).symm
    · exact List.map_append
  | false =>
    let c : DnsContext := { id := s.nextId, sHost := r.sHost, nPort := r.nPort, cbs := [] }
    have hok : c.Ok s.dnsExpQ := ⟨fun _ => ⟨rfl, rfl, rfl⟩, nofun⟩
    refine ⟨⟨hcache.of_eq rfl rfl (Int.le_refl _), hctx.add (c := c) rfl hok nofun, ?_⟩, ?_⟩
    · have hreport := (hcounted.report { sError := lit "503 Bad DNS configuration" }).silent
        (c := c) rfl
      exact hreport.perm (List.perm_append_singleton c _).symm
    · exact List.map_append

/-- A request that is answered at once, or joins a lookup. -/
theorem invoke_spec {r : DnsRequest} {refused : Bool} (hcache : s.CacheOk cfg)
    (hctx : ContextsOk s.contexts s.activeIndex s.nextId s.dnsExpQ)
    (hcounted : s.Counted (waiting r :: s.contexts))
    (hno : ¬ (refused = false ∧ s.Begins cfg r)) (resolver : Bool) :
    (s.invoke cfg r refused resolver).Inv cfg ∧ s.KeysStay (s.invoke cfg r refused resolver) := by
  cases refused with
  | true =>
    rw [invoke_refused]
    exact ⟨⟨hcache.of_eq rfl rfl (Int.le_refl _), hctx, hcounted.report _⟩, .of_eq rfl⟩
  | false =>
    have hshared : ¬ s.Begins cfg r := fun h => hno ⟨rfl, h⟩
    rw [invoke, if_neg (by decide)]
    split
    · exact ⟨⟨hcache.of_eq rfl rfl (Int.le_refl _), hctx, hcounted.report _⟩, .of_eq rfl⟩
    · rename_i hmiss
      split
      · rename_i id hfound
        obtain ⟨before, after, hindex, -⟩ := List.lookup_eq_some_iff.mp hfound
        refine join_spec hcache hctx hcounted ?_
        rw [hindex]
        exact List.mem_append_right _ List.mem_cons_self
      · rename_i hnone
        refine absurd ⟨fun hon => ?_, hnone⟩ hshared
        rwa [if_pos hon] at hmiss

theorem srvQuery_contexts (c : DnsContext) (status : Int) (reply : Option (List SrvReply))
    (random : List Nat) (instant : List (Option (Int × Option (List AddrNode)))) :
    (s.srvQuery c status reply random instant).1.contexts = s.contexts := by
  unfold srvQuery
  simp only
  split
  · rfl
  · split
    · rfl
    · rfl

/-- A lookup begins for a key with an object that nobody deletes. -/
def LeaksAgain (cfg : DnsCfg) (s : DnsState) (e : Nat × DnsEvent) : Prop :=
  ∃ resolver r rest, e.2 = .invoke false resolver ∧ s.posted = r :: rest ∧ s.Begins cfg r ∧
    ∃ c ∈ s.contexts, c.indexed = false ∧ c.key = r.key

theorem Inv.later (h : s.Inv cfg) (n : Nat) : Inv { s with now := s.now + n } cfg where
  cache := h.cache.of_eq rfl rfl (Int.le_add_of_nonneg_right (Int.natCast_nonneg n))
  contexts := h.contexts
  counted := h.counted

theorem Inv.asked (h : s.Inv cfg) {id : Nat} {d : DnsContext} (hd : s.context id = some d)
    (hd' : d.asked = true ∨ d.tasks ≠ []) : s.Held cfg d d := by
  have hmem : d ∈ s.contexts := List.mem_of_find?_eq_some hd
  refine h.held hd ?_
  cases hindexed : d.indexed with
  | true => rfl
  | false =>
    obtain ⟨-, hasked, htasks⟩ := (h.contexts.each d hmem).leaked hindexed
    obtain hyes | hne := hd'
    · exact absurd (hasked.symm.trans hyes) (by decide)
    · exact absurd htasks hne

theorem Inv.answered (h : s.Inv cfg) {id i : Nat} {status : Int} {results : Option (List AddrNode)}
    {c : DnsContext}
    (hc : (s.context id).filter (fun c => (c.tasks.map (·.pending)).getD i false) = some c) :
    s.Held cfg (c.answered i status results) c := by
  obtain ⟨hfound, hpending⟩ := Option.filter_eq_some_iff.mp hc
  have htasks : c.tasks ≠ [] := by
    intro hnil
    rw [hnil] at hpending
    cases hpending
  have hheld := h.asked hfound (.inr htasks)
  exact ⟨hheld.found, hheld.key, hheld.indexed, hheld.counted, hheld.cache, hheld.contexts⟩

/-- It has no place in the index. -/
theorem Begins.not_indexed {r : DnsRequest} (hbegins : s.Begins cfg r)
    (hctx : ContextsOk s.contexts s.activeIndex s.nextId s.dnsExpQ) {c : DnsContext}
    (hc : c ∈ s.contexts) (hindexed : c.indexed = true) : c.key ≠ r.key := by
  intro hkey
  have hmem : (c.key, c.id) ∈ s.activeIndex := by
    refine hctx.index.mem_iff.mpr (List.mem_map.mpr ⟨c, List.mem_filter.mpr ⟨hc, hindexed⟩, rfl⟩)
  simpa [hkey] using List.lookup_eq_none_iff.mp hbegins.2 _ hmem

/-- The request is taken from the queue. -/
theorem Inv.taken (h : s.Inv cfg) (n : Nat) {r : DnsRequest} {rest : List DnsRequest}
    (hposted : s.posted = r :: rest) :
    CacheOk { s with now := s.now + n, posted := rest } cfg ∧
      Counted { s with now := s.now + n, posted := rest } (waiting r :: s.contexts) := by
  refine ⟨(h.later n).cache.of_eq rfl rfl (Int.le_refl _), ?_⟩
  have hall := h.counted
  unfold Counted at hall ⊢
  refine (List.Perm.append_left _ ?_).trans hall
  rw [hposted, List.flatMap_cons, List.map_cons, List.append_assoc]
  change (r.rep :: (s.contexts.flatMap (·.cbs) ++ rest.map (·.rep))).Perm _
  exact List.perm_middle.symm

theorem step_begins {e : Nat × DnsEvent} {resolver : Bool} {r : DnsRequest} {rest : List DnsRequest}
    (h : s.Inv cfg) (he : e.2 = .invoke false resolver) (hposted : s.posted = r :: rest)
    (hbegins : s.Begins cfg r) (ht : step cfg s e = some t) :
    t.Inv cfg ∧ t.contexts.map (·.key) = s.contexts.map (·.key) ++ [r.key] := by
  obtain ⟨n, ev⟩ := e
  obtain rfl : ev = .invoke false resolver := he
  obtain ⟨hcache, hcounted⟩ := h.taken n hposted
  simp only [step, hposted] at ht
  cases ht
  exact begins_spec (s := { s with now := s.now + n, posted := rest }) hbegins hcache h.contexts
    hcounted resolver

/-- The step lemma: what is counted is kept, and a lookup that begins brings its key. -/
theorem step_spec {e : Nat × DnsEvent} (h : s.Inv cfg) (ht : step cfg s e = some t) :
    t.Inv cfg ∧ (s.KeysStay t ∨ ∃ resolver r rest, e.2 = .invoke false resolver ∧
      s.posted = r :: rest ∧ s.Begins cfg r ∧
      t.contexts.map (·.key) = s.contexts.map (·.key) ++ [r.key]) := by
  obtain ⟨n, ev⟩ := e
  have hn := h.later n
  unfold step at ht
  simp only at ht
  cases ev with
  | resolve sHost nPort =>
    cases ht
    refine ⟨⟨hn.cache.of_eq rfl rfl (Int.le_refl _), hn.contexts, ?_⟩, .inl (.of_eq rfl)⟩
    have hcounted := h.counted
    unfold Counted at hcounted ⊢
    simp only [List.map_append, List.map_singleton, List.range_succ, ← List.append_assoc]
      at hcounted ⊢
    exact hcounted.append_right _
  | invoke refused resolver =>
    cases hposted : s.posted with
    | nil =>
      rw [hposted] at ht
      cases ht
    | cons r rest =>
      by_cases hbegins : refused = false ∧ s.Begins cfg r
      · obtain ⟨rfl, hbegins⟩ := hbegins
        obtain ⟨hinv, hkeys⟩ :=
          step_begins (e := (n, .invoke false resolver)) h rfl hposted hbegins ht
        exact ⟨hinv, .inr ⟨resolver, r, rest, rfl, rfl, hbegins, hkeys⟩⟩
      · rw [hposted] at ht
        cases ht
        obtain ⟨hcache, hcounted⟩ := h.taken n hposted
        obtain ⟨hinv, hkeys⟩ := invoke_spec (s := { s with now := s.now + n, posted := rest })
          hcache h.contexts hcounted hbegins resolver
        exact ⟨hinv, .inl hkeys⟩
  | srvAnswer id status reply random instant later =>
    obtain ⟨c, hc, rfl⟩ := Option.map_eq_some_iff.mp ht
    obtain ⟨hc, hasked⟩ := Option.filter_eq_some_iff.mp hc
    have hheld := (hn.asked hc (.inl hasked)).srvQuery status reply random instant
    obtain ⟨hinv, hkeys⟩ := hheld.release later
    refine ⟨hinv, .inl (.trans (.of_eq ?_) hkeys)⟩
    rw [srvQuery_contexts]
  | addrAnswer id i status results later =>
    obtain ⟨c, hc, rfl⟩ := Option.map_eq_some_iff.mp ht
    obtain ⟨hinv, hkeys⟩ := (hn.answered hc).release later
    exact ⟨hinv, .inl hkeys⟩
  | reject =>
    cases ht
    obtain ⟨hinv, hkeys⟩ := hn.rejectPending (s.activeIndex.map (·.2)) (fun c hc hid => by
      obtain ⟨⟨key, id⟩, he, heq⟩ := List.mem_map.mp hid
      obtain ⟨d, hd, hindexed, -⟩ := indexed_context hn.contexts he
      have heq' : id = c.id := heq
      rw [heq'] at hd
      obtain rfl := Option.some.inj ((context_of_mem hn.contexts.ids hc).symm.trans hd)
      exact hindexed)
    exact ⟨hinv, .inl hkeys⟩

/-- The claims about one state: each reporter is called once or waits in its context or its request,
each context has a key of its own, and the cache and its queue list the same keys. -/
structure Disciplined (s : DnsState) : Prop where
  once : (s.answers.map (·.1) ++ (s.contexts.flatMap (·.cbs) ++ s.posted.map (·.rep))).Perm
    (List.range s.calls)
  single : (s.contexts.map (·.key)).Nodup
  same : (s.dnsCache.map (·.key)).Perm s.dnsExpQ
  nodup : s.dnsExpQ.Nodup
  small : s.dnsExpQ.length < DNS_CACHE_MAX

theorem start_inv (cfg : DnsCfg) (now : Int) : Inv { now } cfg where
  cache := ⟨rfl, .nil, Nat.zero_lt_succ _, nofun, .nil, nofun, fun _ => rfl⟩
  contexts := ⟨.refl _, .nil, .nil, nofun, nofun⟩
  counted := .refl _

/-- Whatever happens, each reporter is called once, and the cache and its queue agree. Each object
has a key of its own all the time if and only if no lookup begins for the key of a lookup that was begun
without a resolver. -/
theorem answered_once_iff (cfg : DnsCfg) (now : Int) (es : List (Nat × DnsEvent)) (s : DnsState)
    (h : runs (step cfg) { now } es = some s) :
    (∀ pre post m, es = pre ++ post → runs (step cfg) { now } pre = some m → m.Disciplined) ↔
      ∀ pre e post m, es = pre ++ e :: post → runs (step cfg) { now } pre = some m →
        ¬ m.LeaksAgain cfg e := by
  refine runs_all_iff (fun m => m.Inv cfg ∧ (m.contexts.map (·.key)).Nodup)
    ⟨start_inv cfg now, .nil⟩ ?_ ?_ ?_ h
  · intro m hm
    exact ⟨hm.1.counted, hm.2, .of_eq hm.1.cache.keys, hm.1.cache.nodup, hm.1.cache.small⟩
  · intro m e t hm hno ht
    obtain ⟨hinv, hkeys | ⟨resolver, r, rest, he, hposted, hbegins, hkeys⟩⟩ := step_spec hm.1 ht
    · exact ⟨hinv, hkeys.nodup hm.2⟩
    · refine ⟨hinv, ?_⟩
      rw [hkeys, List.nodup_append]
      refine ⟨hm.2, List.pairwise_singleton _ _, fun k hk k' hk' heq => ?_⟩
      rw [List.mem_singleton] at hk'
      obtain ⟨c, hc, rfl⟩ := List.mem_map.mp hk
      have hkey : c.key = r.key := heq.trans hk'
      cases hindexed : c.indexed with
      | false => exact hno ⟨resolver, r, rest, he, hposted, hbegins, c, hc, hindexed, hkey⟩
      | true => exact hbegins.not_indexed hm.1.contexts hc hindexed hkey
  · intro m e t hm hbad ht hd
    obtain ⟨resolver, r, rest, he, hposted, hbegins, c, hc, -, hkey⟩ := hbad
    have hkeys := (step_begins hm.1 he hposted hbegins ht).2
    have hsingle := hd.single
    rw [hkeys, List.nodup_append] at hsingle
    exact hsingle.2.2 _ (List.mem_map_of_mem hc) _ List.mem_cons_self hkey

/-- Two requests share a lookup, and the host is asked for behind its services. -/
def sharedLookup : List (Nat × DnsEvent) :=
  [(0, .resolve (lit "a") 80), (0, .resolve (lit "a") 80), (0, .invoke false true),
    (1, .invoke false true), (1, .srvAnswer 0 1 none [] [] 0),
    (1, .addrAnswer 0 0 0 (some [{ info := ⟨PF_INET, [127, 0, 0, 1]⟩ }]) 0)]

theorem sharedLookup_once :
    ∃ s, runs (step {}) { now := 0 } sharedLookup = some s ∧ s.answers.map (·.1) = [0, 1] ∧
      ((∀ pre post m, sharedLookup = pre ++ post → runs (step {}) { now := 0 } pre = some m →
        m.Disciplined) ↔
      ∀ pre e post m, sharedLookup = pre ++ e :: post → runs (step {}) { now := 0 } pre = some m →
        ¬ m.LeaksAgain {} e) := by
  have h : (runs (step {}) { now := 0 } sharedLookup).map (fun s => s.answers.map (·.1)) =
      some [0, 1] := by decide +kernel
  obtain ⟨s, hs, hanswers⟩ := Option.map_eq_some_iff.mp h
  exact ⟨s, hs, hanswers, answered_once_iff {} 0 _ s hs⟩

/-- Without a resolver each request leaves an object of its own. -/
theorem unresolved_objects :
    ∃ s, runs (step {}) { now := 0 } [(0, .resolve (lit "a") 80), (0, .invoke false false),
      (0, .resolve (lit "a") 80), (0, .invoke false false)] = some s ∧
      s.contexts.map (·.key) = [makeHostPortKey (lit "a") 80, makeHostPortKey (lit "a") 80] ∧
      ¬ s.Disciplined := by
  have h : (runs (step {}) { now := 0 } [(0, .resolve (lit "a") 80), (0, .invoke false false),
      (0, .resolve (lit "a") 80), (0, .invoke false false)]).map (fun s => s.contexts.map (·.key)) =
      some [makeHostPortKey (lit "a") 80, makeHostPortKey (lit "a") 80] := by decide +kernel
  obtain ⟨s, hs, hkeys⟩ := Option.map_eq_some_iff.mp h
  refine ⟨s, hs, hkeys, fun hd => ?_⟩
  have hsingle := hd.single
  rw [hkeys] at hsingle
  exact absurd List.mem_cons_self (List.nodup_cons.mp hsingle).1

end DnsState

end Acng
