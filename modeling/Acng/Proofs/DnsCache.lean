import Acng.Proofs.Dns

namespace Acng
open Lib

namespace DnsState

variable {cfg : DnsCfg} {s t : DnsState}

/-- What was served from the cache and what was purged was right. -/
def Fresh (s : DnsState) : Prop := (∀ h ∈ s.hits, h.Right) ∧ ∀ p ∈ s.purges, p.Right

/-- Nothing was served from the cache, and nothing was purged. -/
theorem Fresh.quiet (hhits : t.hits = s.hits) (hpurges : t.purges = s.purges) :
    t.Fresh ↔ s.Fresh := by
  rw [Fresh, Fresh, hhits, hpurges]

/-- The context whose last reference is given away, and how long its destructor is busy before it
cleans the cache. -/
def leaving (s : DnsState) : DnsEvent → Option (DnsContext × Nat)
  | .srvAnswer id status reply random instant later =>
    ((s.context id).filter (·.asked)).bind (fun c =>
      let c := (s.srvQuery c status reply random instant).2
      if c.tasks.any (·.pending) then none else some (c, later))
  | .addrAnswer id i status results later =>
    ((s.context id).filter (fun c => (c.tasks.map (·.pending)).getD i false)).bind (fun c =>
      let c := c.answered i status results
      if c.tasks.any (·.pending) then none else some (c, later))
  | _ => none

/-- A host is asked for whose entry has expired, or a context is finished while the oldest entry
that the size limit leaves is still good. -/
def Stale (cfg : DnsCfg) (s : DnsState) (e : Nat × DnsEvent) : Prop :=
  (∃ resolver r rest entry, e.2 = .invoke false resolver ∧ s.posted = r :: rest ∧
    0 < cfg.dnscachetime ∧ s.cached r.key = some entry ∧ entry.info.expTime < s.now + e.1) ∨
  ∃ c later, s.leaving e.2 = some (c, later) ∧
    PurgesEarly cfg { s with now := s.now + e.1 } c later

/-- A context that changes or goes away. -/
theorem release_fresh {c d : DnsContext} (h : s.Held cfg c d) (later : Nat) :
    (s.release cfg c later).Fresh ↔
      s.Fresh ∧ ¬ (c.tasks.any (·.pending) = false ∧ s.PurgesEarly cfg c later) := by
  unfold release
  split
  · rename_i hpending
    rw [and_iff_left (fun hno => absurd (hpending.symm.trans hno.1) (by decide))]
    exact Fresh.quiet rfl rfl
  · rename_i hdone
    obtain ⟨-, -, hhits, hpurges⟩ := h.destroy later
    rw [Fresh, Fresh, hhits, hpurges, and_assoc]
    refine and_congr_right fun _ => and_congr_right fun _ => not_congr ?_
    exact (and_iff_right (Bool.eq_false_iff.mpr hdone)).symm

/-- What happens to the cache with an answer to a context. -/
theorem leave_fresh {m : DnsState} {c d : DnsContext} {n later : Nat} {ev : DnsEvent}
    (h : m.Held cfg c d) (hhits : m.hits = s.hits) (hpurges : m.purges = s.purges)
    (hcache : m.dnsCache = s.dnsCache) (hnow : m.now = s.now + n)
    (hev : ∀ refused resolver, ev ≠ .invoke refused resolver)
    (hleave : s.leaving ev = if c.tasks.any (·.pending) then none else some (c, later)) :
    (m.release cfg c later).Fresh ↔ s.Fresh ∧ ¬ s.Stale cfg (n, ev) := by
  refine (release_fresh h later).trans (and_congr (Fresh.quiet hhits hpurges) (not_congr ?_))
  have hearly (c : DnsContext) (later : Nat) : m.PurgesEarly cfg c later ↔
      PurgesEarly cfg { s with now := s.now + n } c later := by
    rw [PurgesEarly, PurgesEarly, survivor, survivor, hcache, hnow]
  rw [hearly]
  constructor
  · rintro ⟨hdone, hpurge⟩
    rw [if_neg (Bool.eq_false_iff.mp hdone)] at hleave
    exact .inr ⟨c, later, hleave, hpurge⟩
  · rintro (⟨resolver, -, -, -, heq, -⟩ | ⟨c', later', heq, hpurge⟩)
    · exact absurd heq (hev _ _)
    · rw [heq] at hleave
      split at hleave
      · cases hleave
      · rename_i hdone
        cases hleave
        exact ⟨Bool.eq_false_iff.mpr hdone, hpurge⟩

theorem cbSrvQuery_eq (c : DnsContext) (status : Int) (reply : Option (List SrvReply))
    (random : List Nat) (instant : List (Option (Int × Option (List AddrNode)))) (later : Nat) :
    s.cbSrvQuery cfg c status reply random instant later =
      (s.srvQuery c status reply random instant).1.release cfg
        (s.srvQuery c status reply random instant).2 later := rfl

theorem srvQuery_quiet (s s' : DnsState) (c : DnsContext) (status : Int)
    (reply : Option (List SrvReply)) (random : List Nat)
    (instant : List (Option (Int × Option (List AddrNode)))) :
    (s.srvQuery c status reply random instant).1.hits = s.hits ∧
      (s.srvQuery c status reply random instant).1.purges = s.purges ∧
      (s.srvQuery c status reply random instant).1.dnsCache = s.dnsCache ∧
      (s.srvQuery c status reply random instant).1.now = s.now ∧
      (s.srvQuery c status reply random instant).2 =
        (s'.srvQuery c status reply random instant).2 := by
  unfold srvQuery
  simp only
  split
  · exact ⟨rfl, rfl, rfl, rfl, rfl⟩
  · split
    · exact ⟨rfl, rfl, rfl, rfl, rfl⟩
    · exact ⟨rfl, rfl, rfl, rfl, rfl⟩

theorem rejectPending_quiet (ids : List Nat) (s : DnsState) :
    (s.rejectPending ids).hits = s.hits ∧ (s.rejectPending ids).purges = s.purges := by
  induction ids generalizing s with
  | nil => exact ⟨rfl, rfl⟩
  | cons id ids ih =>
    rw [rejectPending]
    split
    · exact ih s
    · exact ih _

/-- A hit is right if the entry has not expired. -/
theorem hit_right (h : s.CacheOk cfg) {key : Bytes} {entry : DnsEntry}
    (hfound : s.cached key = some entry) :
    DnsHit.Right { entry, time := s.now } ↔ ¬ entry.info.expTime < s.now := by
  rw [Int.not_lt]
  refine ⟨fun hright => hright.1, fun hexp => ⟨hexp, fun hnil => ?_⟩⟩
  exact hexp.trans (h.errors entry (List.mem_of_find?_eq_some hfound) hnil)

theorem invoke_fresh {r : DnsRequest} (refused resolver : Bool) (h : s.CacheOk cfg) :
    (s.invoke cfg r refused resolver).Fresh ↔ s.Fresh ∧ ¬ (refused = false ∧ 0 < cfg.dnscachetime ∧
      ∃ entry, s.cached r.key = some entry ∧ entry.info.expTime < s.now) := by
  cases refused with
  | true =>
    rw [invoke_refused, and_iff_left (fun hno => absurd hno.1 (by decide))]
    exact Fresh.quiet rfl rfl
  | false =>
    rw [invoke, if_neg (by decide)]
    split
    · rename_i entry hhit
      obtain ⟨hon, hfound⟩ : 0 < cfg.dnscachetime ∧ s.cached r.key = some entry := by
        split at hhit
        · rename_i hon
          exact ⟨hon, hhit⟩
        · cases hhit
      have hstale : (∃ e, s.cached r.key = some e ∧ e.info.expTime < s.now) ↔
          entry.info.expTime < s.now := by
        constructor
        · rintro ⟨e, he, hlt⟩
          exact Option.some.inj (he.symm.trans hfound) ▸ hlt
        · exact fun hlt => ⟨entry, hfound, hlt⟩
      simp only [Fresh, answer, List.forall_mem_append, List.forall_mem_singleton,
        hit_right h hfound, hstale, hon, true_and]
      exact and_right_comm
    · rename_i hmiss
      have hnone : ¬ (0 < cfg.dnscachetime ∧
          ∃ e, s.cached r.key = some e ∧ e.info.expTime < s.now) := by
        rintro ⟨hon, e, he, -⟩
        rw [if_pos hon, he] at hmiss
        cases hmiss
      rw [and_iff_left (fun hno => hnone hno.2)]
      split
      · exact Fresh.quiet rfl rfl
      · simp only
        split
        · exact Fresh.quiet rfl rfl
        · exact Fresh.quiet rfl rfl

/-- The step lemma. -/
theorem step_fresh {e : Nat × DnsEvent} (h : s.Inv cfg) (ht : step cfg s e = some t) :
    t.Fresh ↔ s.Fresh ∧ ¬ s.Stale cfg e := by
  obtain ⟨n, ev⟩ := e
  have hn := h.later n
  have hquiet (hno : ∀ refused resolver, ev ≠ .invoke refused resolver)
      (hstay : s.leaving ev = none) : ¬ s.Stale cfg (n, ev) := by
    rintro (⟨resolver, -, -, -, hev, -⟩ | ⟨c, later, hleave, -⟩)
    · exact hno _ _ hev
    · exact absurd (hstay.symm.trans hleave) nofun
  unfold step at ht
  simp only at ht
  cases ev with
  | resolve sHost nPort =>
    cases ht
    rw [and_iff_left (hquiet nofun rfl)]
    exact Fresh.quiet rfl rfl
  | invoke refused resolver =>
    cases hposted : s.posted with
    | nil =>
      rw [hposted] at ht
      cases ht
    | cons r rest =>
      rw [hposted] at ht
      cases ht
      refine (invoke_fresh refused resolver (h.taken n hposted).1).trans ?_
      refine and_congr_right fun _ => not_congr ⟨?_, ?_⟩
      · rintro ⟨rfl, hon, entry, hfound, hlt⟩
        exact .inl ⟨resolver, r, rest, entry, rfl, hposted, hon, hfound, hlt⟩
      · rintro (⟨resolver', r', rest', entry, hev, hcons, hon, hfound, hlt⟩ | ⟨c, later, hleave, -⟩)
        · cases hev
          cases hposted.symm.trans hcons
          exact ⟨rfl, hon, entry, hfound, hlt⟩
        · cases hleave
  | srvAnswer id status reply random instant later =>
    obtain ⟨c, hc, rfl⟩ := Option.map_eq_some_iff.mp ht
    obtain ⟨hfound, hasked⟩ := Option.filter_eq_some_iff.mp hc
    obtain ⟨hhits, hpurges, hcache, hnow, hsame⟩ :=
      srvQuery_quiet { s with now := s.now + n } s c status reply random instant
    rw [cbSrvQuery_eq]
    refine leave_fresh ((hn.asked hfound (.inl hasked)).srvQuery status reply random instant) hhits
      hpurges hcache hnow nofun ?_
    have hc' : (s.context id).filter (·.asked) = some c := hc
    rw [leaving, hc', hsame]
    rfl
  | addrAnswer id i status results later =>
    obtain ⟨c, hc, rfl⟩ := Option.map_eq_some_iff.mp ht
    refine leave_fresh (hn.answered hc) rfl rfl rfl rfl nofun ?_
    have hc' : (s.context id).filter (fun c => (c.tasks.map (·.pending)).getD i false) =
        some c := hc
    rw [leaving, hc']
    rfl
  | reject =>
    cases ht
    rw [and_iff_left (hquiet nofun rfl)]
    exact Fresh.quiet (rejectPending_quiet _ _).1 (rejectPending_quiet _ _).2

/-- For every sequence of events: no answer comes from an expired entry, and only expired entries
or the oldest one in a full cache are purged, if and only if no event finds the cache in a stale
state. -/
theorem cache_fresh_iff (cfg : DnsCfg) (now : Int) (es : List (Nat × DnsEvent)) (s : DnsState)
    (h : runs (step cfg) { now } es = some s) :
    s.Fresh ↔ ∀ pre e post m, es = pre ++ e :: post → runs (step cfg) { now } pre = some m →
      ¬ m.Stale cfg e := by
  have hstart : Fresh { now } :=
    ⟨fun _ hmem => absurd hmem List.not_mem_nil, fun _ hmem => absurd hmem List.not_mem_nil⟩
  refine runs_keep_iff Fresh hstart ?_ h
  intro as m e t hm ht
  refine step_fresh (runs_induct (motive := fun _ m => m.Inv cfg) (start_inv cfg now) ?_ hm) ht
  intro _ e m t _ hinv ht
  exact (step_spec hinv ht).1

/-- A host is looked up, and asked for again after a while. -/
def askedAgain (status : Int) (results : Option (List AddrNode)) (after : Nat) :
    List (Nat × DnsEvent) :=
  [(0, .resolve (lit "a") 80), (0, .invoke false true), (0, .srvAnswer 0 1 none [] [] 0),
    (0, .addrAnswer 0 0 status results 0), (after, .resolve (lit "a") 80), (0, .invoke false true)]

def localhost : Option (List AddrNode) := some [{ info := ⟨PF_INET, [127, 0, 0, 1]⟩ }]

theorem askedAgain_fresh :
    ∃ s, runs (step {}) { now := 0 } (askedAgain 0 localhost 5) = some s ∧ s.hits.length = 1 ∧
      (s.Fresh ↔ ∀ pre e post m, askedAgain 0 localhost 5 = pre ++ e :: post →
        runs (step {}) { now := 0 } pre = some m → ¬ m.Stale {} e) := by
  have h : (runs (step {}) { now := 0 } (askedAgain 0 localhost 5)).map (·.hits.length) =
      some 1 := by
    decide +kernel
  obtain ⟨s, hs, hhits⟩ := Option.map_eq_some_iff.mp h
  exact ⟨s, hs, hhits, cache_fresh_iff {} 0 _ s hs⟩

/-- An error is served two minutes later. -/
theorem error_kept :
    ∃ s, runs (step {}) { now := 0 } (askedAgain 11 none 120) = some s ∧
      s.hits.map (fun h => (h.time, h.entry.since, h.entry.info.expTime)) = [(120, 0, 10)] ∧
      ¬ s.Fresh := by
  have h : (runs (step {}) { now := 0 } (askedAgain 11 none 120)).map (fun s =>
      s.hits.map (fun h => (h.time, h.entry.since, h.entry.info.expTime))) =
        some [(120, 0, 10)] := by
    decide +kernel
  obtain ⟨s, hs, hhits⟩ := Option.map_eq_some_iff.mp h
  refine ⟨s, hs, hhits, fun hfresh => ?_⟩
  obtain ⟨hit, rest, hcons, hhit, -⟩ := List.map_eq_cons_iff.mp hhits
  have hright := (hfresh.1 hit (hcons ▸ List.mem_cons_self)).1
  simp only [Prod.mk.injEq] at hhit
  rw [hhit.1, hhit.2.2] at hright
  exact absurd hright (by decide)

/-- An entry that is still good for half an hour makes place for the next host. -/
example : (runs (step {}) { now := 0 } [(0, .resolve (lit "a") 80), (0, .invoke false true),
    (0, .srvAnswer 0 1 none [] [] 0), (0, .addrAnswer 0 0 0 localhost 0),
    (0, .resolve (lit "b") 80), (0, .invoke false true), (0, .srvAnswer 1 1 none [] [] 0),
    (1, .addrAnswer 1 0 0 localhost 0)]).map (fun s =>
      s.purges.map (fun p => (p.time, p.size, p.entry.info.expTime))) = some [(1, 1, 1800)] := by
  decide +kernel

end DnsState

end Acng
