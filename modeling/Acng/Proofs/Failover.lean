import Acng.Failover
import Acng.Proofs.Disconnected
import Mathlib.Data.Finset.Card
import Mathlib.Data.Finset.Filter
import Mathlib.Data.Finset.Dedup

namespace Acng
open Lib

namespace DlJob

variable {j j' : DlJob} {blacklist : StrMap} {msg msg' : Bytes}

/-- The targets that a job may be sent to. -/
def candidates (j : DlJob) : List HttpUrl :=
  if j.bBackendMode then j.pCurBackend.toList ++ j.backends else [j.getPeerHost]

/-- All targets of a job are blacklisted. -/
def Blocked (blacklist : StrMap) (j : DlJob) : Prop :=
  ∀ u ∈ j.candidates, (blacklist (hostPortKey u)).isSome = true

theorem Blocked.mono {blacklist' : StrMap} (h : j.Blocked blacklist)
    (hle : ∀ host, (blacklist host).isSome = true → (blacklist' host).isSome = true) :
    j.Blocked blacklist' :=
  fun u hu => hle _ (h u hu)

/-- The stream state says nothing about the target. -/
theorem same_target (h : j.resetStreamState = j'.resetStreamState) :
    j.getPeerHost = j'.getPeerHost ∧ j.pRepoDesc = j'.pRepoDesc := by
  have hpeer : j.resetStreamState.getPeerHost = j'.resetStreamState.getPeerHost := by rw [h]
  have hdesc : j.resetStreamState.pRepoDesc = j'.resetStreamState.pRepoDesc := by rw [h]
  exact ⟨hpeer, hdesc⟩

theorem findBackend_some {bends : List HttpUrl} {b : HttpUrl}
    (h : findBackend blacklist bends msg = (some b, msg')) :
    b ∈ bends ∧ blacklist (hostPortKey b) = none := by
  induction bends generalizing msg with
  | nil => cases h
  | cons a bends ih =>
    rw [findBackend] at h
    split at h
    · rename_i hnone
      cases h
      exact ⟨List.mem_cons_self, hnone⟩
    · exact (ih h).imp (List.mem_cons_of_mem a) id

theorem findBackend_none {bends : List HttpUrl}
    (h : findBackend blacklist bends msg = (none, msg')) :
    ∀ b ∈ bends, (blacklist (hostPortKey b)).isSome = true := by
  induction bends generalizing msg with
  | nil => exact fun b hb => absurd hb List.not_mem_nil
  | cons a bends ih =>
    rw [findBackend] at h
    split at h
    · cases h
    · rename_i reason hreason
      intro b hb
      rcases List.mem_cons.mp hb with rfl | hb
      · rw [hreason]
        rfl
      · exact ih h b hb

/-- A job is set up for one of its targets, which is not blacklisted. -/
theorem setupJobConfig_some (h : j.setupJobConfig msg blacklist = (some j', msg')) :
    j'.candidates ⊆ j.candidates ∧ j'.getPeerHost ∈ j'.candidates ∧
      blacklist (hostPortKey j'.getPeerHost) = none := by
  unfold setupJobConfig at h
  split at h
  · rename_i hmode
    split at h
    · rename_i hkeep
      cases h
      refine ⟨List.Subset.refl _, ?_⟩
      cases hcur : j.pCurBackend with
      | none => simp [hcur] at hkeep
      | some b =>
        simp only [hcur, Option.any_some, Option.isNone_iff_eq_none] at hkeep
        simp [candidates, hmode, hcur, getPeerHost, hkeep]
    · split at h
      · rename_i bend _ hfind
        cases h
        obtain ⟨hmem, hfree⟩ := findBackend_some hfind
        refine ⟨?_, ?_, hfree⟩
        · simp only [candidates, hmode, if_true, backends]
          refine List.append_subset.mpr ⟨?_, List.subset_append_right _ _⟩
          exact List.cons_subset.mpr ⟨List.mem_append_right _ hmem, List.nil_subset _⟩
        · simp [candidates, hmode, getPeerHost]
      · cases h
  · rename_i hmode
    split at h
    · rename_i hfree
      cases h
      exact ⟨List.Subset.refl _, by simp [candidates, hmode], hfree⟩
    · cases h

theorem setupJobConfig_none (h : j.setupJobConfig msg blacklist = (none, msg')) :
    j.Blocked blacklist := by
  unfold setupJobConfig at h
  unfold Blocked candidates
  split at h
  · rename_i hmode
    rw [if_pos hmode]
    split at h
    · cases h
    · rename_i hkeep
      split at h
      · cases h
      · rename_i hfind
        intro u hu
        rcases List.mem_append.mp hu with hu | hu
        · rw [Option.mem_toList.mp hu] at hkeep
          simpa [← Option.isSome_iff_ne_none] using hkeep
        · exact findBackend_none hfind u hu
  · rename_i hmode
    rw [if_neg hmode]
    split at h
    · cases h
    · rename_i reason hreason
      intro u hu
      rw [List.mem_singleton.mp hu, hreason]
      rfl

end DlJob

namespace ConnectPhase

variable {cfg : FailoverCfg} {p q r : ConnectPhase} {a : Attempts} {used : Bool}

/-- What the loop over the jobs leaves. -/
structure SetUp (p : ConnectPhase) (js : List DlJob) (q : ConnectPhase) : Prop where
  blacklist : q.blacklist = p.blacklist
  pool : q.spareConPool = p.spareConPool
  con : q.con = p.con
  active : q.activeJobs = p.activeJobs
  count : q.nextJobs.length + q.dropped.length = p.nextJobs.length + p.dropped.length + js.length
  kept : ∃ kept, q.nextJobs = p.nextJobs ++ kept ∧ ∀ j ∈ kept,
    j.getPeerHost ∈ j.candidates ∧ p.blacklist (hostPortKey j.getPeerHost) = none ∧
      ∃ it ∈ js, j.candidates ⊆ it.candidates
  lost : ∃ lost, q.dropped = p.dropped ++ lost ∧ ∀ j ∈ lost, j.Blocked p.blacklist

theorem SetUp.keep {js : List DlJob} {it job : DlJob} {msg msg' : Bytes}
    (hsetup : it.setupJobConfig msg p.blacklist = (some job, msg'))
    (h : SetUp { p with nextJobs := p.nextJobs ++ [job], sErrorMsg := msg' } js q) :
    SetUp p (it :: js) q := by
  obtain ⟨hsub, hmem, hfree⟩ := DlJob.setupJobConfig_some hsetup
  obtain ⟨kept, hkept, hall⟩ := h.kept
  refine ⟨h.blacklist, h.pool, h.con, h.active, ?_, ⟨job :: kept, ?_, fun j hj => ?_⟩, h.lost⟩
  · have hcount := h.count
    simp only [List.length_append, List.length_cons, List.length_nil] at hcount ⊢
    omega
  · rw [hkept, List.append_assoc, List.singleton_append]
  · rcases List.mem_cons.mp hj with rfl | hj
    · exact ⟨hmem, hfree, it, List.mem_cons_self, hsub⟩
    · obtain ⟨hpeer, hfree, it', hit, hsub⟩ := hall j hj
      exact ⟨hpeer, hfree, it', List.mem_cons_of_mem _ hit, hsub⟩

theorem SetUp.drop {js : List DlJob} {it : DlJob} {msg msg' text : Bytes}
    (hsetup : it.setupJobConfig msg p.blacklist = (none, msg'))
    (h : SetUp { p with sErrorMsg := msg', dropped := p.dropped ++ [{ it with sErrorMsg := text }] }
      js q) :
    SetUp p (it :: js) q := by
  have hblocked : it.Blocked p.blacklist := DlJob.setupJobConfig_none hsetup
  obtain ⟨kept, hkept, hall⟩ := h.kept
  obtain ⟨lost, hlost, hlostAll⟩ := h.lost
  refine ⟨h.blacklist, h.pool, h.con, h.active, ?_, ⟨kept, hkept, fun j hj => ?_⟩,
    ⟨{ it with sErrorMsg := text } :: lost, ?_, fun j hj => ?_⟩⟩
  · have hcount := h.count
    simp only [List.length_append, List.length_cons, List.length_nil] at hcount ⊢
    omega
  · obtain ⟨hpeer, hfree, it', hit, hsub⟩ := hall j hj
    exact ⟨hpeer, hfree, it', List.mem_cons_of_mem _ hit, hsub⟩
  · rw [hlost, List.append_assoc, List.singleton_append]
  · rcases List.mem_cons.mp hj with rfl | hj
    · exact hblocked
    · exact hlostAll j hj

theorem setupJobs_spec (p : ConnectPhase) (js : List DlJob) : SetUp p js (p.setupJobs js) := by
  induction js generalizing p with
  | nil =>
    rw [setupJobs]
    have hnil (P : DlJob → Prop) : ∀ j ∈ ([] : List DlJob), P j := fun _ hj => nomatch hj
    exact ⟨rfl, rfl, rfl, rfl, rfl, ⟨[], (List.append_nil _).symm, hnil _⟩,
      ⟨[], (List.append_nil _).symm, hnil _⟩⟩
  | cons it js ih =>
    rw [setupJobs]
    split
    · rename_i hsetup
      exact .keep hsetup (ih _)
    · rename_i hsetup
      exact .drop hsetup (ih _)

/-- What the attempts leave as it was. The jobs are the same up to their stream state, and a used
connection is missing in the pool. -/
structure Tried (p q : ConnectPhase) (used : Bool) : Prop where
  blacklist : q.blacklist = p.blacklist
  dropped : q.dropped = p.dropped
  jobs : q.nextJobs.map DlJob.resetStreamState = p.nextJobs.map DlJob.resetStreamState
  active : p.activeJobs = [] → q.activeJobs = []
  pool : q.spareConPool.length + used.toNat ≤ p.spareConPool.length

theorem Tried.trans {u v w : Bool} (h : Tried p q u) (h' : Tried q r v)
    (hused : w.toNat ≤ u.toNat + v.toNat) : Tried p r w where
  blacklist := h'.blacklist.trans h.blacklist
  dropped := h'.dropped.trans h.dropped
  jobs := h'.jobs.trans h.jobs
  active := fun hactive => h'.active (h.active hactive)
  pool := by
    have := h.pool
    have := h'.pool
    omega

theorem createConnected_spec (p : ConnectPhase) (tgt : HttpUrl) (fresh : Except Bytes Unit) :
    Tried p (p.createConnected tgt fresh).1 (p.createConnected tgt fresh).2 ∧
      ∀ up, (p.createConnected tgt fresh).1.con = some up → up = streamTo tgt := by
  unfold createConnected
  by_cases hspare : p.spareConPool.contains (streamTo tgt) = true
  · simp only [hspare, if_true]
    refine ⟨⟨rfl, rfl, rfl, id, ?_⟩, fun up hup => (Option.some.inj hup).symm⟩
    have hmem : streamTo tgt ∈ p.spareConPool := List.contains_iff_mem.mp hspare
    have := List.length_erase_of_mem hmem
    have := List.length_pos_of_mem hmem
    simp only [Bool.toNat_true]
    omega
  · simp only [hspare]
    cases fresh with
    | ok _ => exact ⟨⟨rfl, rfl, rfl, id, Nat.le_refl _⟩, fun up hup => (Option.some.inj hup).symm⟩
    | error msg => exact ⟨⟨rfl, rfl, rfl, id, Nat.le_refl _⟩, nofun⟩

theorem doconnect_spec (p : ConnectPhase) (tgt : HttpUrl) (fresh : Except Bytes Unit) :
    Tried p (p.doconnect tgt fresh).1 (p.doconnect tgt fresh).2 ∧
      ∀ up, (p.doconnect tgt fresh).1.con = some up → up = streamTo tgt := by
  let p' : ConnectPhase := { p with
    nextJobs := p.nextJobs.map DlJob.resetStreamState
    activeJobs := p.activeJobs.map DlJob.resetStreamState }
  have hreset : Tried p p' false := by
    refine ⟨rfl, rfl, ?_, fun hactive => List.map_eq_nil_iff.mpr hactive, Nat.le_refl _⟩
    exact (List.map_map ..).trans rfl
  obtain ⟨htried, hcon⟩ := createConnected_spec p' tgt fresh
  exact ⟨hreset.trans htried (Nat.le_add_left _ _), hcon⟩

/-- The tunnel works on the connection only. -/
theorem startTunnel_spec (p : ConnectPhase) (peerHost : HttpUrl) (tunnel : Except Bytes Unit) :
    Tried p (p.startTunnel peerHost tunnel) false ∧
      ∀ up, (p.startTunnel peerHost tunnel).con = some up →
        up = ⟨peerHost.sHost, peerHost.getPort, true⟩ := by
  unfold startTunnel
  split
  · rename_i hnone
    exact ⟨⟨rfl, rfl, rfl, id, Nat.le_refl _⟩, fun up hup => absurd (hnone.symm.trans hup) nofun⟩
  · exact ⟨⟨rfl, rfl, rfl, id, Nat.le_refl _⟩, fun up hup => (Option.some.inj hup).symm⟩
  · exact ⟨⟨rfl, rfl, rfl, id, Nat.le_refl _⟩, nofun⟩

/-- The connection leads to the host, or without encryption to a proxy for it. -/
def Leads (proxy : Option HttpUrl) (peerHost : HttpUrl) (up : DlStream) : Prop :=
  up = streamTo peerHost ∨ peerHost.bSSL = false ∧ proxy.map streamTo = some up

theorem firstAttempt_spec (p : ConnectPhase) (a : Attempts) (proxy : Option HttpUrl)
    (peerHost : HttpUrl) :
    Tried p (p.firstAttempt a proxy peerHost).1 (p.firstAttempt a proxy peerHost).2 ∧
      ∀ up, (p.firstAttempt a proxy peerHost).1.con = some up → Leads proxy peerHost up := by
  unfold firstAttempt
  cases proxy with
  | none => exact (doconnect_spec p peerHost a.first).imp id (fun h up hup => .inl (h up hup))
  | some proxy =>
    obtain ⟨htried, hcon⟩ := doconnect_spec p proxy a.first
    simp only
    generalize p.doconnect proxy a.first = r at htried hcon ⊢
    obtain ⟨r, bUsed⟩ := r
    cases hssl : peerHost.bSSL with
    | true =>
      obtain ⟨htunnel, hend⟩ := startTunnel_spec r peerHost a.tunnel
      refine ⟨htried.trans htunnel (Nat.le_add_right _ _), fun up hup => .inl ?_⟩
      rw [hend up hup, streamTo, hssl]
    | false =>
      exact ⟨htried, fun up hup => .inr ⟨hssl, congrArg some (hcon up hup).symm⟩⟩

theorem attempts_spec (cfg : FailoverCfg) (p : ConnectPhase) (a : Attempts) (cjob : DlJob) :
    Tried p (p.attempts cfg a cjob).1 (p.attempts cfg a cjob).2 ∧
      ∀ up, (p.attempts cfg a cjob).1.con = some up →
        Leads (p.prefProxy a cjob) cjob.getPeerHost up := by
  unfold attempts
  obtain ⟨htried, hcon⟩ := firstAttempt_spec p a (p.prefProxy a cjob) cjob.getPeerHost
  simp only
  generalize p.firstAttempt a (p.prefProxy a cjob) cjob.getPeerHost = r at htried hcon ⊢
  obtain ⟨r, bUsed⟩ := r
  simp only
  split
  · rename_i hbroken
    obtain ⟨hsecond, hdirect⟩ :=
      doconnect_spec { r with bProxyTot := true } cjob.getPeerHost a.second
    have hdisable : Tried r { r with bProxyTot := true } false :=
      ⟨rfl, rfl, rfl, id, Nat.le_refl _⟩
    have hboth := hdisable.trans hsecond (Nat.le_add_left _ _)
    exact ⟨htried.trans hboth (Nat.le_add_left _ _), fun up hup => .inl (hdirect up hup)⟩
  · exact ⟨htried, hcon⟩

/-- Which job is the front one after the attempts. -/
theorem Tried.front {cjob : DlJob} {rest : List DlJob} (h : Tried p q used)
    (hp : p.nextJobs = cjob :: rest) :
    ∃ front rest', q.nextJobs = front :: rest' ∧
      front.resetStreamState = cjob.resetStreamState := by
  have hjobs := h.jobs
  rw [hp, List.map_cons] at hjobs
  obtain ⟨front, rest', hq, hfront, -⟩ := List.map_eq_cons_iff.mp hjobs
  exact ⟨front, rest', hq, hfront⟩

/-- What can be said of all jobs without a look at their stream states. -/
theorem Tried.forall_jobs (P : DlJob → Prop) (hP : ∀ j, P j.resetStreamState ↔ P j)
    (h : Tried p q used) : (∀ j ∈ q.nextJobs, P j) ↔ ∀ j ∈ p.nextJobs, P j := by
  have hreset (js : List DlJob) : (∀ j ∈ js, P j) ↔ ∀ j ∈ js.map DlJob.resetStreamState, P j := by
    rw [List.forall_mem_map]
    exact forall₂_congr (fun j _ => (hP j).symm)
  rw [hreset, h.jobs, ← hreset]

/-- An iteration without a connection: no job is left, or the attempts for the first one end with a
connection, with a used one that is given up, or with its host on the blacklist. -/
theorem turn_cases (cfg : FailoverCfg) (p : ConnectPhase) (a : Attempts) (hover : p.finished = false) :
    let q := p.prepare a
    (q.nextJobs = [] ∧ p.turn cfg a = q) ∨
      ∃ cjob rest r used, q.nextJobs = cjob :: rest ∧ Tried q r used ∧
        ((∃ up, r.con = some up ∧ Leads (q.prefProxy a cjob) cjob.getPeerHost up ∧
            p.turn cfg a = r) ∨
          (used = true ∧ p.turn cfg a = { r with con := none }) ∨
          (r.con = none ∧ p.turn cfg a = r.blacklistMirror cjob)) := by
  intro q
  cases hjobs : q.nextJobs with
  | nil =>
    refine .inl ⟨rfl, ?_⟩
    simp only [turn, hover, Bool.false_eq_true, if_false, show (p.prepare a).nextJobs = [] from hjobs]
    rfl
  | cons cjob rest =>
    right
    obtain ⟨htried, hcon⟩ := attempts_spec cfg q a cjob
    refine ⟨cjob, rest, _, _, rfl, htried, ?_⟩
    simp only [turn, hover, Bool.false_eq_true, if_false,
      show (p.prepare a).nextJobs = cjob :: rest from hjobs]
    cases hup : (q.attempts cfg a cjob).1.con with
    | none => exact .inr (.inr ⟨rfl, by simp [q]⟩)
    | some up =>
      simp only [q, Option.isSome_some, if_true]
      split
      · rename_i hstale
        exact .inr (.inl ⟨(Bool.and_eq_true_iff.mp hstale).1, rfl⟩)
      · exact .inl ⟨up, rfl, hcon up hup, rfl⟩

/-- The hosts that may still be tried. -/
def hosts (p : ConnectPhase) : Finset Bytes :=
  ((p.nextJobs.flatMap DlJob.candidates).map hostPortKey).toFinset.filter
    (fun host => p.blacklist host = none)

theorem mem_hosts {host : Bytes} :
    host ∈ p.hosts ↔ (∃ j ∈ p.nextJobs, ∃ u ∈ j.candidates, hostPortKey u = host) ∧
      p.blacklist host = none := by
  simp only [hosts, Finset.mem_filter, List.mem_toFinset, List.mem_map, List.mem_flatMap]
  refine and_congr_left fun _ => ⟨?_, ?_⟩
  · rintro ⟨u, ⟨j, hj, hu⟩, rfl⟩
    exact ⟨j, hj, u, hu, rfl⟩
  · rintro ⟨j, hj, u, hu, rfl⟩
    exact ⟨u, ⟨j, hj, hu⟩, rfl⟩

/-- The number of iterations that may still follow. -/
def remaining (p : ConnectPhase) : Nat := p.hosts.card + p.spareConPool.length

/-- The jobs that can still be done need no other hosts than before. -/
theorem prepare_spec (p : ConnectPhase) (a : Attempts) :
    (p.prepare a).blacklist = p.blacklist ∧
      (p.prepare a).spareConPool.length ≤ p.spareConPool.length ∧
      (p.prepare a).con = p.con ∧ (p.prepare a).activeJobs = [] ∧
      (∀ j ∈ (p.prepare a).nextJobs, j.getPeerHost ∈ j.candidates ∧
        p.blacklist (hostPortKey j.getPeerHost) = none ∧
        ∃ it ∈ p.nextJobs, j.candidates ⊆ it.candidates) ∧
      (p.prepare a).nextJobs.length + (p.prepare a).dropped.length =
        p.nextJobs.length + p.activeJobs.length + p.dropped.length ∧
      ∃ lost, (p.prepare a).dropped = p.dropped ++ p.activeJobs ++ lost ∧
        ∀ j ∈ lost, j.Blocked p.blacklist := by
  have h := setupJobs_spec { p with
    nextJobs := [], activeJobs := [], spareConPool := p.spareConPool.diff a.taken
    dropped := p.dropped ++ p.activeJobs } p.nextJobs
  obtain ⟨kept, hkept, hall⟩ := h.kept
  refine ⟨h.blacklist, ?_, h.con, h.active, ?_, ?_, h.lost⟩
  · exact (congrArg List.length h.pool).trans_le (List.diff_sublist _ _).length_le
  · rw [prepare, hkept]
    exact hall
  · have hcount := h.count
    rw [List.length_append] at hcount
    rw [prepare, hcount, List.length_nil]
    omega

theorem prepare_hosts (p : ConnectPhase) (a : Attempts) : (p.prepare a).hosts ⊆ p.hosts := by
  obtain ⟨hblack, -, -, -, hjobs, -⟩ := prepare_spec p a
  intro host hhost
  obtain ⟨⟨j, hj, u, hu, rfl⟩, hfree⟩ := mem_hosts.mp hhost
  obtain ⟨-, -, it, hit, hsub⟩ := hjobs j hj
  exact mem_hosts.mpr ⟨⟨it, hit, u, hsub hu, rfl⟩, hblack ▸ hfree⟩

theorem Tried.hosts (h : Tried p q used) : q.hosts = p.hosts := by
  have hcand (js : List DlJob) :
      js.flatMap DlJob.candidates = (js.map DlJob.resetStreamState).flatMap DlJob.candidates :=
    (List.flatMap_map DlJob.resetStreamState DlJob.candidates js).symm
  unfold ConnectPhase.hosts
  rw [hcand, h.jobs, ← hcand, h.blacklist]

/-- A host that gets on the blacklist is not tried again. -/
theorem blacklistMirror_hosts {job : DlJob}
    (hmem : hostPortKey job.getPeerHost ∈ p.hosts) :
    (p.blacklistMirror job).hosts.card < p.hosts.card := by
  refine Finset.card_lt_card (Finset.ssubset_iff_of_subset ?_ |>.mpr ⟨_, hmem, ?_⟩)
  · intro host hhost
    obtain ⟨hjobs, hfree⟩ := mem_hosts.mp hhost
    refine mem_hosts.mpr ⟨hjobs, ?_⟩
    by_cases hk : host = hostPortKey job.getPeerHost
    · simp [blacklistMirror, hk] at hfree
    · simpa [blacklistMirror, Function.update_of_ne hk] using hfree
  · intro hhost
    simpa [blacklistMirror] using (mem_hosts.mp hhost).2

/-- The step lemma of the measure. -/
theorem turn_remaining (p : ConnectPhase) (a : Attempts) (hover : p.finished = false) :
    (p.turn cfg a).finished = true ∨ (p.turn cfg a).remaining < p.remaining := by
  obtain ⟨hblack, hpool, hcon, hactive, hjobs, -⟩ := prepare_spec p a
  have hhosts : (p.prepare a).hosts.card ≤ p.hosts.card := Finset.card_le_card (prepare_hosts p a)
  obtain ⟨hnil, hturn⟩ | ⟨cjob, rest, r, used, hcons, htried, hcases⟩ :=
    turn_cases cfg p a hover
  · refine .inl ?_
    rw [hturn, finished, hnil, hactive]
    exact Bool.or_true _
  have hr : r.hosts.card = (p.prepare a).hosts.card := congrArg _ htried.hosts
  have hlen := htried.pool
  obtain ⟨up, hup, -, hturn⟩ | ⟨rfl, hturn⟩ | ⟨-, hturn⟩ := hcases
  · refine .inl ?_
    rw [hturn, finished, hup]
    rfl
  · refine .inr ?_
    have hgiven : ({ r with con := none } : ConnectPhase).remaining = r.remaining := rfl
    rw [hturn, hgiven, remaining, remaining]
    rw [Bool.toNat_true] at hlen
    omega
  · refine .inr ?_
    have hmem : hostPortKey cjob.getPeerHost ∈ r.hosts := by
      have hfront : cjob ∈ (p.prepare a).nextJobs := hcons ▸ List.mem_cons_self
      obtain ⟨hpeer, hfree, -⟩ := hjobs cjob hfront
      rw [htried.hosts]
      exact mem_hosts.mpr ⟨⟨cjob, hfront, _, hpeer, rfl⟩, hblack ▸ hfree⟩
    have hless := blacklistMirror_hosts hmem
    have hkeep : (r.blacklistMirror cjob).spareConPool.length = r.spareConPool.length := rfl
    rw [hturn, remaining, remaining]
    omega

/-- What holds at the head of each iteration. The proxies are those of the settings. -/
structure Sound (total : Nat) (settings : HttpUrl → Prop) (p : ConnectPhase) : Prop where
  count : p.nextJobs.length + p.dropped.length = total
  active : p.activeJobs = []
  blocked : ∀ j ∈ p.dropped, j.Blocked p.blacklist
  connected : ∀ up, p.con = some up → ∃ front rest proxy, p.nextJobs = front :: rest ∧
    Leads proxy front.getPeerHost up ∧
    (∀ u, proxy = some u → front.pRepoDesc.bind (·.pProxy) = some u ∨ settings u) ∧
    ∀ j ∈ p.nextJobs, p.blacklist (hostPortKey j.getPeerHost) = none

variable {total : Nat} {settings : HttpUrl → Prop}

theorem prefProxy_settings (p : ConnectPhase) {cjob : DlJob}
    (hset : ∀ u, a.proxyInfo = some u → settings u) {u : HttpUrl}
    (h : p.prefProxy a cjob = some u) :
    cjob.pRepoDesc.bind (·.pProxy) = some u ∨ settings u := by
  unfold prefProxy at h
  split at h
  · cases h
  · split at h
    · rename_i proxy hproxy
      cases h
      exact .inl (Option.eq_some_of_filter_eq_some hproxy)
    · exact .inr (hset u h)

theorem Sound.prepare (h : Sound total settings p) (hover : p.finished = false) :
    Sound total settings (p.prepare a) ∧
      ∀ j ∈ (p.prepare a).nextJobs, (p.prepare a).blacklist (hostPortKey j.getPeerHost) = none := by
  obtain ⟨hblack, -, hcon, hactive, hjobs, hcount, lost, hdropped, hlost⟩ := prepare_spec p a
  have hnone : p.con = none := by
    unfold finished at hover
    cases hp : p.con with
    | none => rfl
    | some up => simp [hp] at hover
  refine ⟨⟨?_, hactive, ?_, fun up hup => ?_⟩, fun j hj => ?_⟩
  · have := h.count
    rw [h.active, List.length_nil] at hcount
    omega
  · intro j hj
    rw [hdropped, h.active, List.append_nil] at hj
    rw [hblack]
    exact (List.mem_append.mp hj).elim (h.blocked j) (hlost j)
  · rw [hcon, hnone] at hup
    cases hup
  · rw [hblack]
    exact (hjobs j hj).2.1

/-- The attempts and the blacklist leave the rest of it. -/
theorem Sound.tried (h : Sound total settings p) (htried : Tried p q used) (blacklist : StrMap)
    (hle : ∀ host, (p.blacklist host).isSome = true → (blacklist host).isSome = true) :
    Sound total settings { q with con := none, blacklist } where
  count := by
    have hlen := congrArg List.length htried.jobs
    rw [List.length_map, List.length_map] at hlen
    simp only [hlen, htried.dropped]
    exact h.count
  active := htried.active h.active
  blocked := fun j hj => (h.blocked j (htried.dropped ▸ hj)).mono hle
  connected := nofun

/-- The step lemma. -/
theorem turn_sound (h : Sound total settings p) (hset : ∀ u, a.proxyInfo = some u → settings u) :
    Sound total settings (p.turn cfg a) := by
  cases hover : p.finished with
  | true =>
    rw [turn, if_pos hover]
    exact h
  | false =>
    obtain ⟨hprep, hfree⟩ := h.prepare (a := a) hover
    obtain ⟨-, hturn⟩ | ⟨cjob, rest, r, used, hcons, htried, hcases⟩ :=
      turn_cases cfg p a hover
    · rw [hturn]
      exact hprep
    obtain ⟨up, hup, hleads, hturn⟩ | ⟨-, hturn⟩ | ⟨hnone, hturn⟩ := hcases
    · rw [hturn]
      have hsame := hprep.tried htried (p.prepare a).blacklist (fun _ => id)
      refine ⟨hsame.count, hsame.active, htried.blacklist ▸ hsame.blocked, fun up' hup' => ?_⟩
      obtain rfl := Option.some.inj (hup.symm.trans hup')
      obtain ⟨front, rest', hfront, hreset⟩ := htried.front hcons
      obtain ⟨hpeer, hdesc⟩ := DlJob.same_target hreset
      refine ⟨front, rest', _, hfront, hpeer ▸ hleads, fun u hu => ?_, ?_⟩
      · rw [hdesc]
        exact prefProxy_settings _ hset hu
      · rw [htried.blacklist]
        exact (htried.forall_jobs _ (fun _ => Iff.rfl)).mpr hfree
    · rw [hturn]
      have hsame := hprep.tried htried (p.prepare a).blacklist (fun _ => id)
      rw [← htried.blacklist] at hsame
      exact hsame
    · rw [hturn]
      have hmore := hprep.tried htried (r.blacklistMirror cjob).blacklist ?_
      · have hcon : r.blacklistMirror cjob =
            { r with con := none, blacklist := (r.blacklistMirror cjob).blacklist } := by
          rw [← hnone]
          rfl
        rw [hcon]
        exact hmore
      · intro host hhost
        simp only [blacklistMirror, Function.update_apply]
        split
        · rfl
        · rw [htried.blacklist]
          exact hhost

theorem after_sound (h : Sound total settings p) {as : Nat → Attempts}
    (hset : ∀ n u, (as n).proxyInfo = some u → settings u) (n : Nat) :
    Sound total settings (p.after cfg as n) := by
  induction n with
  | zero => exact h
  | succ n ih => exact turn_sound ih (hset n)

end ConnectPhase

/-- For all jobs, each blacklist and whatever becomes of the attempts: behind a main loop without a
connection the phase ends. A job is only dropped from it while all its targets are blacklisted. The
attempts are made for a host that is not, and so is the connection that the phase ends with. -/
theorem failover (cfg : FailoverCfg) (wcfg : WorkCfg) (ts : List Turn) (w : Worker)
    (hw : Worker.workLoop wcfg ts = some w) (hret : w.returned = false) (hcon : w.con = none)
    (nextJobs : List DlJob) (blacklist : StrMap) (spareConPool : List DlStream) (bProxyTot : Bool)
    (sErrorMsg : Bytes) (as : Nat → Attempts) :
    let p := ConnectPhase.start w nextJobs blacklist spareConPool bProxyTot sErrorMsg
    (∃ n, n ≤ p.remaining + 1 ∧ (p.after cfg as n).finished = true) ∧
      ∀ n, let q := p.after cfg as n
        q.nextJobs.length + q.dropped.length = nextJobs.length ∧
        (∀ j ∈ q.dropped, j.Blocked q.blacklist) ∧
        (q.finished = false → ∀ cjob ∈ (q.prepare (as n)).nextJobs,
          q.blacklist (hostPortKey cjob.getPeerHost) = none) ∧
        ∀ up, q.con = some up → ∃ front rest proxy, q.nextJobs = front :: rest ∧
          ConnectPhase.Leads proxy front.getPeerHost up ∧
          (∀ u, proxy = some u →
            front.pRepoDesc.bind (·.pProxy) = some u ∨ ∃ m, (as m).proxyInfo = some u) ∧
          ∀ j ∈ q.nextJobs, q.blacklist (hostPortKey j.getPeerHost) = none := by
  intro p
  have hactive : p.activeJobs = [] :=
    List.map_eq_nil_iff.mpr (Worker.workLoop_idle hw hret hcon)
  have hstart : ConnectPhase.Sound nextJobs.length (fun u => ∃ m, (as m).proxyInfo = some u) p :=
    ⟨rfl, hactive, fun _ hj => absurd hj List.not_mem_nil, nofun⟩
  constructor
  · refine exists_done_of_decreasing (fun n => p.after cfg as n)
      (p := fun q => q.finished = true) ConnectPhase.remaining (fun n => ?_)
    cases hover : (p.after cfg as n).finished with
    | true => exact .inl rfl
    | false => exact .inr (ConnectPhase.turn_remaining _ (as n) hover)
  · intro n q
    have h : ConnectPhase.Sound nextJobs.length (fun u => ∃ m, (as m).proxyInfo = some u)
        (p.after cfg as n) := ConnectPhase.after_sound hstart (fun m u hu => ⟨m, hu⟩) n
    refine ⟨h.count, h.blocked, fun _ cjob hcjob => ?_, h.connected⟩
    exact ((ConnectPhase.prepare_spec _ (as n)).2.2.2.2.1 cjob hcjob).2.1

/-- Two backends, one of which is down. -/
def mirrors : RepoData := { backends := [{ sHost := lit "a" }, { sHost := lit "b" }] }

def firstDown (n : Nat) : Attempts :=
  if n = 0 then { first := .error (lit "Connection refused") } else {}

theorem failover_mirrors :
    let p := ConnectPhase.start {} [{ pRepoDesc := some mirrors, bBackendMode := true }]
      (fun _ => none) [] false []
    (∃ n, n ≤ p.remaining + 1 ∧ (p.after {} firstDown n).finished = true) ∧
      (p.after {} firstDown 2).con = some ⟨lit "b", 80, false⟩ :=
  ⟨(failover {} { env := plainEnv } [] {} rfl rfl rfl _ _ _ _ _ firstDown).1, by decide +kernel⟩

end Acng
