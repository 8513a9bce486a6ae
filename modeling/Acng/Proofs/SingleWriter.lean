import Acng.Proofs.RefCount

namespace Acng
open Lib

namespace World

/-- What jobs did to an item, their creation apart. -/
def events (w : World) (i : Nat) : List Entry :=
  w.log.filter (fun e => e.item == i && e.mark != .attached)

/-- A job and the owner of an item: the flag tells the owner, and data is only read
behind a response that was accepted. -/
structure Fits (events : List Entry) (i : Nat) (o : Option Nat) (j : JobObj) : Prop where
  flag : j.item = some i → (j.job.bFileItemAssigned = true ↔ o = some j.id)
  stream : j.item = some i → j.phase = .running → j.job.dlState ≠ .getHeader →
    ∃ g ∈ events, g.id = j.id ∧ g.mark = .good

/-- An item with the job that took it, if there is one. -/
structure Owned (w : World) (i : Nat) (o : Option Nat) : Prop where
  sound : (w.items i).Sound
  begun : .fresh < (w.items i).status
  ids : (w.live.map (·.id)).Nodup
  fresh : ∀ j ∈ w.live, j.id < w.next
  old : ∀ a ∈ o, a < w.next
  jobs : ∀ j ∈ w.live, Fits (w.events i) i o j
  marked : ∀ e ∈ w.events i, o = some e.id
  added : ∀ e ∈ w.events i, e.mark = .addData → ∃ g ∈ w.events i, g.id = e.id ∧ g.mark = .good
  vacant : o = none → (w.items i).isActive = false
  taken : o ≠ none → .dlGotHead ≤ (w.items i).status
  put : (w.items i).isActive = true → ∃ e ∈ w.events i, e.mark = .put

theorem mem_fill {w : World} {s : Spot} {js : List JobObj} (hq : w.queues = s.fill js) (j : JobObj) :
    j ∈ w.live ↔ j ∈ js ∨ j ∈ s.others := by
  rw [live, hq, (s.fill_perm js).mem_iff, List.mem_append]

theorem nodup_fill {w : World} {s : Spot} {js : List JobObj} (hq : w.queues = s.fill js) :
    (w.live.map (·.id)).Nodup ↔ ((js ++ s.others).map (·.id)).Nodup := by
  rw [live, hq]
  exact ((s.fill_perm js).map _).nodup_iff

/-- A status that stays, or leaves the active states for good. -/
def Calm (fi fi' : FileItem) : Prop := fi'.status = fi.status ∨ .complete ≤ fi'.status

theorem not_active_of_complete (fi : FileItem) (h : .complete ≤ fi.status) : fi.isActive = false := by
  have h1 : fi.status ≠ .dlGotHead := fun he => absurd (he ▸ h) (by decide)
  have h2 : fi.status ≠ .dlReceiving := fun he => absurd (he ▸ h) (by decide)
  simp [FileItem.isActive, h1, h2]

/-- Steps in which no job reads anything for the item. -/
theorem Owned.calm {w w' : World} {i : Nat} {o : Option Nat} (h : Owned w i o)
    (hs : (w'.items i).Sound) (hc : Calm (w.items i) (w'.items i))
    (hids : (w'.live.map (·.id)).Nodup) (hfresh : ∀ j ∈ w'.live, j.id < w'.next)
    (hnext : w.next ≤ w'.next) (hjobs : ∀ j ∈ w'.live, Fits (w.events i) i o j)
    (hev : w'.events i = w.events i) : Owned w' i o := by
  have hact : (w'.items i).isActive = true → (w.items i).isActive = true := by
    intro ha
    rcases hc with he | hc
    · rw [FileItem.isActive, ← he]
      exact ha
    · rw [not_active_of_complete _ hc] at ha
      cases ha
  refine ⟨hs, ?_, hids, hfresh, fun a ha => lt_of_lt_of_le (h.old a ha) hnext, ?_, ?_, ?_, ?_, ?_, ?_⟩
  · rcases hc with he | hc
    · rw [he]
      exact h.begun
    · exact lt_of_lt_of_le (by decide) hc
  · rw [hev]
    exact hjobs
  · rw [hev]
    exact h.marked
  · rw [hev]
    exact h.added
  · intro ho
    cases ha : (w'.items i).isActive with
    | false => rfl
    | true =>
      have := hact ha
      rw [h.vacant ho] at this
      cases this
  · intro ho
    rcases hc with he | hc
    · rw [he]
      exact h.taken ho
    · exact le_trans (by decide) hc
  · intro ha
    rw [hev]
    exact h.put (hact ha)

/-- A step that changes the state of one job, which reads nothing for the item. -/
theorem Owned.replace {w w' : World} {i : Nat} {o : Option Nat} (h : Owned w i o) (s : Spot)
    (j : JobObj) (job : DlJob) (phase : Phase) (hq : w.queues = s.fill [j])
    (hq' : w'.queues = s.fill [{ j with job := job, phase := phase }])
    (hs : (w'.items i).Sound) (hc : Calm (w.items i) (w'.items i)) (hnext : w'.next = w.next)
    (hev : w'.events i = w.events i)
    (hfit : j.item = some i → job.bFileItemAssigned = j.job.bFileItemAssigned ∧
      (phase = .running → job.dlState ≠ .getHeader →
        j.phase = .running ∧ j.job.dlState ≠ .getHeader)) : Owned w' i o := by
  have hj : Fits (w.events i) i o j := h.jobs j ((mem_fill hq j).mpr (.inl (by simp)))
  refine h.calm hs hc ?_ ?_ (by rw [hnext]) ?_ hev
  · rw [nodup_fill hq']
    exact (nodup_fill hq).mp h.ids
  · intro k hk
    rw [hnext]
    rcases (mem_fill hq' k).mp hk with hk | hk
    · rw [List.mem_singleton.mp hk]
      exact h.fresh j ((mem_fill hq j).mpr (.inl (by simp)))
    · exact h.fresh k ((mem_fill hq k).mpr (.inr hk))
  · intro k hk
    rcases (mem_fill hq' k).mp hk with hk | hk
    · rw [List.mem_singleton.mp hk]
      refine ⟨fun hit => ?_, fun hit hp hst => ?_⟩
      · simp only [(hfit hit).1]
        exact hj.flag hit
      · obtain ⟨hp', hst'⟩ := (hfit hit).2 hp hst
        exact hj.stream hit hp' hst'
    · exact h.jobs k ((mem_fill hq k).mpr (.inr hk))

/-- A change of one item that no job makes. -/
theorem Owned.setItem {w : World} {i k : Nat} {o : Option Nat} (fi : FileItem) (h : Owned w i o)
    (hs : (w.items k).Sound → fi.Sound)
    (hc : k = i → Calm (w.items k) fi) : Owned (w.setItem k fi) i o := by
  have hitem : (w.setItem k fi).items i = if i = k then fi else w.items i := setItem_items w k i fi
  by_cases he : i = k
  · subst he
    rw [if_pos rfl] at hitem
    exact h.calm (by rw [hitem]; exact hs h.sound) (by rw [hitem]; exact hc rfl) h.ids h.fresh
      (le_refl _) h.jobs rfl
  · rw [if_neg he] at hitem
    exact h.calm (by rw [hitem]; exact h.sound) (.inl (by rw [hitem])) h.ids h.fresh (le_refl _)
      h.jobs rfl

theorem events_record (w : World) (id k i : Nat) (ms : List Mark) :
    (w.record id k ms).events i = w.events i ++
      if k = i then (ms.filter (· != .attached)).map (fun m => ⟨id, k, m⟩) else [] := by
  rw [events, record, List.filter_append, events]
  congr 1
  split
  · rename_i he
    rw [List.filter_map]
    congr 1
    apply List.filter_congr
    intro m _
    simp [he]
  · rename_i he
    rw [List.filter_eq_nil_iff]
    intro e hmem
    obtain ⟨m, -, rfl⟩ := List.mem_map.mp hmem
    simp [he]

theorem events_record_none (w : World) (id k i : Nat) (ms : List Mark)
    (h : ms.filter (· != .attached) = []) : (w.record id k ms).events i = w.events i := by
  rw [events_record, h, List.map_nil, ite_self, List.append_nil]

theorem mem_events_record (w : World) (id i : Nat) (ms : List Mark) (hm : .attached ∉ ms) (e : Entry) :
    e ∈ (w.record id i ms).events i ↔ e ∈ w.events i ∨ (e.id = id ∧ e.item = i ∧ e.mark ∈ ms) := by
  rw [events_record, if_pos rfl, List.mem_append, List.mem_map]
  apply or_congr_right
  constructor
  · rintro ⟨m, hmem, rfl⟩
    exact ⟨rfl, rfl, (List.mem_filter.mp hmem).1⟩
  · rintro ⟨rfl, rfl, hmem⟩
    refine ⟨e.mark, List.mem_filter.mpr ⟨hmem, ?_⟩, rfl⟩
    have : e.mark ≠ .attached := fun he => hm (he ▸ hmem)
    simpa using this

/-- The job that owns the item, or takes it while nobody does, works on it. -/
theorem Owned.work {w : World} {i : Nat} {o : Option Nat} (h : Owned w i o) (s : Spot)
    (j : JobObj) (hq : w.queues = s.fill [j])
    (hown : o = none ∨ o = some j.id) (fi : FileItem) (job : DlJob) (phase : Phase)
    (ms : List Mark) (hm : .attached ∉ ms) (hs : fi.Sound) (hst : .dlGotHead ≤ fi.status)
    (hflag : job.bFileItemAssigned = true)
    (hadd : .addData ∈ ms → ∃ g ∈ w.events i, g.id = j.id ∧ g.mark = .good)
    (hstream : phase = .running → job.dlState ≠ .getHeader →
      .good ∈ ms ∨ ∃ g ∈ w.events i, g.id = j.id ∧ g.mark = .good)
    (hput : fi.isActive = true → fi.status = (w.items i).status ∨ .put ∈ ms) :
    Owned ({ w.setItem i fi with
      queues := s.fill [{ j with job := job, phase := phase }] }.record j.id i ms) i (some j.id) := by
  have hjl : j ∈ w.live := (mem_fill hq j).mpr (.inl (by simp))
  have hev := mem_events_record { w.setItem i fi with
    queues := s.fill [{ j with job := job, phase := phase }] } j.id i ms hm
  have hbase : ({ w.setItem i fi with
    queues := s.fill [{ j with job := job, phase := phase }] } : World).events i = w.events i := rfl
  rw [hbase] at hev
  generalize hw : ({ w.setItem i fi with
    queues := s.fill [{ j with job := job, phase := phase }] }.record j.id i ms) = w' at hev ⊢
  have hq' : w'.queues = s.fill [{ j with job := job, phase := phase }] := by rw [← hw]; rfl
  have hnext : w'.next = w.next := by rw [← hw]; rfl
  have hitem : w'.items i = fi := by
    rw [← hw]
    exact (setItem_items w i i fi).trans (if_pos rfl)
  have hnd := (nodup_fill hq).mp h.ids
  rw [List.singleton_append, List.map_cons, List.nodup_cons] at hnd
  refine ⟨by rw [hitem]; exact hs, ?_, ?_, ?_, ?_, ?_, ?_, ?_, fun hn => by simp at hn, ?_, ?_⟩
  · rw [hitem]
    exact lt_of_lt_of_le (by decide) hst
  · rw [nodup_fill hq']
    exact (nodup_fill hq).mp h.ids
  · intro k hk
    rw [hnext]
    rcases (mem_fill hq' k).mp hk with hk | hk
    · rw [List.mem_singleton.mp hk]
      exact h.fresh j hjl
    · exact h.fresh k ((mem_fill hq k).mpr (.inr hk))
  · intro a ha
    rw [hnext, ← Option.some.inj ha]
    exact h.fresh j hjl
  · intro k hk
    rcases (mem_fill hq' k).mp hk with hk | hk
    · rw [List.mem_singleton.mp hk]
      refine ⟨fun _ => by simp [hflag], fun _ hp hd => ?_⟩
      rcases hstream hp hd with hg | ⟨g, hg, hid, hgm⟩
      · exact ⟨⟨j.id, i, .good⟩, (hev _).mpr (.inr ⟨rfl, rfl, hg⟩), rfl, rfl⟩
      · exact ⟨g, (hev g).mpr (.inl hg), hid, hgm⟩
    · have hkf := h.jobs k ((mem_fill hq k).mpr (.inr hk))
      have hne : k.id ≠ j.id := fun he => hnd.1 (he ▸ List.mem_map_of_mem hk)
      refine ⟨fun hki => ?_, fun hki hp hd => ?_⟩
      · rw [hkf.flag hki]
        rcases hown with ho | ho <;> simp [ho, Ne.symm hne]
      · obtain ⟨g, hg, hid⟩ := hkf.stream hki hp hd
        exact ⟨g, (hev g).mpr (.inl hg), hid⟩
  · intro e he
    rcases (hev e).mp he with he | ⟨hid, -⟩
    · have := h.marked e he
      rcases hown with ho | ho
      · rw [ho] at this
        cases this
      · rw [← ho]
        exact this
    · rw [hid]
  · intro e he hm
    rcases (hev e).mp he with he | ⟨hid, -, hmem⟩
    · obtain ⟨g, hg, hgid⟩ := h.added e he hm
      exact ⟨g, (hev g).mpr (.inl hg), hgid⟩
    · obtain ⟨g, hg, hgid, hgm⟩ := hadd (hm ▸ hmem)
      exact ⟨g, (hev g).mpr (.inl hg), hgid.trans hid.symm, hgm⟩
  · intro _
    rw [hitem]
    exact hst
  · intro ha
    rw [hitem] at ha
    rcases hput ha with hsame | hp
    · have hact : (w.items i).isActive = true := by
        rw [FileItem.isActive, ← hsame]
        exact ha
      obtain ⟨e, he, hem⟩ := h.put hact
      exact ⟨e, (hev e).mpr (.inl he), hem⟩
    · exact ⟨⟨j.id, i, .put⟩, (hev _).mpr (.inr ⟨rfl, rfl, hp⟩), rfl⟩

end World

namespace Dl

theorem put_marks (env : Env) (io : Io) (bOnly : Bool) (d : Dl)
    (ha : (d.procStep env io bOnly).1.fi.isActive = true) :
    (d.procStep env io bOnly).1.fi.status = d.fi.status ∨ .put ∈ d.marks env io bOnly := by
  by_cases he : (d.procStep env io bOnly).1.fi.status = d.fi.status
  · exact .inl he
  · right
    simp [marks, ha, he]

theorem good_marks (env : Env) (io : Io) (bOnly : Bool) (d : Dl) (h : d.isGood env io bOnly = true) :
    .good ∈ d.marks env io bOnly := by
  simp [marks, h]

theorem addData_marks (env : Env) (io : Io) (bOnly : Bool) (d : Dl)
    (h : .addData ∈ d.marks env io bOnly) : d.job.dlState ≠ .getHeader := by
  intro hst
  have hn : d.addsData = false := by simp [addsData, hst]
  simp only [marks, hn, Bool.false_eq_true, if_false, List.append_nil, List.mem_append] at h
  rcases h with h | h <;> split at h <;> simp at h

/-- A pass that leaves the item alone is not worth an entry. -/
theorem no_marks (env : Env) (io : Io) (bOnly : Bool) (d : Dl) (hst : d.job.dlState = .getHeader)
    (hg : d.isGood env io bOnly = false) (he : (d.procStep env io bOnly).1.fi.status = d.fi.status) :
    d.marks env io bOnly = [] := by
  simp [marks, hg, addsData, hst, he]

end Dl

namespace World

theorem incomming_owned (env : Env) (w : World) (i : Nat) (o : Option Nat) (s : Spot) (j : JobObj)
    (k : Nat) (buf : Bytes) (io : Io) (now : Int) (bOnly : Bool) (hq : w.queues = s.fill [j])
    (hk : j.item = some k) (hp : j.phase = .running)
    (ho : bOnly = true → env.cfg.redirmax ≠ 0 ∧ j.job.dlState = .getHeader) (h : Owned w i o) :
    ∃ o', Owned
      (let d : Dl := ⟨j.job, w.items k, buf⟩
      let r := d.procStep { env with now := now } io bOnly
      { w.setItem k r.1.fi with
        queues := s.fill [{ j with job := r.1.job, phase := .after env.cfg bOnly r.1.job r.2 }] }.record
          j.id k (d.marks { env with now := now } io bOnly)) i o' := by
  have hjl : j ∈ w.live := (mem_fill hq j).mpr (.inl (by simp))
  by_cases hik : k = i
  · subst hik
    have hfit := h.jobs j hjl
    obtain ⟨hframed, hhead, hdata⟩ :=
      Dl.procStep_pass { env with now := now } io bOnly ⟨j.job, w.items k, buf⟩
    have hms := marks_not_attached { env with now := now } io bOnly ⟨j.job, w.items k, buf⟩
    have hput := Dl.put_marks { env with now := now } io bOnly ⟨j.job, w.items k, buf⟩
    have hsound := hframed.sound h.sound
    by_cases hst : j.job.dlState = .getHeader
    · have hph := Dl.procHeader_phase { env with now := now } io bOnly ⟨j.job, w.items k, buf⟩ env.cfg
        hst (fun hb => (ho hb).1)
      have hps : Dl.procStep { env with now := now } io bOnly ⟨j.job, w.items k, buf⟩ =
          Dl.procHeader { env with now := now } io bOnly ⟨j.job, w.items k, buf⟩ := by
        simp only [Dl.procStep, hst]
      rw [← hps] at hph
      rcases hhead hst with ⟨hfree, hasg, hgot⟩ | ⟨hng, hsame, hasg⟩
      · refine ⟨_, h.work s j hq ?_ _ _ _ _ hms hsound (hgot h.sound) hasg ?_ ?_ hput⟩
        · rcases hfree.2 with ha | hle
          · exact .inr ((hfit.flag hk).mp ha)
          · left
            by_contra hne
            exact absurd (le_trans (h.taken hne) hle) (by decide)
        · intro ha
          exact absurd hst (Dl.addData_marks _ io bOnly _ ha)
        · intro hrun hne
          left
          apply Dl.good_marks
          by_contra hng
          exact hne (hph (by simpa using hng) hrun)
      · refine ⟨o, ?_⟩
        have hnil := Dl.no_marks { env with now := now } io bOnly ⟨j.job, w.items k, buf⟩ hst hng hsame
        simp only [hnil]
        refine h.replace s j _ _ hq rfl ?_ (.inl ?_) rfl ?_ ?_
        · exact (setItem_items w k k _).trans (if_pos rfl) ▸ hsound
        · exact (congrArg FileItem.status ((setItem_items w k k _).trans (if_pos rfl))).trans hsame
        · exact events_record_none _ _ _ _ _ rfl
        · exact fun _ => ⟨hasg, fun hrun hne => absurd (hph hng hrun) hne⟩
    · obtain ⟨hng, hasg, hkept⟩ := hdata hst
      have hgood := hfit.stream hk hp hst
      have hown : o = some j.id := by
        obtain ⟨g, hg, hid, -⟩ := hgood
        rw [← hid]
        exact h.marked g hg
      refine ⟨_, h.work s j hq (.inr hown) _ _ _ _ hms hsound ?_ ?_ (fun _ => hgood)
        (fun _ _ => .inr hgood) hput⟩
      · exact hkept.taken (h.taken (by simp [hown]))
      · rw [hasg]
        exact (hfit.flag hk).mpr hown
  · -- another item is worked on
    have hitem : ∀ fi, (w.setItem k fi).items i = w.items i :=
      fun fi => (setItem_items w k i fi).trans (if_neg (fun he => hik he.symm))
    refine ⟨o, h.replace s j _ _ hq rfl ?_ (.inl ?_) rfl ?_ ?_⟩
    · exact hitem _ ▸ h.sound
    · exact congrArg FileItem.status (hitem _)
    · rw [events_record, if_neg hik, List.append_nil]
      rfl
    · intro hit
      rw [hk] at hit
      exact absurd (Option.some.inj hit) hik

theorem dlSetError_calm (fi fi' : FileItem) (errState : RemoteStatus) (kmode : EDestroyMode) :
    Calm fi (fi'.dlSetError errState kmode) :=
  .inr (by change FiStatus.complete ≤ .dlError; decide)

theorem release_calm (p : PipeJob) : Calm p.fi p.release.fi ∧ (p.fi.Sound → p.release.fi.Sound) := by
  have hframe : Calm p.fi p.release.fi ∧ p.release.fi.spattr = p.fi.spattr ∧
      p.release.fi.nSizeCachedInitial = p.fi.nSizeCachedInitial := by
    simp only [PipeJob.release, FileItem.dlRefCountDec]
    split
    · exact ⟨.inl rfl, rfl, rfl⟩
    · split
      · exact ⟨dlSetError_calm _ _ _ _, rfl, rfl⟩
      · exact ⟨.inl rfl, rfl, rfl⟩
  refine ⟨hframe.1, ?_⟩
  unfold FileItem.Sound
  rw [hframe.2.1, hframe.2.2]
  exact id

theorem expire_calm (fi : FileItem) : Calm fi fi.expire := by
  unfold Calm FileItem.expire
  simp only
  split
  · exact .inr (by decide)
  · exact .inl rfl

theorem create_owned (w w' : World) (i : Nat) (o : Option Nat) (s : Spot) (k : Nat) (job : DlJob)
    (hq : w.queues = s.fill []) (hq' : w'.queues = s.fill [⟨w.next, some k, job, .running⟩])
    (hi : w'.items i = w.items i ∨ w'.items i = (w.items i).dlRefCountAdd)
    (hnext : w'.next = w.next + 1) (hev : w'.events i = w.events i)
    (hasg : job.bFileItemAssigned = false) (hst : job.dlState = .getHeader) (h : Owned w i o) :
    Owned w' i o := by
  refine h.calm ?_ (.inl ?_) ?_ ?_ (by omega) ?_ hev
  · rcases hi with hi | hi <;> rw [hi] <;> exact h.sound
  · rcases hi with hi | hi
    · rw [hi]
    · rw [hi]
      rfl
  · rw [nodup_fill hq', List.singleton_append, List.map_cons, List.nodup_cons]
    refine ⟨?_, (nodup_fill hq).mp h.ids⟩
    intro hmem
    obtain ⟨m, hm, he⟩ := List.mem_map.mp hmem
    have := h.fresh m ((mem_fill hq m).mpr (.inr hm))
    simp only at he
    omega
  · intro m hm
    rw [hnext]
    rcases (mem_fill hq' m).mp hm with hm | hm
    · rw [List.mem_singleton.mp hm]
      exact Nat.lt_succ_self _
    · exact Nat.lt_succ_of_lt (h.fresh m ((mem_fill hq m).mpr (.inr hm)))
  · intro m hm
    rcases (mem_fill hq' m).mp hm with hm | hm
    · rw [List.mem_singleton.mp hm]
      refine ⟨fun _ => ?_, fun _ _ hne => absurd hst hne⟩
      simp only [hasg, Bool.false_eq_true, false_iff]
      intro ho
      exact absurd (h.old w.next ho) (Nat.lt_irrefl _)
    · exact h.jobs m ((mem_fill hq m).mpr (.inr hm))

theorem moveJob_owned (w : World) (i : Nat) (o : Option Nat) (s : Spot) (j : JobObj) (job : DlJob)
    (hq : w.queues = s.fill [j]) (h : Owned w i o) :
    Owned { w with
      queues := s.fill [j, { j with id := w.next, item := none, job := job }]
      next := w.next + 1 } i o := by
  have hq' : ({ w with
      queues := s.fill [j, { j with id := w.next, item := none, job := job }]
      next := w.next + 1 } : World).queues =
    s.fill [j, { j with id := w.next, item := none, job := job }] := rfl
  have hold : ∀ m, m = j ∨ m ∈ s.others → m ∈ w.live := by
    intro m hm
    exact (mem_fill hq m).mpr (hm.imp (fun h => List.mem_singleton.mpr h) id)
  have hnd := (nodup_fill hq).mp h.ids
  refine h.calm h.sound (.inl rfl) ?_ ?_ (Nat.le_succ _) ?_ rfl
  · rw [nodup_fill hq']
    simp only [List.cons_append, List.nil_append, List.map_cons, List.nodup_cons, List.mem_cons,
      List.mem_map, not_or] at hnd ⊢
    refine ⟨⟨?_, hnd.1⟩, ?_, hnd.2⟩
    · exact Nat.ne_of_lt (h.fresh j (hold j (.inl rfl)))
    · rintro ⟨m, hm, he⟩
      have := h.fresh m (hold m (.inr hm))
      omega
  · intro m hm
    rcases (mem_fill hq' m).mp hm with hm | hm
    · rcases List.mem_cons.mp hm with rfl | hm
      · exact Nat.lt_succ_of_lt (h.fresh m (hold m (.inl rfl)))
      · rw [List.mem_singleton.mp hm]
        exact Nat.lt_succ_self _
    · exact Nat.lt_succ_of_lt (h.fresh m (hold m (.inr hm)))
  · intro m hm
    rcases (mem_fill hq' m).mp hm with hm | hm
    · rcases List.mem_cons.mp hm with rfl | hm
      · exact h.jobs m (hold m (.inl rfl))
      · rw [List.mem_singleton.mp hm]
        exact ⟨by simp, by simp⟩
    · exact h.jobs m (hold m (.inr hm))

theorem destroy_owned (w : World) (i : Nat) (o : Option Nat) (s : Spot) (j : JobObj)
    (hq : w.queues = s.fill [j]) (h : Owned w i o) :
    Owned { w.release j with queues := s.fill [] } i o := by
  have hq' : ({ w.release j with queues := s.fill [] } : World).queues = s.fill [] := rfl
  have hrest : ({ w.release j with queues := s.fill [] } : World).next = w.next ∧
      ({ w.release j with queues := s.fill [] } : World).events i = w.events i := by
    simp only [release, events]
    split <;> exact ⟨rfl, rfl⟩
  have hitem : Calm (w.items i) (({ w.release j with queues := s.fill [] } : World).items i) ∧
      (({ w.release j with queues := s.fill [] } : World).items i).Sound := by
    simp only [release]
    split
    · exact ⟨.inl rfl, h.sound⟩
    · rename_i k hk
      simp only [setItem_items]
      split
      · rename_i he
        subst he
        obtain ⟨hc, hs⟩ := release_calm ⟨j.job, w.items i⟩
        exact ⟨hc, hs h.sound⟩
      · exact ⟨.inl rfl, h.sound⟩
  have hold : ∀ m ∈ ({ w.release j with queues := s.fill [] } : World).live, m ∈ w.live := by
    intro m hm
    rcases (mem_fill hq' m).mp hm with hm | hm
    · cases hm
    · exact (mem_fill hq m).mpr (.inr hm)
  refine h.calm hitem.2 hitem.1 ?_ ?_ (by rw [hrest.1]) (fun m hm => h.jobs m (hold m hm)) hrest.2
  · have hnd := (nodup_fill hq).mp h.ids
    rw [List.singleton_append, List.map_cons, List.nodup_cons] at hnd
    exact (nodup_fill hq').mpr hnd.2
  · intro m hm
    rw [hrest.1]
    exact h.fresh m (hold m hm)

theorem step_owned (env : Env) (own : Nat → Bool) (w w' : World) (i : Nat) (o : Option Nat)
    (hown : own i = false) (hs : Step env own w w') (h : Owned w i o) : ∃ o', Owned w' i o' := by
  cases hs with
  | create s k job hq hj =>
    have hjob : job.bFileItemAssigned = false ∧ job.dlState = .getHeader := by
      rcases hj with ⟨src, rfl⟩ | ⟨repo, path, rfl⟩ <;> exact ⟨rfl, rfl⟩
    refine ⟨o, create_owned w _ i o s k job hq rfl ?_ rfl ?_ hjob.1 hjob.2 h⟩
    · change (w.setItem k (w.items k).dlRefCountAdd).items i = _ ∨
        (w.setItem k (w.items k).dlRefCountAdd).items i = _
      rw [setItem_items]
      split
      · rename_i he
        rw [he]
        exact .inr rfl
      · exact .inl rfl
    · exact events_record_none _ _ _ _ _ rfl
  | splice qs hq =>
    refine ⟨o, h.calm h.sound (.inl rfl) ?_ ?_ (le_refl _) ?_ rfl⟩
    · exact (hq.map _).nodup_iff.mpr h.ids
    · exact fun m hm => h.fresh m (hq.mem_iff.mp hm)
    · exact fun m hm => h.jobs m (hq.mem_iff.mp hm)
  | moveJob s j hq => exact ⟨o, moveJob_owned w i o s j _ hq h⟩
  | destroy s j hq => exact ⟨o, destroy_owned w i o s j hq h⟩
  | incomming s j k buf io now bOnly hq hk hownk hp ho =>
    exact incomming_owned env w i o s j k buf io now bOnly hq hk hp ho h
  | connectionLost s j hq hp =>
    exact ⟨o, h.replace s j _ _ hq rfl h.sound (.inl rfl) rfl rfl
      (fun _ => ⟨rfl, fun hr => nomatch hr⟩)⟩
  | reconnect s j hq hp =>
    exact ⟨o, h.replace s j _ _ hq rfl h.sound (.inl rfl) rfl rfl
      (fun _ => ⟨rfl, fun _ hne => absurd rfl hne⟩)⟩
  | request s j k hq hk =>
    exact ⟨o, h.replace s j _ _ hq rfl h.sound (.inl rfl) rfl rfl
      (fun _ => ⟨rfl, fun hr hne => ⟨hr, hne⟩⟩)⟩
  | configure s j backend msg hq =>
    exact ⟨o, h.replace s j _ _ hq rfl h.sound (.inl rfl) rfl rfl
      (fun _ => ⟨rfl, fun hr hne => ⟨hr, hne⟩⟩)⟩
  | setup k hownk =>
    by_cases hik : k = i
    · refine ⟨o, h.setItem _ (fun hs => ?_) (fun _ => ?_)⟩
      · rw [hik, FileItem.setup_begun _ h.begun]
        exact h.sound
      · rw [hik, FileItem.setup_begun _ h.begun]
        exact .inl rfl
    · refine ⟨o, h.calm ?_ (.inl ?_) h.ids h.fresh (le_refl _) h.jobs rfl⟩
      · rw [setItem_items, if_neg (fun he => hik he.symm)]
        exact h.sound
      · rw [setItem_items, if_neg (fun he => hik he.symm)]
  | setError k errState kmode =>
    exact ⟨o, h.setItem _ id (fun _ => dlSetError_calm _ _ _ _)⟩
  | expire k => exact ⟨o, h.setItem _ id (fun _ => expire_calm _)⟩
  | foreign s j k job phase fi hq hk hownk hc =>
    have hik : ¬ i = k := by
      rintro rfl
      rw [hown] at hownk
      cases hownk
    have hitem : ∀ fi, (w.setItem k fi).items i = w.items i :=
      fun fi => (setItem_items w k i fi).trans (if_neg hik)
    refine ⟨o, h.replace s j job phase hq rfl ?_ (.inl ?_) rfl rfl ?_⟩
    · exact hitem _ ▸ h.sound
    · exact congrArg FileItem.status (hitem _)
    · intro hit
      rw [hk] at hit
      exact absurd (Option.some.inj hit).symm hik

/-- An item that was set up and has no jobs yet. Objects have distinct names. -/
structure Opening (w : World) (i : Nat) : Prop where
  inited : (w.items i).status = .inited
  sound : (w.items i).Sound
  unused : ∀ j ∈ w.live, j.item ≠ some i
  silent : w.events i = []
  ids : (w.live.map (·.id)).Nodup
  fresh : ∀ j ∈ w.live, j.id < w.next

theorem Opening.owned {w : World} {i : Nat} (h : Opening w i) : Owned w i none := by
  have hact : (w.items i).isActive = false := by simp [FileItem.isActive, h.inited]
  have hfit : ∀ j ∈ w.live, Fits (w.events i) i none j :=
    fun j hj => ⟨fun hi => absurd hi (h.unused j hj), fun hi => absurd hi (h.unused j hj)⟩
  refine ⟨h.sound, by rw [h.inited]; decide, h.ids, h.fresh, by simp, hfit, ?_, ?_, fun _ => hact,
    by simp, ?_⟩
  · rw [h.silent]
    simp
  · rw [h.silent]
    simp
  · rw [hact]
    simp

theorem reachable_owned (env : Env) (own : Nat → Bool) (w0 w : World) (i : Nat)
    (hown : own i = false) (h0 : Opening w0 i) (hr : Reachable env own w0 w) : ∃ o, Owned w i o := by
  induction hr with
  | refl => exact ⟨none, h0.owned⟩
  | tail _ hs ih =>
    obtain ⟨o, ho⟩ := ih
    exact step_owned env own _ _ i o hown hs ho

/-- In every run from an item that was set up: one job at most gets its response
accepted, only that job adds data, and while the item has a head or receives, the
job with the flag is the one that put it there. -/
theorem single_writer (env : Env) (own : Nat → Bool) (w0 w : World) (i : Nat)
    (hown : own i = false) (h0 : Opening w0 i) (hr : Reachable env own w0 w) :
    (∀ e ∈ w.events i, ∀ e' ∈ w.events i, e.mark = .good → e'.mark = .good → e.id = e'.id) ∧
      (∀ e ∈ w.events i, e.mark = .addData → ∃ g ∈ w.events i, g.mark = .good ∧ g.id = e.id) ∧
      ((w.items i).isActive = true → ∃ a, (∃ e ∈ w.events i, e.mark = .put) ∧
        (∀ e ∈ w.events i, e.mark = .put → e.id = a) ∧
        ∀ j ∈ w.live, j.item = some i → (j.job.bFileItemAssigned = true ↔ j.id = a)) := by
  obtain ⟨o, h⟩ := reachable_owned env own w0 w i hown h0 hr
  refine ⟨?_, ?_, ?_⟩
  · intro e he e' he' _ _
    have heq := (h.marked e he).symm.trans (h.marked e' he')
    exact Option.some.inj heq
  · intro e he hm
    obtain ⟨g, hg, hid, hgm⟩ := h.added e he hm
    exact ⟨g, hg, hgm, hid⟩
  · intro ha
    obtain ⟨e, he, hm⟩ := h.put ha
    have ho := h.marked e he
    refine ⟨e.id, ⟨e, he, hm⟩, ?_, ?_⟩
    · intro e' he' _
      exact Option.some.inj ((h.marked e' he').symm.trans ho)
    · intro j hj hit
      rw [(h.jobs j hj).flag hit, ho, Option.some.injEq]
      exact eq_comm

theorem idle_opening : Opening idle 0 where
  inited := rfl
  sound := by simp [FileItem.Sound, idle]
  unused := by simp [live, idle]
  silent := rfl
  ids := List.nodup_nil
  fresh := by simp [live, idle]

/-- Two jobs on one item, and the response to the later one arrives. -/
theorem single_writer_two :
    ∃ w, Reachable plainEnv (fun _ => false) idle w ∧ w.refs 0 = 2 ∧
      (w.items 0).isActive = true ∧
      ∃ a, ∀ j ∈ w.live, j.item = some 0 → (j.job.bFileItemAssigned = true ↔ j.id = a) := by
  have hone := hire_step idle [] rfl
  have htwo := hire_step (idle.hire []) ((idle.hire []).live) rfl
  have hread : Step plainEnv (fun _ => false) _ _ :=
    .incomming (inFront (idle.hire []).live) _ 0 plainAnswer.encode {} 0 false
      (rfl : ((idle.hire []).hire (idle.hire []).live).queues = _) rfl rfl rfl (by simp)
  have hr : Reachable plainEnv (fun _ => false) idle _ :=
    ((Relation.ReflTransGen.single hone).tail htwo).tail hread
  obtain ⟨-, -, hput⟩ := single_writer plainEnv _ idle _ 0 rfl idle_opening hr
  obtain ⟨a, -, -, ha⟩ := hput (by decide +kernel)
  exact ⟨_, hr, by decide +kernel, by decide +kernel, a, ha⟩

end World

end Acng
