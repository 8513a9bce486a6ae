import Acng.Handover

namespace Acng
open Lib

namespace Handover

variable {s t : Handover} {a : Action} {acts : List Action}

/-- Only a stop request and the end of a call write the counter. -/
def ctrlAfter (c : Int) : Action → Int
  | .stop => -1
  | .increment _ => toInt32 (c + 1)
  | _ => c

/-- What an action leaves of the positions of the calls. -/
def callsAfter (s : Handover) : Action → List CallPos
  | .call viable => s.calls ++ [.called viable]
  | .check i =>
    match s.calls[i]? with
    | some (.called viable) =>
      s.calls.set i (if s.stopRequested || !viable then .refused else .checked)
    | _ => s.calls
  | .push i => s.calls.set i .pushed
  | .increment i => s.calls.set i .accepted
  | _ => s.calls

theorem step_shared (h : s.step a = some t) :
    t.ctrlHint = ctrlAfter s.ctrlHint a ∧ t.calls = s.callsAfter a := by
  cases a <;> simp only [step] at h
  case check i =>
    split at h
    · rename_i viable hc
      obtain rfl := Option.some.inj h
      exact ⟨rfl, by simp only [callsAfter, hc]⟩
    · cases h
  case compareMark =>
    split at h
    · split at h <;> obtain rfl := Option.some.inj h <;> exact ⟨rfl, rfl⟩
    · cases h
  all_goals try split at h
  all_goals try split at h
  all_goals first
    | cases h; done
    | obtain rfl := Option.some.inj h; exact ⟨rfl, rfl⟩

/-- The ways of a call from one position to the next. -/
inductive CallMove (s : Handover) (i : Nat) : Action → CallPos → Prop
  | call (viable : Bool) (hi : i = s.calls.length) : CallMove s i (.call viable) (.called viable)
  | refuse {viable : Bool} (hp : s.calls[i]? = some (.called viable)) :
      CallMove s i (.check i) .refused
  | check {viable : Bool} (hp : s.calls[i]? = some (.called viable))
      (hs : s.stopRequested = false) : CallMove s i (.check i) .checked
  | push (hp : s.calls[i]? = some .checked) : CallMove s i (.push i) .pushed
  | increment (hp : s.calls[i]? = some .pushed) : CallMove s i (.increment i) .accepted

theorem getElem?_set_cases {l : List CallPos} {i j : Nat} {p q : CallPos}
    (h : (l.set j q)[i]? = some p) : l[i]? = some p ∨ (j = i ∧ p = q) := by
  rw [List.getElem?_set] at h
  split at h
  · split at h
    · exact .inr ⟨‹j = i›, (Option.some.inj h).symm⟩
    · cases h
  · exact .inl h

theorem step_call (h : s.step a = some t) {i : Nat} {pos : CallPos}
    (hp : t.calls[i]? = some pos) : s.calls[i]? = some pos ∨ CallMove s i a pos := by
  have hc := (step_shared h).2
  rw [hc] at hp
  cases a <;> try exact .inl hp
  case call viable =>
    rw [callsAfter, List.getElem?_append] at hp
    split at hp
    · exact .inl hp
    · rw [List.getElem?_singleton] at hp
      split at hp
      · obtain rfl := Option.some.inj hp
        exact .inr (.call _ (by omega))
      · cases hp
  case check j =>
    simp only [callsAfter] at hp
    split at hp
    · rename_i viable hj
      rcases getElem?_set_cases hp with h | ⟨rfl, rfl⟩
      · exact .inl h
      · split
        · exact .inr (.refuse hj)
        · rename_i hs
          exact .inr (.check hj (by simp_all))
    · exact .inl hp
  case push j =>
    simp only [step] at h
    split at h
    · rcases getElem?_set_cases hp with h | ⟨rfl, rfl⟩
      · exact .inl h
      · exact .inr (.push ‹_›)
    · cases h
  case increment j =>
    simp only [step] at h
    split at h
    · rcases getElem?_set_cases hp with h | ⟨rfl, rfl⟩
      · exact .inl h
      · exact .inr (.increment ‹_›)
    · cases h

/-- A call is beyond its check. -/
def Beyond (s : Handover) (i : Nat) : Prop :=
  s.calls[i]? = some .checked ∨ s.calls[i]? = some .pushed ∨ s.calls[i]? = some .accepted

theorem step_beyond (h : s.step a = some t) {i : Nat} (hb : Beyond t i) :
    Beyond s i ∨ a = .check i ∧ s.stopRequested = false := by
  rcases hb with hp | hp | hp
  all_goals rcases step_call h hp with hs | hm
  · exact .inl (.inl hs)
  · cases hm with
    | check _ hs => exact .inr ⟨rfl, hs⟩
  · exact .inl (.inr (.inl hs))
  · cases hm with
    | push hs => exact .inl (.inl hs)
  · exact .inl (.inr (.inr hs))
  · cases hm with
    | increment hs => exact .inl (.inr (.inl hs))

theorem beyond_checked {wakeFd : Bool} (h : (new wakeFd).run acts = some t) {i : Nat}
    (hb : Beyond t i) : .check i ∈ acts := by
  refine runs_induct (motive := fun as t => Beyond t i → .check i ∈ as) ?_ ?_ h hb
  · intro hb
    simp [Beyond, new] at hb
  · intro as a m t _ ih ha hb
    rcases step_beyond ha hb with hm | ⟨rfl, -⟩
    · exact List.mem_append_left _ (ih hm)
    · simp

theorem step_stopped (h : s.step a = some t) (hs : s.ctrlHint = -1) (ha : ∀ i, a ≠ .increment i) :
    t.ctrlHint = -1 := by
  rw [(step_shared h).1]
  cases a <;> try exact hs
  case stop => rfl
  case increment i => exact absurd rfl (ha i)

theorem increment_revives (i : Nat) (h : s.step (.increment i) = some t) (hs : s.ctrlHint = -1) :
    t.ctrlHint = 0 := by
  rw [(step_shared h).1, hs]
  rfl

theorem stopRequested_of_ctrl (h : s.ctrlHint < 0) : s.stopRequested = true := by
  simp [stopRequested, h]

theorem step_observes (h : s.step a = some t) (hs : s.ctrlHint < 0)
    (hw : a.isWorkerCheck = true) : t.sawStop = true := by
  have hr := stopRequested_of_ctrl hs
  cases a <;> cases hw <;> simp only [step] at h <;> split at h
  all_goals try cases h; done
  case loopTop.refl.isTrue =>
    split at h <;> obtain rfl := Option.some.inj h <;> exact hr
  case select.refl.isTrue =>
    obtain rfl := Option.some.inj h
    exact decide_eq_true hs
  case afterExchange.refl.isTrue =>
    split at h <;> obtain rfl := Option.some.inj h <;> exact hr

theorem step_calls_length (h : s.step a = some t) :
    t.calls.length = s.calls.length + if a.isCall then 1 else 0 := by
  rw [(step_shared h).2]
  cases a <;> simp [callsAfter, Action.isCall]
  split <;> simp

/-- What holds after a stop request as long as no call that was beyond its check at that time
comes to its end. -/
structure Halted (s1 s : Handover) : Prop where
  ctrl : s.ctrlHint = -1
  beyond : ∀ i, Beyond s i → Beyond s1 i
  older : ∀ i, Beyond s1 i → i < s1.calls.length

theorem lt_of_beyond {i : Nat} (h : Beyond s i) : i < s.calls.length := by
  rcases h with h | h | h <;> exact (List.getElem?_eq_some_iff.mp h).1

theorem step_halted {s1 : Handover} (h : s.step a = some t) (hs : Halted s1 s)
    (ha : ∀ i, a ≠ .increment i) : Halted s1 t where
  ctrl := step_stopped h hs.ctrl ha
  beyond i hb := by
    rcases step_beyond h hb with hm | ⟨-, hr⟩
    · exact hs.beyond i hm
    · have := stopRequested_of_ctrl (s := s) (by rw [hs.ctrl]; decide)
      rw [this] at hr
      cases hr
  older := hs.older

theorem step_increment {i : Nat} (h : s.step (.increment i) = some t) :
    s.calls[i]? = some .pushed := by
  simp only [step] at h
  split at h
  · assumption
  · cases h

/-- Under the condition the increments that come after a stop request belong to calls that
began after it, and these are refused. -/
theorem run_halted {wakeFd : Bool} {pre post rest : List Action} {s1 : Handover}
    (hu : UndividedCalls (pre ++ .stop :: (post ++ rest)))
    (h1 : (new wakeFd).run (pre ++ [.stop]) = some s1) (h : s1.run post = some t) :
    Halted s1 t := by
  obtain ⟨s0, h0, hstop⟩ := runs_snoc.mp h1
  have begun : Halted s1 s1 :=
    ⟨by rw [(step_shared hstop).1]; rfl, fun _ hb => hb, fun _ hb => lt_of_beyond hb⟩
  refine runs_induct (motive := fun as m => as <+: post → Halted s1 m) (fun _ => begun) ?_ h
    (List.prefix_refl _)
  intro as a m t _ ih ha hpre
  have hm := ih ((List.prefix_append as [a]).trans hpre)
  refine step_halted ha hm (fun i hi => ?_)
  subst hi
  have hb : Beyond s1 i := hm.beyond i (.inr (.inl (step_increment ha)))
  have hb0 : Beyond s0 i := by
    rcases step_beyond hstop hb with h | ⟨h, -⟩
    · exact h
    · cases h
  -- the call was checked before the request and ends after it
  obtain ⟨pre1, pre2, rfl⟩ := List.append_of_mem (beyond_checked h0 hb0)
  obtain ⟨tail, rfl⟩ := hpre
  exact hu i pre1 (pre2 ++ .stop :: as) (tail ++ rest) (by simp) (by simp)

theorem Halted.held {s1 : Handover} {post : List Action} (h : Halted s1 t)
    (observed : ∀ q a, post = q ++ [a] → a.isWorkerCheck = true → t.sawStop = true) :
    StopHeld s1 post t where
  negative := by rw [h.ctrl]; decide
  observed := observed
  refused i pos hi hp := by
    have hn : ¬ Beyond t i := fun hb => absurd (h.older i (h.beyond i hb)) (by omega)
    cases pos with
    | called viable => exact .inr ⟨viable, rfl⟩
    | refused => exact .inl rfl
    | checked => exact absurd (.inl hp) hn
    | pushed => exact absurd (.inr (.inl hp)) hn
    | accepted => exact absurd (.inr (.inr hp)) hn

theorem sticky_of_undivided {wakeFd : Bool} (hu : UndividedCalls acts) :
    StopSticky (new wakeFd) acts := by
  rintro pre post rest s1 t rfl h1 h
  refine (run_halted hu h1 h).held (fun q a hq hw => ?_)
  subst hq
  obtain ⟨m, hm, ha⟩ := runs_snoc.mp h
  have hu' : UndividedCalls (pre ++ .stop :: (q ++ ([a] ++ rest))) := by simpa using hu
  have hh : Halted s1 m := run_halted hu' h1 hm
  exact step_observes ha (by rw [hh.ctrl]; decide) hw

/-- While the counter stays negative it keeps the value of the stop request. -/
theorem run_negative {post : List Action} (hs : s.ctrlHint = -1) (h : s.run post = some t)
    (neg : ∀ as m, as <+: post → s.run as = some m → m.ctrlHint < 0) : t.ctrlHint = -1 := by
  refine runs_induct (motive := fun as m => as <+: post → m.ctrlHint = -1) (fun _ => hs) ?_ h
    (List.prefix_refl _)
  intro as a m t hm ih ha hpre
  refine step_stopped ha (ih ((List.prefix_append as [a]).trans hpre)) (fun i hi => ?_)
  subst hi
  have zero := increment_revives i ha (ih ((List.prefix_append as _).trans hpre))
  have := neg _ t hpre (runs_snoc.mpr ⟨m, hm, ha⟩)
  omega

theorem undivided_of_sticky {wakeFd : Bool} (h : (new wakeFd).run acts = some t)
    (hs : StopSticky (new wakeFd) acts) : UndividedCalls acts := by
  rintro i pre mid rest rfl hmem
  obtain ⟨m1, m2, rfl⟩ := List.append_of_mem hmem
  have split : pre ++ .check i :: (m1 ++ .stop :: m2 ++ .increment i :: rest) =
      (pre ++ .check i :: m1) ++ .stop :: (m2 ++ .increment i :: rest) := by simp
  rw [split] at h hs
  obtain ⟨s0, h0, h⟩ := runs_split.mp h
  obtain ⟨s1, hstop, h⟩ := runs_cons.mp h
  obtain ⟨s2, h2, h⟩ := runs_split.mp h
  obtain ⟨s3, hinc, -⟩ := runs_cons.mp h
  have h1 : (new wakeFd).run (pre ++ .check i :: m1 ++ [.stop]) = some s1 :=
    runs_snoc.mpr ⟨s0, h0, hstop⟩
  have stopped : s2.ctrlHint = -1 := by
    refine run_negative (by rw [(step_shared hstop).1]; rfl) h2 ?_
    rintro as m ⟨bs, rfl⟩ hm
    exact (hs _ as (bs ++ .increment i :: rest) s1 m (by simp) h1 hm).negative
  have zero := increment_revives i hinc stopped
  have := (hs _ (m2 ++ [.increment i]) rest s1 s3 (by simp) h1
    (runs_snoc.mpr ⟨s2, h2, hinc⟩)).negative
  omega

/-- A stop request holds in a run exactly if none falls into a call that is beyond its
check. -/
theorem stop_sticky_iff (wakeFd : Bool) (acts : List Action) (t : Handover)
    (h : (new wakeFd).run acts = some t) :
    StopSticky (new wakeFd) acts ↔ UndividedCalls acts :=
  ⟨undivided_of_sticky h, sticky_of_undivided⟩

theorem stop_sticky_iff_after_call : ∃ t,
    (new true).run [.enter true, .call true, .check 0, .push 0, .increment 0, .stop, .loopTop] =
      some t ∧ t.worker = .returned ∧
    (StopSticky (new true)
        [.enter true, .call true, .check 0, .push 0, .increment 0, .stop, .loopTop] ↔
      UndividedCalls
        [.enter true, .call true, .check 0, .push 0, .increment 0, .stop, .loopTop]) :=
  ⟨_, rfl, rfl, stop_sticky_iff true _ _ rfl⟩

/-- The request falls between the check and the increment of a call, which turns the -1
into 0. -/
theorem stop_taken_back :
    ¬ ∀ acts t, (new true).run acts = some t → StopSticky (new true) acts := by
  intro h
  have held := h [.call true, .check 0, .stop, .push 0, .increment 0] _ rfl
    [.call true, .check 0] [.push 0, .increment 0] [] _ _ rfl rfl rfl
  exact absurd held.negative (by decide)

theorem count_jobs (s : Handover) (j : Nat) : s.jobs.count j =
    s.newJobs.count j + (s.nextJobs ++ s.activeJobs).count j + s.finished.count j := by
  simp only [jobs, List.count_append]

theorem leave_jobs (s : Handover) (j : Nat) : s.leave.jobs.count j = s.jobs.count j := by
  simp only [count_jobs, leave, List.count_append, List.count_nil]
  omega

/-- A job comes up with the push of its call. All that the worker does is to move it. -/
theorem step_jobs (h : s.step a = some t) (j : Nat) :
    t.jobs.count j = s.jobs.count j + if a = .push j then 1 else 0 := by
  cases a <;> simp only [step] at h
  case push i =>
    split at h
    · obtain rfl := Option.some.inj h
      by_cases hij : i = j
      · simp [count_jobs, hij]
        omega
      · simp [count_jobs, hij]
    · cases h
  case splice =>
    split at h
    · obtain rfl := Option.some.inj h
      simp [count_jobs]
    · cases h
  case work next active gone =>
    split at h
    · rename_i hw
      obtain rfl := Option.some.inj h
      have moved := hw.2.count_eq j
      simp only [count_jobs, List.count_append, reduceCtorEq, if_false] at moved ⊢
      omega
    · cases h
  all_goals try split at h
  all_goals try split at h
  all_goals first
    | cases h; done
    | obtain rfl := Option.some.inj h; exact leave_jobs _ j
    | obtain rfl := Option.some.inj h; rfl

theorem handedOver_iff {j : Nat} : s.handedOver j = true ↔
    s.calls[j]? = some .pushed ∨ s.calls[j]? = some .accepted := by
  simp [handedOver]

theorem handedOver_set {i : Nat} {p q : CallPos} (hp : s.calls[i]? = some p)
    (hc : t.calls = s.calls.set i q) (j : Nat) :
    t.handedOver j = if i = j then q == .pushed || q == .accepted else s.handedOver j := by
  have hi := (List.getElem?_eq_some_iff.mp hp).1
  simp only [handedOver, hc, List.getElem?_set]
  split
  · simp
  · rfl

theorem step_handedOver (h : s.step a = some t) (j : Nat) :
    t.handedOver j = (s.handedOver j || a == .push j) := by
  have hc := (step_shared h).2
  cases a
  case call viable =>
    simp only [callsAfter] at hc
    simp only [handedOver, hc, List.getElem?_append]
    split
    · simp
    · rename_i hj
      have hn : s.calls[j]? = none := List.getElem?_eq_none (by omega)
      rw [List.getElem?_singleton, hn]
      split <;> rfl
  case check i =>
    simp only [step] at h
    split at h
    · rename_i viable hi
      simp only [callsAfter, hi] at hc
      rw [handedOver_set hi hc]
      split
      · subst_vars
        simp only [handedOver, hi]
        split <;> rfl
      · simp
    · cases h
  case push i =>
    simp only [step] at h
    split at h
    · rename_i hi
      rw [handedOver_set hi hc]
      split
      · subst_vars
        simp
      · simp [*]
    · cases h
  case increment i =>
    rw [handedOver_set (step_increment h) hc]
    split
    · subst_vars
      simp [handedOver, step_increment h]
    · simp
  all_goals simp [handedOver, hc, callsAfter]

theorem step_push {i : Nat} (h : s.step (.push i) = some t) : s.handedOver i = false := by
  simp only [step] at h
  split at h
  · simp [handedOver, *]
  · cases h

theorem run_jobs {wakeFd : Bool} (h : (new wakeFd).run acts = some t) (j : Nat) :
    t.jobs.count j = if t.handedOver j then 1 else 0 := by
  refine runs_induct (motive := fun _ t => t.jobs.count j = if t.handedOver j then 1 else 0)
    (by simp [jobs, handedOver, new]) ?_ h
  intro as a m t _ ih ha
  rw [step_jobs ha, step_handedOver ha, ih]
  by_cases hp : a = .push j
  · subst hp
    simp [step_push ha]
  · simp [hp]

/-- How many calls are through with a job that the worker has not taken yet. -/
def waiting (s : Handover) : Nat := s.newJobs.countP (fun j => s.calls[j]? == some .accepted)

/-- Without a stop request the counter counts the calls that are through. The worker's copies
of it are never ahead, and once it has taken the new jobs there is a later increment for
each of them that is through. -/
structure Counted (s : Handover) : Prop where
  ctrl : s.ctrlHint = (s.calls.count .accepted : Int)
  seen : ∀ newCtrlMark, s.worker = .compare newCtrlMark → newCtrlMark ≤ s.ctrlHint
  stored : s.lastCtrlMark ≤ s.ctrlHint
  taken : s.worker ≠ .splice → s.lastCtrlMark = -2 ∨ s.lastCtrlMark + s.waiting ≤ s.ctrlHint

theorem new_counted : Counted (new true) := by
  constructor <;> simp [new]

theorem count_set_of_ne {l : List CallPos} {i : Nat} {p q : CallPos} (hp : l[i]? = some p)
    (hne : p ≠ .accepted) :
    (l.set i q).count .accepted = l.count .accepted + if q = .accepted then 1 else 0 := by
  obtain ⟨hi, he⟩ := List.getElem?_eq_some_iff.mp hp
  rw [List.count_set hi, he]
  simp [hne]

def isIncrement : Action → Bool
  | .increment _ => true
  | _ => false

theorem step_count (h : s.step a = some t) : t.calls.count .accepted =
    s.calls.count .accepted + if isIncrement a then 1 else 0 := by
  have hc := (step_shared h).2
  cases a
  case call viable => simp [hc, callsAfter, isIncrement]
  case check i =>
    simp only [step] at h
    split at h
    · rename_i viable hi
      simp only [callsAfter, hi] at hc
      rw [hc, count_set_of_ne hi (by simp)]
      split <;> simp [isIncrement]
    · cases h
  case push i =>
    simp only [step] at h
    split at h
    · rename_i hi
      rw [hc, callsAfter, count_set_of_ne hi (by simp)]
      simp [isIncrement]
    · cases h
  case increment i =>
    rw [hc, callsAfter, count_set_of_ne (step_increment h) (by simp)]
    simp [isIncrement]
  all_goals simp [hc, callsAfter, isIncrement]

theorem step_accepted (h : s.step a = some t) {j : Nat} (hj : t.calls[j]? = some .accepted) :
    s.calls[j]? = some .accepted ∨ a = .increment j := by
  rcases step_call h hj with hs | hm
  · exact .inl hs
  · cases hm
    exact .inr rfl

/-- The positions of the jobs in the queue change only with an increment. -/
theorem step_waiting {js : List Nat} (h : s.step a = some t) :
    js.countP (fun j => t.calls[j]? == some .accepted) ≤
      js.countP (fun j => s.calls[j]? == some .accepted) + js.countP (fun j => a == .increment j) := by
  induction js with
  | nil => exact Nat.le_refl _
  | cons j js ih =>
    simp only [List.countP_cons]
    have := fun hj => step_accepted (j := j) h hj
    by_cases hj : t.calls[j]? = some .accepted
    · rcases this hj with hs | ha
      · simp only [hj, hs, beq_self_eq_true, if_true]
        omega
      · simp only [hj, ha, beq_self_eq_true, if_true]
        rw [ha] at ih
        omega
    · simp only [hj, beq_iff_eq, if_false]
      omega

/-- What a step can do to the worker, its copy of the counter and the queue of new jobs. -/
inductive WorkMove (s : Handover) : Action → WorkPos → Int → List Nat → Prop
  | callers {a : Action} : WorkMove s a s.worker s.lastCtrlMark s.newJobs
  | push (i : Nat) : WorkMove s (.push i) s.worker s.lastCtrlMark (s.newJobs ++ [i])
  | onward {a : Action} {w : WorkPos} (hs : s.worker ≠ .splice) (hw : w ≠ .splice)
      (hc : ∀ v, w = .compare v → v = s.ctrlHint) (hr : s.worker ≠ .returned)
      (he : s.worker = .entering → s.wakeFd = false → w = .returned) :
      WorkMove s a w s.lastCtrlMark s.newJobs
  | store {v : Int} (hs : s.worker = .compare v) : WorkMove s .compareMark .splice v s.newJobs
  | take (hs : s.worker = .splice) : WorkMove s .splice .working s.lastCtrlMark []

theorem step_worker (h : s.step a = some t) :
    WorkMove s a t.worker t.lastCtrlMark t.newJobs := by
  cases a <;> simp only [step] at h
  case call => obtain rfl := Option.some.inj h; exact .callers
  case stop => obtain rfl := Option.some.inj h; exact .callers
  case shutdown => obtain rfl := Option.some.inj h; exact .callers
  case check => split at h <;> cases h; exact .callers
  case push i => split at h <;> cases h; exact .push i
  case increment => split at h <;> cases h; exact .callers
  case work => split at h <;> cases h; exact .callers
  case splice => split at h <;> cases h; exact .take ‹_›
  case compareMark =>
    split at h
    · rename_i v hv
      split at h <;> obtain rfl := Option.some.inj h
      · exact .store hv
      · refine .onward ?_ ?_ ?_ ?_ ?_ <;> simp [hv]
    · cases h
  case again =>
    split at h <;> cases h
    rename_i hw
    rcases hw with hw | hw <;> refine .onward ?_ ?_ ?_ ?_ ?_ <;> simp [hw]
  case enter memory =>
    split at h <;> cases h
    rename_i hw
    refine .onward ?_ ?_ ?_ ?_ (fun _ hf => by simp [hf]) <;> simp [hw] <;> split <;> simp
  all_goals
    split at h
    · rename_i hw
      try split at h
      all_goals obtain rfl := Option.some.inj h
      all_goals refine .onward ?_ ?_ ?_ ?_ ?_ <;> simp [leave, hw]
    · cases h

theorem toInt32_small {n : Nat} (h : n < 2 ^ 31) : toInt32 n = n := by
  simp only [toInt32]
  omega

theorem Counted.step_ctrl (hs : Counted s) (h : s.step a = some t) (ha : a ≠ .stop)
    (few : t.calls.length < 2 ^ 31) :
    t.ctrlHint = s.ctrlHint + if isIncrement a then 1 else 0 := by
  rw [(step_shared h).1]
  cases a <;> simp only [ctrlAfter, isIncrement, if_true] <;> try simp
  case stop => exact absurd rfl ha
  case increment i =>
    have hn := step_count h
    simp only [isIncrement, if_true] at hn
    have le : t.calls.count .accepted ≤ t.calls.length := List.count_le_length
    rw [hs.ctrl]
    exact toInt32_small (n := s.calls.count .accepted + 1) (by omega)

theorem countP_increment {js : List Nat} (one : ∀ j, js.count j ≤ 1) (a : Action) :
    js.countP (fun j => a == .increment j) ≤ if isIncrement a then 1 else 0 := by
  cases a with
  | increment i =>
    refine (List.countP_mono_left (fun j _ hj => ?_)).trans (one i)
    cases beq_iff_eq.mp hj
    exact beq_self_eq_true i
  | _ =>
    refine (List.countP_eq_zero.mpr (fun j _ hj => ?_)).le
    cases beq_iff_eq.mp hj

theorem step_counted (h : s.step a = some t) (hs : Counted s) (ha : a ≠ .stop)
    (few : t.calls.length < 2 ^ 31) (one : ∀ j, s.newJobs.count j ≤ 1) : Counted t := by
  have ctrl := hs.step_ctrl h ha few
  have kept : (s.newJobs.countP fun j => t.calls[j]? == some .accepted) ≤
      s.waiting + if isIncrement a then 1 else 0 :=
    (step_waiting h).trans (Nat.add_le_add_left (countP_increment one a) _)
  have pace : (s.newJobs.countP fun j => t.calls[j]? == some .accepted) + s.ctrlHint ≤
      s.waiting + t.ctrlHint := by
    rw [ctrl]
    cases hi : isIncrement a <;>
      simp only [hi, if_true, Bool.false_eq_true, if_false] at kept ⊢ <;> omega
  have count : t.ctrlHint = (t.calls.count .accepted : Int) := by
    rw [ctrl, step_count h, hs.ctrl]
    split <;> rfl
  have up : s.ctrlHint ≤ t.ctrlHint := by
    rw [ctrl]
    split <;> omega
  have hw := step_worker h
  generalize ht : t.worker = w at hw
  generalize hl : t.lastCtrlMark = l at hw
  generalize hn : t.newJobs = js at hw
  have wait : t.waiting = js.countP (fun j => t.calls[j]? == some .accepted) := by rw [← hn, waiting]
  cases hw with
  | callers =>
    exact ⟨count, fun v hv => (hs.seen v (ht ▸ hv)).trans up, hl ▸ hs.stored.trans up, fun hne => by
      have := hs.taken (ht ▸ hne)
      omega⟩
  | push i =>
    have fresh : t.calls[i]? ≠ some .accepted := by
      intro hi
      rcases step_accepted h hi with hi | hi
      · simp [step, hi] at h
      · cases hi
    refine ⟨count, fun v hv => (hs.seen v (ht ▸ hv)).trans up, hl ▸ hs.stored.trans up, fun hne => ?_⟩
    have := hs.taken (ht ▸ hne)
    simp only [List.countP_append, List.countP_singleton, beq_iff_eq, fresh, if_false] at wait
    omega
  | onward hsp hsw hc hr he =>
    refine ⟨count, fun v hv => ?_, hl ▸ hs.stored.trans up, fun _ => ?_⟩
    · rw [hc v (ht ▸ hv)]
      exact up
    · have := hs.taken hsp
      omega
  | store hv => exact ⟨count, by simp [ht], hl ▸ (hs.seen _ hv).trans up, fun hne => absurd ht hne⟩
  | take hv =>
    refine ⟨count, by simp [ht], hl ▸ hs.stored.trans up, fun _ => .inr ?_⟩
    have := hs.stored
    simp only [List.countP_nil] at wait
    omega

theorem length_calls {wakeFd : Bool} (h : (new wakeFd).run acts = some t) :
    t.calls.length = acts.countP Action.isCall := by
  refine runs_induct (motive := fun as t => t.calls.length = as.countP Action.isCall)
    (by simp [new]) ?_ h
  intro as a m t _ ih ha
  rw [step_calls_length ha, ih, List.countP_append, List.countP_singleton]

theorem newJobs_count_le {wakeFd : Bool} (h : (new wakeFd).run acts = some t) (j : Nat) :
    t.newJobs.count j ≤ 1 := by
  have := run_jobs h j
  rw [count_jobs] at this
  split at this <;> omega

theorem run_counted (h : (new true).run acts = some t) (hns : .stop ∉ acts)
    (few : acts.countP Action.isCall < 2 ^ 31) : Counted t := by
  refine runs_induct (motive := fun as t =>
    .stop ∉ as → as.countP Action.isCall < 2 ^ 31 → Counted t) (fun _ _ => new_counted) ?_ h hns few
  intro as a m t hm ih ha hns few
  rw [List.mem_append, List.mem_singleton, not_or] at hns
  have ht : t.calls.length = (as ++ [a]).countP Action.isCall :=
    length_calls (runs_snoc.mpr ⟨m, hm, ha⟩)
  refine step_counted ha (ih hns.1 ?_) (Ne.symm hns.2) (ht ▸ few) (newJobs_count_le hm)
  rw [List.countP_append] at few
  omega

/-- A downloader that came up without a descriptor never gets to the mark. -/
structure Dead (s : Handover) : Prop where
  fd : s.wakeFd = false
  ctrl : s.ctrlHint = -1
  mark : s.lastCtrlMark = -2
  worker : s.worker = .entering ∨ s.worker = .returned
  calls : ∀ i, ¬ Beyond s i

theorem step_wakeFd (h : s.step a = some t) : t.wakeFd = s.wakeFd := by
  cases a <;> simp only [step] at h
  all_goals try split at h
  all_goals try split at h
  all_goals first
    | cases h; done
    | obtain rfl := Option.some.inj h; rfl

theorem step_dead (h : s.step a = some t) (hs : Dead s) : Dead t := by
  have noIncrement (i : Nat) : a ≠ .increment i := by
    rintro rfl
    exact hs.calls i (.inr (.inl (step_increment h)))
  have still : t.lastCtrlMark = -2 ∧ (t.worker = .entering ∨ t.worker = .returned) := by
    have hw := step_worker h
    generalize t.worker = w at hw
    generalize t.lastCtrlMark = l at hw
    generalize t.newJobs = js at hw
    cases hw with
    | callers => exact ⟨hs.mark, hs.worker⟩
    | push => exact ⟨hs.mark, hs.worker⟩
    | onward _ _ _ hr he => exact ⟨hs.mark, .inr (he (hs.worker.resolve_right hr) hs.fd)⟩
    | store hv => rcases hs.worker with hw | hw <;> rw [hw] at hv <;> cases hv
    | take hv => rcases hs.worker with hw | hw <;> rw [hw] at hv <;> cases hv
  refine ⟨(step_wakeFd h).trans hs.fd, step_stopped h hs.ctrl noIncrement, still.1, still.2,
    fun i hb => ?_⟩
  · rcases step_beyond h hb with hm | ⟨-, hr⟩
    · exact hs.calls i hm
    · rw [stopRequested_of_ctrl (by rw [hs.ctrl]; decide)] at hr
      cases hr

theorem run_dead (h : (new false).run acts = some t) : Dead t :=
  runs_induct (motive := fun _ t => Dead t) ⟨rfl, rfl, rfl, .inl rfl, by simp [Beyond, new]⟩
    (fun _ _ _ _ _ ih ha => step_dead ha ih) h

theorem run_handedOver {wakeFd : Bool} (h : (new wakeFd).run acts = some t) (j : Nat) :
    t.handedOver j = true ↔ .push j ∈ acts := by
  refine runs_induct (motive := fun as t => t.handedOver j = true ↔ .push j ∈ as)
    (by simp [handedOver, new]) ?_ h
  intro as a m t _ ih ha
  rw [step_handedOver ha, Bool.or_eq_true, ih, beq_iff_eq, List.mem_append, List.mem_singleton,
    eq_comm (a := a)]

/-- A job in the queue whose call is not at its push is through, and then the counter has
gone on since the worker looked. -/
theorem Counted.newJobs_eq_nil (hs : Counted s) (hj : ∀ j ∈ s.newJobs, s.handedOver j = true)
    (hm : s.lastCtrlMark = s.ctrlHint) (hc : .pushed ∉ s.calls) (hw : s.worker ≠ .splice) :
    s.newJobs = [] := by
  have zero : s.waiting = 0 := by
    have := hs.ctrl
    rcases hs.taken hw with hl | hl <;> omega
  refine List.eq_nil_iff_forall_not_mem.mpr (fun j hjm => ?_)
  rcases handedOver_iff.mp (hj j hjm) with hp | hp
  · exact hc (List.mem_of_getElem? hp)
  · exact List.countP_eq_zero.mp zero j hjm (by simp [hp])

theorem splice_takes (hw : s.worker = .splice) : ∃ u, s.step .splice = some u ∧
    u.newJobs = [] ∧ u.nextJobs = s.newJobs ++ s.nextJobs := by
  simp [step, hw]

theorem handedOver_of_mem {wakeFd : Bool} (h : (new wakeFd).run acts = some t) {j : Nat}
    (hj : j ∈ t.newJobs) : t.handedOver j = true := by
  have hc := run_jobs h j
  have hp := List.count_pos_iff.mpr hj
  rw [count_jobs] at hc
  split at hc
  · assumption
  · omega

/-- A pushed job is in one of the queues until it is finished. When the worker has the
current mark and no call is between its push and its increment, no new job is waiting,
unless the worker is just about to take them over. -/
theorem handover_complete (wakeFd : Bool) (acts : List Action) (t : Handover)
    (h : (new wakeFd).run acts = some t) (hns : .stop ∉ acts)
    (few : acts.countP Action.isCall < 2 ^ 31) :
    (∀ j, .push j ∈ acts →
      t.newJobs.count j + (t.nextJobs ++ t.activeJobs).count j + t.finished.count j = 1) ∧
    (t.lastCtrlMark = t.ctrlHint → .pushed ∉ t.calls →
      t.newJobs = [] ∨ t.worker = .splice ∧ ∃ u, t.step .splice = some u ∧
        u.newJobs = [] ∧ u.nextJobs = t.newJobs ++ t.nextJobs) := by
  refine ⟨fun j hj => ?_, fun hm hc => ?_⟩
  · have := run_jobs h j
    rw [if_pos ((run_handedOver h j).mpr hj), count_jobs] at this
    exact this
  · cases wakeFd with
    | false =>
      have dead := run_dead h
      rw [dead.mark, dead.ctrl] at hm
      cases hm
    | true =>
      by_cases hw : t.worker = .splice
      · exact .inr ⟨hw, splice_takes hw⟩
      · exact .inl ((run_counted h hns few).newJobs_eq_nil (fun j hj => handedOver_of_mem h hj)
          hm hc hw)

theorem handover_complete_after_splice : ∃ t,
    (new true).run [.enter true, .call true, .check 0, .push 0, .loopTop, .readMark, .compareMark,
      .splice, .increment 0, .again, .loopTop, .readMark, .compareMark, .splice] = some t ∧
    t.nextJobs = [0] ∧ t.newJobs = [] ∧ t.lastCtrlMark = t.ctrlHint ∧
    (∀ j, .push j ∈ [Action.enter true, .call true, .check 0, .push 0, .loopTop, .readMark,
        .compareMark, .splice, .increment 0, .again, .loopTop, .readMark, .compareMark, .splice] →
      t.newJobs.count j + (t.nextJobs ++ t.activeJobs).count j + t.finished.count j = 1) :=
  ⟨_, rfl, rfl, rfl, rfl,
    (handover_complete true _ _ rfl (by decide) (by decide)).1⟩

/-- The mark is stored before the jobs are taken. -/
theorem mark_before_splice : ∃ acts t, (new true).run acts = some t ∧ .stop ∉ acts ∧
    acts.countP Action.isCall < 2 ^ 31 ∧ t.lastCtrlMark = t.ctrlHint ∧ .pushed ∉ t.calls ∧
    t.newJobs ≠ [] :=
  ⟨[.enter true, .call true, .check 0, .push 0, .increment 0, .loopTop, .readMark, .compareMark],
    _, rfl, by decide, by decide, by decide, by decide, by decide⟩

end Handover

end Acng
