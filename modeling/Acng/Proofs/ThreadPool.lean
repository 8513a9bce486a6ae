import Acng.ThreadPool

namespace Acng.ThreadPool
open Lib

variable {Task : Type}

/-- The counters are the numbers of the threads. -/
structure Counted (p : ThreadPool Task) : Prop where
  active : p.curActive = UInt32.ofNat p.busy.length
  spare : p.curSpare = UInt32.ofNat p.idle

/-- What one critical section does to the pool. -/
structure Moved (p t : ThreadPool Task) : Prop where
  counted : Counted p → Counted t
  maxCount : t.maxCount = p.maxCount

@[simp] theorem startThread_maxCount (p : ThreadPool Task) :
    p.startThread.maxCount = p.maxCount := rfl

@[simp] theorem startThread_threads (p : ThreadPool Task) :
    p.startThread.threads = p.threads + 1 := by
  simp only [threads, startThread]
  omega

theorem Moved.refl (p : ThreadPool Task) : Moved p p := ⟨id, rfl⟩

theorem Moved.trans {p q t : ThreadPool Task} (hpq : Moved p q) (hqt : Moved q t) : Moved p t :=
  ⟨fun h => hqt.counted (hpq.counted h), hqt.maxCount.trans hpq.maxCount⟩

theorem startThread_moved (p : ThreadPool Task) : Moved p p.startThread := by
  refine ⟨fun h => ⟨h.active, ?_⟩, rfl⟩
  simp [startThread, h.spare]

theorem enqueue_moved (p : ThreadPool Task) (c : ScheduleCall Task) : Moved p (p.enqueue c).1 := by
  unfold enqueue
  split
  · exact ⟨fun h => ⟨h.active, h.spare⟩, rfl⟩
  · exact .refl p

@[simp] theorem enqueue_threads (p : ThreadPool Task) (c : ScheduleCall Task) :
    (p.enqueue c).1.threads = p.threads := by
  unfold enqueue
  split <;> rfl

theorem schedule_moved (p : ThreadPool Task) (c : ScheduleCall Task) : Moved p (p.schedule c).1 := by
  unfold schedule
  split
  · exact .refl p
  · split
    · split
      · exact p.startThread_moved.trans (p.startThread.enqueue_moved c)
      · exact .refl p
    · exact p.enqueue_moved c

theorem ofNat_pred {n : Nat} (h : 0 < n) : UInt32.ofNat n - 1 = UInt32.ofNat (n - 1) := by
  obtain ⟨k, rfl⟩ := Nat.exists_eq_succ_of_ne_zero (Nat.pos_iff_ne_zero.mp h)
  simp

theorem loopHead_moved {p : ThreadPool Task} (hidle : 0 < p.idle) : Moved p p.loopHead := by
  unfold loopHead
  split
  · refine ⟨fun h => ⟨h.active, ?_⟩, rfl⟩
    simpa only [h.spare] using ofNat_pred hidle
  · split
    · exact .refl p
    · refine ⟨fun h => ⟨?_, ?_⟩, rfl⟩
      · simp [h.active]
      · simpa only [h.spare] using ofNat_pred hidle

/-- A thread that picks a task up stays the same thread. -/
theorem loopHead_threads {p : ThreadPool Task} (hidle : 0 < p.idle) :
    p.loopHead.threads ≤ p.threads := by
  unfold loopHead
  split
  · simp only [threads]
    omega
  · split
    · exact Nat.le_refl _
    · simp only [threads, List.length_cons]
      omega

theorem complete_moved {p : ThreadPool Task} {i : Nat} (hi : i < p.busy.length) :
    Moved p (p.complete i) := by
  have hdone : Moved p { p with busy := p.busy.eraseIdx i, curActive := p.curActive - 1 } := by
    refine ⟨fun h => ⟨?_, h.spare⟩, rfl⟩
    rw [List.length_eraseIdx_of_lt hi]
    simpa only [h.active] using ofNat_pred (Nat.zero_lt_of_lt hi)
  unfold complete
  simp only
  split
  · exact hdone
  · exact (hdone.trans (startThread_moved _)).trans (loopHead_moved (Nat.succ_pos _))

/-- The thread of the task is kept as a spare thread at most. -/
theorem complete_threads {p : ThreadPool Task} {i : Nat} (hi : i < p.busy.length) :
    (p.complete i).threads ≤ p.threads := by
  have hdone : ThreadPool.threads { p with
      busy := p.busy.eraseIdx i, curActive := p.curActive - 1 } + 1 = p.threads := by
    simp only [threads, List.length_eraseIdx_of_lt hi]
    omega
  unfold complete
  simp only
  split
  · omega
  · refine Nat.le_trans (loopHead_threads (Nat.succ_pos _)) ?_
    rw [startThread_threads]
    exact Nat.le_of_eq hdone

theorem step_moved {p t : ThreadPool Task} {a : Action Task} (h : p.step a = some t) :
    Moved p t := by
  cases a with
  | schedule c =>
    obtain rfl := Option.some.inj h
    exact p.schedule_moved c
  | wake =>
    obtain ⟨hidle, ht⟩ := Option.ite_none_right_eq_some.mp h
    obtain rfl := Option.some.inj ht
    exact loopHead_moved hidle
  | complete i =>
    obtain ⟨hi, ht⟩ := Option.ite_none_right_eq_some.mp h
    obtain rfl := Option.some.inj ht
    exact complete_moved hi
  | stop =>
    obtain rfl := Option.some.inj h
    exact ⟨fun h => ⟨h.active, h.spare⟩, rfl⟩

/-- Only `schedule` brings threads into being. -/
theorem step_threads {p t : ThreadPool Task} {a : Action Task} (h : p.step a = some t)
    (ha : ∀ c, a ≠ .schedule c) : t.threads ≤ p.threads := by
  cases a with
  | schedule c => exact absurd rfl (ha c)
  | wake =>
    obtain ⟨hidle, ht⟩ := Option.ite_none_right_eq_some.mp h
    obtain rfl := Option.some.inj ht
    exact loopHead_threads hidle
  | complete i =>
    obtain ⟨hi, ht⟩ := Option.ite_none_right_eq_some.mp h
    obtain rfl := Option.some.inj ht
    exact complete_threads hi
  | stop =>
    obtain rfl := Option.some.inj h
    exact Nat.le_refl _

/-- A run from an empty pool. -/
theorem runs_counted {maxCount maxSpare : UInt32} {as : List (Action Task)} {t : ThreadPool Task}
    (h : runs step (create maxCount maxSpare) as = some t) :
    Counted t ∧ t.maxCount = maxCount := by
  refine runs_induct (motive := fun _ t => Counted t ∧ t.maxCount = maxCount) ?_ ?_ h
  · exact ⟨⟨rfl, rfl⟩, rfl⟩
  · intro as a m t _ ih ha
    have hmoved := step_moved ha
    exact ⟨hmoved.counted ih.1, hmoved.maxCount.trans ih.2⟩

/-- A refusal is justified if all spare threads have a task in the queue and no more threads are
allowed, or if the thread for the task could not be started. -/
def MayRefuse (p : ThreadPool Task) (c : ScheduleCall Task) : Prop :=
  (p.idle ≤ p.freshWork.length ∧ p.maxCount.toNat ≤ p.threads) ∨
    (p.limitReached = false ∧ p.needsThread = true ∧ c.threadStarts = false)

/-- The capacity of the pool is respected and used in all states of a run. -/
structure KeepsCapacity (p : ThreadPool Task) (as : List (Action Task)) : Prop where
  bounded : ∀ pre post m, as = pre ++ post → runs step p pre = some m →
    m.threads ≤ m.maxCount.toNat
  used : ∀ pre c post m, as = pre ++ .schedule c :: post → runs step p pre = some m →
    (m.schedule c).2 = false → MayRefuse m c

/-- The state is one in which the test of `schedule` decides as it should, and there is memory for
the queue. -/
structure Admits (p : ThreadPool Task) (c : ScheduleCall Task) : Prop where
  full : p.limitReached = true → p.idle ≤ p.freshWork.length ∧ p.maxCount.toNat ≤ p.threads
  room : p.limitReached = false → p.needsThread = true → c.threadStarts = true →
    p.threads < p.maxCount.toNat
  holds : p.limitReached = false → (p.needsThread = true → c.threadStarts = true) →
    c.queueHolds = true

theorem schedule_refused {p : ThreadPool Task} {c : ScheduleCall Task} (hc : Admits p c)
    (h : (p.schedule c).2 = false) : MayRefuse p c := by
  unfold schedule at h
  split at h
  · next hlimit => exact .inl (hc.full hlimit)
  · next hlimit =>
    have hlimit := eq_false_of_ne_true hlimit
    have hqueued {q : ThreadPool Task} (hholds : c.queueHolds = true) :
        (q.enqueue c).2 = true := by
      simp [enqueue, hholds]
    split at h
    · next hneeds =>
      split at h
      · next hstarts =>
        rw [hqueued (hc.holds hlimit (fun _ => hstarts))] at h
        exact absurd h.symm Bool.false_ne_true
      · next hstarts =>
        exact .inr ⟨hlimit, hneeds, eq_false_of_ne_true hstarts⟩
    · next hneeds =>
      rw [hqueued (hc.holds hlimit (fun h => absurd h hneeds))] at h
      exact absurd h.symm Bool.false_ne_true

theorem schedule_threads {p : ThreadPool Task} {c : ScheduleCall Task} (hc : Admits p c)
    (hp : p.threads ≤ p.maxCount.toNat) : (p.schedule c).1.threads ≤ p.maxCount.toNat := by
  unfold schedule
  split
  · exact hp
  · next hlimit =>
    split
    · next hneeds =>
      split
      · next hstarts =>
        rw [enqueue_threads, startThread_threads]
        exact hc.room (eq_false_of_ne_true hlimit) hneeds hstarts
      · exact hp
    · rw [enqueue_threads]
      exact hp

/-- All the calls of a run are made in such states. -/
def AllAdmitted (p : ThreadPool Task) (as : List (Action Task)) : Prop :=
  ∀ pre c post m, as = pre ++ .schedule c :: post → runs step p pre = some m → Admits m c

theorem AllAdmitted.left {p : ThreadPool Task} {as bs : List (Action Task)}
    (h : AllAdmitted p (as ++ bs)) : AllAdmitted p as := by
  intro pre c post m has hm
  refine h pre c (post ++ bs) m ?_ hm
  rw [has, List.append_assoc, List.cons_append]

theorem runs_bounded {maxCount maxSpare : UInt32} {as : List (Action Task)} {t : ThreadPool Task}
    (h : runs step (create maxCount maxSpare) as = some t)
    (hall : AllAdmitted (create maxCount maxSpare) as) : t.threads ≤ maxCount.toNat := by
  refine runs_induct (motive := fun as t =>
    AllAdmitted (create maxCount maxSpare) as → t.threads ≤ maxCount.toNat) ?_ ?_ h hall
  · exact fun _ => Nat.zero_le _
  · intro as a m t hm ih ha hall
    have hbounded := ih hall.left
    by_cases hschedule : ∃ c, a = .schedule c
    · obtain ⟨c, rfl⟩ := hschedule
      obtain rfl := Option.some.inj ha
      have hmax := (runs_counted hm).2
      rw [← hmax] at hbounded ⊢
      exact schedule_threads (hall as c [] m rfl hm) hbounded
    · have hnot : ∀ c, a ≠ .schedule c := fun c hc => hschedule ⟨c, hc⟩
      exact Nat.le_trans (step_threads ha hnot) hbounded

/-- As long as the number of threads is in its bounds, the counters do not wrap. -/
theorem Counted.spare_toNat {p : ThreadPool Task} (h : Counted p)
    (hp : p.threads ≤ p.maxCount.toNat) : p.curSpare.toNat = p.idle := by
  have hmax := p.maxCount.toNat_lt
  rw [h.spare, UInt32.toNat_ofNat_of_lt']
  unfold threads at hp
  exact Nat.lt_of_le_of_lt (Nat.le_trans (Nat.le_add_right _ _) hp) hmax

theorem KeepsCapacity.admits {maxCount maxSpare : UInt32} {as pre post : List (Action Task)}
    {c : ScheduleCall Task} {m : ThreadPool Task}
    (h : KeepsCapacity (create maxCount maxSpare) as) (has : as = pre ++ .schedule c :: post)
    (hm : runs step (create maxCount maxSpare) pre = some m) : Admits m c := by
  have hbefore := h.bounded pre (.schedule c :: post) m has hm
  have hafter : (m.schedule c).1.threads ≤ m.maxCount.toNat := by
    have hmax := (m.schedule_moved c).maxCount
    rw [← hmax]
    refine h.bounded (pre ++ [.schedule c]) post _ ?_ (runs_snoc.mpr ⟨m, hm, rfl⟩)
    rw [has, List.append_assoc, List.singleton_append]
  have hrefused := h.used pre c post m has hm
  have hspare := (runs_counted hm).1.spare_toNat hbefore
  unfold schedule at hafter hrefused
  refine ⟨fun hlimit => ?_, fun hlimit hneeds hstarts => ?_, fun hlimit hstarts => ?_⟩
  · rw [if_pos hlimit] at hrefused
    obtain hfull | ⟨hno, _⟩ := hrefused rfl
    · exact hfull
    · exact absurd (hno.symm.trans hlimit) Bool.false_ne_true
  · simpa [hlimit, hneeds, hstarts, Nat.succ_le_iff] using hafter
  · by_contra hholds
    have hholds := eq_false_of_ne_true hholds
    cases hneeds : m.needsThread with
    | true =>
      -- The thread is there, although nothing is queued for it.
      have hstarts := hstarts hneeds
      simp only [hlimit, hneeds, hstarts, Bool.false_eq_true, if_false, if_true, enqueue_threads,
        startThread_threads] at hafter
      simp only [hlimit, hneeds, hstarts, enqueue, hholds, Bool.false_eq_true, if_false, if_true]
        at hrefused
      obtain ⟨_, hlimit⟩ | ⟨_, _, hfails⟩ := hrefused trivial
      · omega
      · exact absurd (hfails.symm.trans hstarts) Bool.false_ne_true
    | false =>
      simp only [hlimit, hneeds, enqueue, hholds, Bool.false_eq_true, if_false] at hrefused
      obtain ⟨hidle, _⟩ | ⟨_, hneeds', _⟩ := hrefused trivial
      · simp only [needsThread, decide_eq_false_iff_not] at hneeds
        omega
      · exact absurd (hneeds.symm.trans hneeds') Bool.false_ne_true

/-- In every interleaving the capacity is respected and used exactly if each call of `schedule`
finds a state for which its test is right: the sum of active and spare threads has to be
on the same side of the limit as twice the active ones. -/
theorem keepsCapacity_iff (maxCount maxSpare : UInt32) (as : List (Action Task)) :
    KeepsCapacity (create maxCount maxSpare) as ↔ AllAdmitted (create maxCount maxSpare) as := by
  constructor
  · intro h pre c post m has hm
    exact h.admits has hm
  · intro hall
    refine ⟨fun pre post m has hm => ?_, fun pre c post m has hm href => ?_⟩
    · rw [(runs_counted hm).2]
      refine runs_bounded hm ?_
      rw [has] at hall
      exact hall.left
    · exact schedule_refused (hall pre c post m has hm) href

/-- Two calls before the first thread has the lock: one thread is allowed, but there are two. -/
theorem schedule_twice_exceeds :
    ¬ KeepsCapacity (create 1 0) [.schedule ⟨(), true, true⟩, .schedule ⟨(), true, true⟩] := by
  intro h
  have hbounded := h.bounded [.schedule ⟨(), true, true⟩, .schedule ⟨(), true, true⟩] []
    ⟨1, 0, 0, 2, [(), ()], false, 2, []⟩ rfl rfl
  exact absurd hbounded (by decide)

end Acng.ThreadPool

namespace Acng.EvaBase
open Lib

/-- The numbers of what has run. -/
def handled (s : EvaBase) : List Nat := s.done.map Prod.fst

/-- Every action is in one place, in the order of the calls, and what waits is behind an event that is added, or a
call that is going to add it. -/
structure Sound (s : EvaBase) : Prop where
  order : s.handled ++ s.processing_q.map (·.id) ++ s.incoming_q.map (·.id) = List.range s.posted
  armed : ∀ ac ∈ s.incoming_q, ac.id ∉ s.posting → s.handover_wakeup = true
  told : ∀ e ∈ s.done, e.2 = true → s.in_shutdown = true
  flags : (s.done.map Prod.snd).Pairwise (fun a b => a = true → b = true)
  idle : s.phase = .returned → s.processing_q = []

theorem Sound.start : Sound {} := ⟨rfl, nofun, nofun, .nil, nofun⟩

theorem Sound.swap {s : EvaBase} (h : s.Sound) (hidle : s.processing_q = []) (hphase : s.phase ≠ .returned) :
    s.swap.Sound where
  order := by
    have := h.order
    simp only [hidle, List.map_nil, List.append_nil] at this
    simpa [EvaBase.swap, handled, hidle] using this
  armed ac hac := by
    rw [EvaBase.swap, hidle] at hac
    cases hac
  told := h.told
  flags := h.flags
  idle hret := absurd hret hphase

theorem Sound.post {s : EvaBase} (h : s.Sound) (stop : Bool) : Sound { s with
    incoming_q := s.incoming_q ++ [⟨s.posted, stop⟩], posting := s.posting ++ [s.posted], posted := s.posted + 1 } where
  order := by
    have := h.order
    simp only [List.map_append, ← List.append_assoc, handled] at this ⊢
    rw [this, List.range_succ]
    rfl
  armed ac hac hno := by
    obtain ⟨hno, hlast⟩ := not_or.mp (mt List.mem_append.mpr hno)
    obtain hac | hac := List.mem_append.mp hac
    · exact h.armed ac hac hno
    · rw [List.mem_singleton.mp hac] at hlast
      exact absurd (List.mem_singleton.mpr rfl) hlast
  told := h.told
  flags := h.flags
  idle := h.idle

theorem Sound.act {s : EvaBase} (h : s.Sound) {ac : PostedAction} {rest : List PostedAction}
    (hq : s.processing_q = ac :: rest) : Sound { s with
      processing_q := rest, done := s.done ++ [(ac.id, s.in_shutdown)], loopbreak := s.loopbreak || ac.stop } where
  order := by
    have := h.order
    simpa [handled, hq] using this
  armed := h.armed
  told e he htrue := by
    obtain he | he := List.mem_append.mp he
    · exact h.told e he htrue
    · rw [List.mem_singleton.mp he] at htrue
      exact htrue
  flags := by
    rw [List.map_append, List.pairwise_append]
    refine ⟨h.flags, List.pairwise_singleton _ _, fun a ha b hb htrue => ?_⟩
    obtain ⟨e, he, rfl⟩ := List.mem_map.mp ha
    rw [List.mem_singleton.mp hb]
    exact h.told e he htrue
  idle hret := absurd (hq.symm.trans (h.idle hret)) (List.cons_ne_nil ac rest)

/-- The step lemma. -/
theorem Sound.step {s t : EvaBase} {a : EvaAct} (h : s.Sound) (hstep : s.step a = some t) : t.Sound := by
  cases a with
  | post stop =>
    cases hstep
    exact h.post stop
  | eventAdd id =>
    simp only [EvaBase.step] at hstep
    split at hstep
    · cases hstep
      exact ⟨h.order, fun _ _ _ => rfl, h.told, h.flags, h.idle⟩
    · cases hstep
  | signal =>
    cases hstep
    exact ⟨h.order, h.armed, fun _ _ _ => rfl, h.flags, h.idle⟩
  | handover =>
    simp only [EvaBase.step] at hstep
    split at hstep
    · rename_i hgo
      cases hstep
      exact h.swap hgo.2.2.2 (by simp [hgo.1])
    · cases hstep
  | act =>
    simp only [EvaBase.step] at hstep
    split at hstep
    · cases hstep
    · rename_i ac rest hq
      cases hstep
      exact h.act hq
  | breakLoop =>
    simp only [EvaBase.step] at hstep
    split at hstep
    · cases hstep
      exact ⟨h.order, h.armed, fun _ _ _ => rfl, h.flags, nofun⟩
    · cases hstep
  | round =>
    simp only [EvaBase.step] at hstep
    split at hstep
    · rename_i second left hphase
      split at hstep
      · rename_i hidle
        cases hstep
        have hswap : (if s.handover_wakeup then s.swap else s).Sound := by
          split
          · exact h.swap hidle (by simp [hphase])
          · exact h
        exact ⟨hswap.order, hswap.armed, hswap.told, hswap.flags, nofun⟩
      · cases hstep
    · cases hstep
  | leave =>
    simp only [EvaBase.step] at hstep
    split at hstep
    · split at hstep
      · rename_i hgo
        cases hstep
        exact ⟨h.order, h.armed, h.told, h.flags, fun _ => hgo.2⟩
      · cases hstep
    · cases hstep

theorem runs_sound {acts : List EvaAct} {s : EvaBase} (h : run {} acts = some s) : s.Sound :=
  runs_induct (motive := fun _ s => s.Sound) .start (fun _ _ _ _ _ hm hstep => hm.step hstep) h

/-- Behind the loop, what was posted before is run. Up to the first round it may wait behind the event. -/
structure Closing (old : List Nat) (s : EvaBase) : Prop where
  behind : s.phase ≠ .looping
  each : ∀ id ∈ old, id ∈ s.handled ∨ id ∈ s.processing_q.map (·.id) ∨
    (id ∈ s.incoming_q.map (·.id) ∧ s.handover_wakeup = true ∧ s.phase = .pushing false pushRounds)

theorem Closing.step {old : List Nat} {s t : EvaBase} {a : EvaAct} (h : s.Closing old)
    (hstep : s.step a = some t) : t.Closing old := by
  cases a with
  | post stop =>
    cases hstep
    refine ⟨h.behind, fun id hid => ?_⟩
    obtain hd | hp | ⟨hi, harmed⟩ := h.each id hid
    · exact .inl hd
    · exact .inr (.inl hp)
    · refine .inr (.inr ⟨?_, harmed⟩)
      rw [List.map_append]
      exact List.mem_append_left _ hi
  | eventAdd id =>
    simp only [EvaBase.step] at hstep
    split at hstep
    · cases hstep
      refine ⟨h.behind, fun id hid => ?_⟩
      obtain hd | hp | ⟨hi, -, hphase⟩ := h.each id hid
      · exact .inl hd
      · exact .inr (.inl hp)
      · exact .inr (.inr ⟨hi, rfl, hphase⟩)
    · cases hstep
  | signal =>
    cases hstep
    exact ⟨h.behind, h.each⟩
  | handover =>
    simp only [EvaBase.step] at hstep
    split at hstep
    · rename_i hgo
      exact absurd hgo.1 h.behind
    · cases hstep
  | act =>
    simp only [EvaBase.step] at hstep
    split at hstep
    · cases hstep
    · rename_i ac rest hq
      cases hstep
      refine ⟨h.behind, fun id hid => ?_⟩
      obtain hd | hp | hi := h.each id hid
      · refine .inl ?_
        rw [handled, List.map_append]
        exact List.mem_append_left _ hd
      · rw [hq, List.map_cons] at hp
        obtain rfl | hp := List.mem_cons.mp hp
        · exact .inl (by simp [handled])
        · exact .inr (.inl hp)
      · exact .inr (.inr hi)
  | breakLoop =>
    simp only [EvaBase.step] at hstep
    split at hstep
    · rename_i hgo
      exact absurd hgo.1 h.behind
    · cases hstep
  | round =>
    simp only [EvaBase.step] at hstep
    split at hstep
    · rename_i second left hphase
      split at hstep
      · rename_i hidle
        cases hstep
        refine ⟨by simp, fun id hid => ?_⟩
        obtain hd | hp | ⟨hi, harmed, -⟩ := h.each id hid
        · refine .inl ?_
          split
          · exact hd
          · exact hd
        · rw [hidle] at hp
          cases hp
        · rw [if_pos harmed]
          exact .inr (.inl hi)
      · cases hstep
    · cases hstep
  | leave =>
    simp only [EvaBase.step] at hstep
    split at hstep
    · rename_i second left hphase
      split at hstep
      · rename_i hgo
        cases hstep
        refine ⟨by cases second <;> simp, fun id hid => ?_⟩
        obtain hd | hp | ⟨-, -, hfirst⟩ := h.each id hid
        · exact .inl hd
        · exact .inr (.inl hp)
        · rw [hphase] at hfirst
          cases hfirst
          exact absurd hgo.1 (Nat.lt_irrefl _)
      · cases hstep
    · cases hstep

/-- Nothing runs any more when the loop is left. -/
theorem returned_step {s t : EvaBase} {a : EvaAct} (hphase : s.phase = .returned) (hidle : s.processing_q = [])
    (hstep : s.step a = some t) : t.phase = .returned ∧ t.processing_q = [] ∧ t.done = s.done := by
  cases a with
  | post stop =>
    cases hstep
    exact ⟨hphase, hidle, rfl⟩
  | eventAdd id =>
    simp only [EvaBase.step] at hstep
    split at hstep
    · cases hstep
      exact ⟨hphase, hidle, rfl⟩
    · cases hstep
  | signal =>
    cases hstep
    exact ⟨hphase, hidle, rfl⟩
  | handover => simp [EvaBase.step, hphase] at hstep
  | act => simp [EvaBase.step, hidle] at hstep
  | breakLoop => simp [EvaBase.step, hphase] at hstep
  | round => simp [EvaBase.step, hphase] at hstep
  | leave => simp [EvaBase.step, hphase] at hstep

/-- What waits when the loop is left has its event, or will get it. -/
theorem Sound.closing {s t : EvaBase} (h : s.Sound) (hstep : s.step .breakLoop = some t) :
    t.Closing ((List.range s.posted).filter (fun id => !s.posting.contains id)) := by
  simp only [EvaBase.step] at hstep
  split at hstep
  · cases hstep
    refine ⟨by simp, fun id hid => ?_⟩
    obtain ⟨hid, hno⟩ := List.mem_filter.mp hid
    rw [← h.order, List.mem_append, List.mem_append] at hid
    obtain (hd | hp) | hi := hid
    · exact .inl hd
    · exact .inr (.inl hp)
    · obtain ⟨ac, hac, rfl⟩ := List.mem_map.mp hi
      exact .inr (.inr ⟨hi, h.armed ac hac (by simpa using hno), rfl⟩)
  · cases hstep

/-- In every interleaving of threads that post actions with the loop that runs them: each action is run once, in the
order in which they were put into the queue, no wakeup is lost, and from the shutdown on they are told to cancel.
What was posted before the loop was left is run before it returns, and nothing is run behind that. -/
theorem actions_handled {acts : List EvaAct} {s : EvaBase} (h : run {} acts = some s) :
    s.done.map Prod.fst ++ s.processing_q.map (·.id) ++ s.incoming_q.map (·.id) = List.range s.posted ∧
      (∀ ac ∈ s.incoming_q, ac.id ∉ s.posting → s.handover_wakeup = true) ∧
      (s.done.map Prod.snd).Pairwise (fun a b => a = true → b = true) ∧
      (s.phase = .returned →
        (∀ pre post m, acts = pre ++ .breakLoop :: post → run {} pre = some m →
          ∀ id < m.posted, id ∉ m.posting → id ∈ s.done.map Prod.fst) ∧
        ∀ more t, run s more = some t → t.done = s.done) := by
  have hs := runs_sound h
  refine ⟨hs.order, hs.armed, hs.flags, fun hret => ⟨fun pre post m hacts hm id hid hno => ?_, fun more t hmore => ?_⟩⟩
  · obtain ⟨m', hm', hrest⟩ := runs_split.mp (hacts ▸ h)
    obtain rfl := Option.some.inj (hm.symm.trans hm')
    obtain ⟨b, hb, hpost⟩ := runs_cons.mp hrest
    have hclosing : s.Closing ((List.range m.posted).filter (fun id => !m.posting.contains id)) :=
      runs_induct (motive := fun _ s => Closing _ s) ((runs_sound hm).closing hb)
        (fun _ _ _ _ _ hm hstep => Closing.step hm hstep) hpost
    have hold : id ∈ (List.range m.posted).filter (fun id => !m.posting.contains id) :=
      List.mem_filter.mpr ⟨List.mem_range.mpr hid, by simpa using hno⟩
    obtain hd | hp | ⟨-, -, hphase⟩ := hclosing.each id hold
    · exact hd
    · rw [hs.idle hret] at hp
      cases hp
    · rw [hret] at hphase
      cases hphase
  · have hend : t.phase = .returned ∧ t.processing_q = [] ∧ t.done = s.done := by
      refine runs_induct (motive := fun _ t => t.phase = .returned ∧ t.processing_q = [] ∧ t.done = s.done)
        ⟨hret, hs.idle hret, rfl⟩ ?_ hmore
      rintro - a m t - ⟨hphase, hidle, hdone⟩ hstep
      obtain ⟨hphase', hidle', hdone'⟩ := returned_step hphase hidle hstep
      exact ⟨hphase', hidle', hdone'.trans hdone⟩
    exact hend.2.2

/-- One thread has posted when the program is stopped, and another one is late: its action is never run. -/
def latePost : List EvaAct :=
  [.post false, .signal, .post true, .eventAdd 1, .handover, .act, .eventAdd 0, .act, .post false, .breakLoop,
    .eventAdd 2, .round, .act, .leave, .round, .leave, .post false, .eventAdd 3]

theorem latePost_handled : ∃ s, run {} latePost = some s ∧ s.done = [(0, true), (1, true), (2, true)] ∧
    s.incoming_q = [⟨3, false⟩] ∧ ∀ more t, run s more = some t → t.done = [(0, true), (1, true), (2, true)] := by
  refine ⟨_, rfl, rfl, rfl, fun more t hmore => ?_⟩
  exact ((@actions_handled latePost _ rfl).2.2.2 rfl).2 more t hmore

end Acng.EvaBase
