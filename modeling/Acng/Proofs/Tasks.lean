import Mathlib.Algebra.Ring.Nat
import Mathlib.Data.List.Perm.Basic
import Acng.Proofs.ThreadPool

namespace Acng.ThreadPool
open Lib

/-- The pool with what the mutex does not show: which of its threads sleep on
the condition, the tasks it has accepted and those that have been run. -/
structure Watched (Task : Type) where
  pool : ThreadPool Task
  waiting : Nat := 0
  accepted : List Task := []
  finished : List Task := []
deriving DecidableEq, Repr

/-- The critical sections of a pool that is not stopped and gets the threads
and the memory it asks for. -/
inductive Section (Task : Type)
  | schedule (action : Task)
  | head
  | spurious
  | complete (i : Nat)
deriving DecidableEq, Repr

namespace Watched

variable {Task : Type}

/-- A task that is accepted wakes up every thread. One that finds no work goes
to sleep, and one that leaves wakes up the others. -/
def step (s : Watched Task) : Section Task → Option (Watched Task)
  | .schedule action =>
    let r := s.pool.schedule { action }
    some (if r.2 then { s with pool := r.1, waiting := 0, accepted := action :: s.accepted }
      else { s with pool := r.1 })
  | .head =>
    if s.waiting < s.pool.idle then
      some { s with
        pool := s.pool.loopHead
        waiting := if s.pool.freshWork.isEmpty then s.waiting + 1 else s.waiting }
    else none
  | .spurious =>
    if 0 < s.waiting ∧ s.waiting ≤ s.pool.idle then
      some { s with
        pool := s.pool.loopHead
        waiting := if s.pool.freshWork.isEmpty then s.waiting else s.waiting - 1 }
    else none
  | .complete i =>
    s.pool.busy[i]?.map fun c =>
      { s with
        pool := s.pool.complete i, finished := c :: s.finished
        waiting :=
          if s.pool.maxSpare ≤ s.pool.curSpare then 0
          else if s.pool.freshWork.isEmpty then s.waiting + 1 else s.waiting }

def start (maxCount maxSpare : UInt32) : Watched Task := { pool := create maxCount maxSpare }

end Watched

variable {Task : Type}

/-- The same critical section of the pool alone. -/
def Section.action : Section Task → Action Task
  | .schedule action => .schedule { action }
  | .head | .spurious => .wake
  | .complete i => .complete i

theorem Watched.step_pool {s t : Watched Task} {a : Section Task} (h : s.step a = some t) :
    s.pool.step a.action = some t.pool := by
  cases a with
  | schedule action =>
    obtain rfl := Option.some.inj h
    simp only [Section.action, ThreadPool.step]
    split <;> rfl
  | head =>
    obtain ⟨hw, ht⟩ := Option.ite_none_right_eq_some.mp h
    obtain rfl := Option.some.inj ht
    exact if_pos (Nat.zero_lt_of_lt hw)
  | spurious =>
    obtain ⟨hw, ht⟩ := Option.ite_none_right_eq_some.mp h
    obtain rfl := Option.some.inj ht
    exact if_pos (Nat.lt_of_lt_of_le hw.1 hw.2)
  | complete i =>
    obtain ⟨c, hc, rfl⟩ := Option.map_eq_some_iff.mp h
    exact if_pos (List.getElem?_eq_some_iff.mp hc).1

/-- Every accepted task is queued, running or finished exactly once, and for
each queued one there is a thread that does not sleep. -/
structure Served (s : Watched Task) : Prop where
  running : s.pool.shutdown = false
  counted : Counted s.pool
  conserved : s.accepted.Perm (s.pool.freshWork ++ s.pool.busy ++ s.finished)
  awake : s.waiting + s.pool.freshWork.length ≤ s.pool.idle

/-- A thread at the head of the loop takes the first task or finds none. -/
theorem loopHead_cases {p : ThreadPool Task} (h : p.shutdown = false) :
    (p.freshWork = [] ∧ p.loopHead = p) ∨
      ∃ c work, p.freshWork = c :: work ∧ p.loopHead = { p with
        freshWork := work, idle := p.idle - 1, busy := c :: p.busy
        curSpare := p.curSpare - 1, curActive := p.curActive + 1 } := by
  unfold loopHead
  rw [h, if_neg Bool.false_ne_true]
  cases hwork : p.freshWork with
  | nil => exact .inl ⟨rfl, rfl⟩
  | cons c work => exact .inr ⟨c, work, rfl, rfl⟩

/-- What the loop head does to the tasks and to the threads that do not sleep. -/
theorem loopHead_served {p : ThreadPool Task} (others : Nat) (h : p.shutdown = false)
    (hawake : others + p.freshWork.length ≤ p.idle) (hidle : others < p.idle) :
    p.loopHead.shutdown = false ∧
      (p.loopHead.freshWork ++ p.loopHead.busy).Perm (p.freshWork ++ p.busy) ∧
      (if p.freshWork.isEmpty then others + 1 else others) + p.loopHead.freshWork.length ≤
        p.loopHead.idle := by
  rcases loopHead_cases h with ⟨hnil, hhead⟩ | ⟨c, work, hcons, hhead⟩
  · rw [hhead, hnil]
    exact ⟨h, .refl _, hidle⟩
  · rw [hhead, hcons]
    refine ⟨h, List.perm_middle, ?_⟩
    rw [hcons, List.length_cons] at hawake
    simp only [List.isEmpty_cons, Bool.false_eq_true, if_false]
    omega

theorem schedule_cases (p : ThreadPool Task) (action : Task) :
    p.schedule { action } = (p, false) ∨
      (p.needsThread = true ∧ p.schedule { action } =
        ({ p.startThread with freshWork := p.freshWork ++ [action] }, true)) ∨
      (p.needsThread = false ∧ p.schedule { action } =
        ({ p with freshWork := p.freshWork ++ [action] }, true)) := by
  unfold schedule
  split
  · exact .inl rfl
  · cases hneeds : p.needsThread with
    | true => exact .inr (.inl ⟨rfl, rfl⟩)
    | false => exact .inr (.inr ⟨rfl, rfl⟩)

/-- The counter does not exceed the number that it counts, even where it wraps. -/
theorem Counted.spare_le {p : ThreadPool Task} (h : Counted p) : p.curSpare.toNat ≤ p.idle := by
  rw [h.spare, UInt32.toNat_ofNat']
  exact Nat.mod_le _ _

theorem schedule_served {s t : Watched Task} {action : Task} (hs : Served s)
    (h : s.step (.schedule action) = some t) : Served t := by
  have hcounted := (step_moved (Watched.step_pool h)).counted hs.counted
  obtain rfl := Option.some.inj h
  have hperm : (action :: s.accepted).Perm
      (s.pool.freshWork ++ [action] ++ s.pool.busy ++ s.finished) := by
    rw [List.append_assoc s.pool.freshWork, List.singleton_append]
    exact (hs.conserved.cons action).trans ((List.perm_middle.symm.append_right _))
  have hawake := hs.awake
  rcases schedule_cases s.pool action with hr | ⟨_, hr⟩ | ⟨hneeds, hr⟩
  · rw [hr] at hcounted ⊢
    exact ⟨hs.running, hcounted, hs.conserved, hs.awake⟩
  · rw [hr] at hcounted ⊢
    refine ⟨hs.running, hcounted, hperm, ?_⟩
    simp only [if_true, startThread, List.length_append, List.length_singleton]
    omega
  · rw [hr] at hcounted ⊢
    refine ⟨hs.running, hcounted, hperm, ?_⟩
    have hspare := hs.counted.spare_le
    simp only [needsThread, decide_eq_false_iff_not] at hneeds
    simp only [if_true, List.length_append, List.length_singleton]
    omega

theorem complete_served {s t : Watched Task} {i : Nat} (hs : Served s)
    (h : s.step (.complete i) = some t) : Served t := by
  have hcounted := (step_moved (Watched.step_pool h)).counted hs.counted
  obtain ⟨c, hc, rfl⟩ := Option.map_eq_some_iff.mp h
  obtain ⟨hi, rfl⟩ := List.getElem?_eq_some_iff.mp hc
  have hperm : s.accepted.Perm
      (s.pool.freshWork ++ s.pool.busy.eraseIdx i ++ s.pool.busy[i] :: s.finished) := by
    refine hs.conserved.trans ?_
    rw [List.append_assoc, List.append_assoc]
    refine .append_left _ ?_
    exact ((List.getElem_cons_eraseIdx_perm hi).symm.append_right _).trans List.perm_middle.symm
  have hawake := hs.awake
  have hcomplete : s.pool.complete i =
      if s.pool.maxSpare ≤ s.pool.curSpare then
        { s.pool with busy := s.pool.busy.eraseIdx i, curActive := s.pool.curActive - 1 }
      else loopHead (startThread { s.pool with
        busy := s.pool.busy.eraseIdx i, curActive := s.pool.curActive - 1 }) := by
    simp [complete, hs.running]
  simp only [hcomplete] at hcounted ⊢
  by_cases hfull : s.pool.maxSpare ≤ s.pool.curSpare
  · simp only [if_pos hfull] at hcounted ⊢
    refine ⟨hs.running, hcounted, hperm, ?_⟩
    simp only
    omega
  · simp only [if_neg hfull] at hcounted ⊢
    obtain ⟨hrun, hmoved, hawake'⟩ := loopHead_served (p := startThread { s.pool with
      busy := s.pool.busy.eraseIdx i, curActive := s.pool.curActive - 1 }) s.waiting hs.running
      (Nat.le_succ_of_le hawake)
      (Nat.lt_succ_of_le (Nat.le_trans (Nat.le_add_right _ _) hawake))
    exact ⟨hrun, hcounted, hperm.trans (hmoved.symm.append_right _), hawake'⟩

theorem step_served {s t : Watched Task} {a : Section Task} (hs : Served s)
    (h : s.step a = some t) : Served t := by
  cases a with
  | schedule action => exact schedule_served hs h
  | head =>
    have hcounted := (step_moved (Watched.step_pool h)).counted hs.counted
    obtain ⟨hw, ht⟩ := Option.ite_none_right_eq_some.mp h
    obtain rfl := Option.some.inj ht
    obtain ⟨hrun, hmoved, hawake⟩ := loopHead_served s.waiting hs.running hs.awake hw
    exact ⟨hrun, hcounted, hs.conserved.trans (hmoved.symm.append_right _), hawake⟩
  | spurious =>
    have hcounted := (step_moved (Watched.step_pool h)).counted hs.counted
    obtain ⟨hw, ht⟩ := Option.ite_none_right_eq_some.mp h
    obtain rfl := Option.some.inj ht
    have hbefore := hs.awake
    obtain ⟨hrun, hmoved, hawake⟩ := loopHead_served (s.waiting - 1) hs.running (by omega)
      (by omega)
    rw [Nat.sub_add_cancel hw.1] at hawake
    exact ⟨hrun, hcounted, hs.conserved.trans (hmoved.symm.append_right _), hawake⟩
  | complete i => exact complete_served hs h

theorem runs_served {maxCount maxSpare : UInt32} {as : List (Section Task)} {s : Watched Task}
    (h : runs Watched.step (.start maxCount maxSpare) as = some s) : Served s := by
  refine runs_induct (motive := fun _ s => Served s) ?_ (fun _ _ _ _ _ ih ha => step_served ih ha) h
  exact ⟨rfl, ⟨rfl, rfl⟩, .refl _, Nat.le_refl _⟩

/-- In every interleaving no accepted task is lost or run twice, the counter
of spare threads is their number, and there are as many of them that do not
sleep as tasks in the queue. -/
theorem tasks_conserved {maxCount maxSpare : UInt32} {as : List (Section Task)} {s : Watched Task}
    (h : runs Watched.step (.start maxCount maxSpare) as = some s) :
    s.accepted.Perm (s.pool.freshWork ++ s.pool.busy ++ s.finished) ∧
      s.pool.curSpare = UInt32.ofNat s.pool.idle ∧
      s.pool.freshWork.length ≤ s.pool.idle - s.waiting ∧
      (s.pool.idle < 2 ^ 32 →
        s.pool.curSpare.toNat = s.pool.idle ∧ s.pool.freshWork.length ≤ s.pool.curSpare.toNat) := by
  have hs := runs_served h
  have hawake := hs.awake
  refine ⟨hs.conserved, hs.counted.spare, by omega, fun hidle => ?_⟩
  have hspare : s.pool.curSpare.toNat = s.pool.idle := by
    rw [hs.counted.spare, UInt32.toNat_ofNat_of_lt' hidle]
  exact ⟨hspare, by omega⟩

theorem two_tasks_conserved :
    let s : Watched Nat :=
      { pool := { maxCount := 4, maxSpare := 1, curSpare := 1, idle := 1, curActive := 1, busy := [8] }
        waiting := 1, accepted := [8, 7], finished := [7] }
    s.accepted.Perm (s.pool.freshWork ++ s.pool.busy ++ s.finished) ∧
      s.pool.curSpare = UInt32.ofNat s.pool.idle ∧
      s.pool.freshWork.length ≤ s.pool.idle - s.waiting ∧
      (s.pool.idle < 2 ^ 32 →
        s.pool.curSpare.toNat = s.pool.idle ∧ s.pool.freshWork.length ≤ s.pool.curSpare.toNat) :=
  @tasks_conserved Nat 4 1 [.schedule 7, .schedule 8, .head, .head, .complete 1, .spurious] _ rfl

end Acng.ThreadPool
