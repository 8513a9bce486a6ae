import Acng.Lib.Numeral
import Acng.Lib.Runs

namespace Acng
open Lib

/-- Where a call of `AddJob` stands. Its number is also the one of its job. -/
inductive CallPos
  /-- Entered. Of a repository source it is known whether it has backends and a path. -/
  | called (viable : Bool)
  | checked
  /-- The job is in `m_new_jobs`, the counter does not know yet. -/
  | pushed
  | accepted
  | refused
deriving DecidableEq, Repr

/-- The places of `WorkLoop` between two accesses to what it shares with the callers. -/
inductive WorkPos
  | entering | loopTop | mark
  | compare (newCtrlMark : Int)
  /-- `lastCtrlMark` is stored, the mutex is still to be taken. -/
  | splice
  | working | exchanged | deciding | returned
deriving DecidableEq, Repr

/-- A `CDlConn` with its callers and its worker. Jobs that left all queues are collected, and
so is the outcome of the last check of the worker: both are not part of the program. -/
structure Handover where
  ctrlHint : Int := 0
  inShutdown : Bool := false
  wakeFd : Bool := true
  newJobs : List Nat := []
  calls : List CallPos := []
  worker : WorkPos := .entering
  lastCtrlMark : Int := -2
  nextJobs : List Nat := []
  activeJobs : List Nat := []
  finished : List Nat := []
  sawStop : Bool := false
deriving DecidableEq, Repr

namespace Handover

/-- The constructor. Without a descriptor to wake the worker it stops at once. -/
def new (wakeFd : Bool) : Handover :=
  { wakeFd := wakeFd, ctrlHint := if wakeFd then 0 else -1 }

/-- The test that callers and worker make. `in_shutdown` is never taken back, so both
values may as well be read at one time. -/
def stopRequested (s : Handover) : Bool := decide (s.ctrlHint < 0) || s.inShutdown

/-- `WorkLoop` is left, and `allJobReleaser` clears its queues. -/
def leave (s : Handover) : Handover :=
  { s with
    worker := .returned, nextJobs := [], activeJobs := []
    finished := s.finished ++ (s.nextJobs ++ s.activeJobs) }

inductive Action
  | call (viable : Bool)
  | check (i : Nat)
  | push (i : Nat)
  | increment (i : Nat)
  /-- `SignalStop`. -/
  | stop
  | shutdown
  | enter (memory : Bool)
  | loopTop | readMark | compareMark | splice
  /-- The worker does something about its jobs. -/
  | work (nextJobs activeJobs gone : List Nat)
  /-- The check behind `select`. -/
  | select
  | exchange | afterExchange | again
deriving DecidableEq, Repr

/-- The reads of `m_ctrl_hint` that look for a stop request in the worker. -/
def Action.isWorkerCheck : Action → Bool
  | .loopTop | .select | .afterExchange => true
  | _ => false

def Action.isCall : Action → Bool
  | .call _ => true
  | _ => false

def step (s : Handover) : Action → Option Handover
  | .call viable => some { s with calls := s.calls ++ [.called viable] }
  | .check i =>
    match s.calls[i]? with
    | some (.called viable) =>
      let pos := if s.stopRequested || !viable then .refused else .checked
      some { s with calls := s.calls.set i pos }
    | _ => none
  | .push i =>
    if s.calls[i]? = some .checked then
      some { s with newJobs := s.newJobs ++ [i], calls := s.calls.set i .pushed }
    else none
  | .increment i =>
    if s.calls[i]? = some .pushed then
      some { s with ctrlHint := toInt32 (s.ctrlHint + 1), calls := s.calls.set i .accepted }
    else none
  | .stop => some { s with ctrlHint := -1 }
  | .shutdown => some { s with inShutdown := true }
  | .enter memory =>
    if s.worker = .entering then
      some { s with worker := if memory && s.wakeFd then .loopTop else .returned }
    else none
  | .loopTop =>
    if s.worker = .loopTop then
      let s := { s with sawStop := s.stopRequested }
      if s.stopRequested && s.activeJobs.isEmpty then some s.leave
      else some { s with worker := .mark }
    else none
  | .readMark => if s.worker = .mark then some { s with worker := .compare s.ctrlHint } else none
  | .compareMark =>
    match s.worker with
    | .compare newCtrlMark =>
      if newCtrlMark ≠ s.lastCtrlMark then
        some { s with lastCtrlMark := newCtrlMark, worker := .splice }
      else some { s with worker := .working }
    | _ => none
  | .splice =>
    if s.worker = .splice then
      some { s with newJobs := [], nextJobs := s.newJobs ++ s.nextJobs, worker := .working }
    else none
  | .work nextJobs activeJobs gone =>
    if (s.worker = .working ∨ s.worker = .deciding) ∧
        (nextJobs ++ activeJobs ++ gone).Perm (s.nextJobs ++ s.activeJobs) then
      some { s with
        nextJobs := nextJobs, activeJobs := activeJobs, finished := s.finished ++ gone }
    else none
  | .select =>
    if s.worker = .working then
      let stop := decide (s.ctrlHint < 0)
      some { s with sawStop := stop, worker := if stop then .exchanged else .working }
    else none
  | .exchange => if s.worker = .working then some { s with worker := .exchanged } else none
  | .afterExchange =>
    if s.worker = .exchanged then
      let s := { s with sawStop := s.stopRequested }
      if s.stopRequested then some s.leave else some { s with worker := .deciding }
    else none
  | .again =>
    -- `continue` is also found before the exchange
    if s.worker = .working ∨ s.worker = .deciding then some { s with worker := .loopTop } else none

/-- Any interleaving of the calls, the stop requests and the worker. -/
def run (s : Handover) (acts : List Action) : Option Handover := runs step s acts

/-- The actions `post` came after a stop request, which left `s1`. -/
structure StopHeld (s1 : Handover) (post : List Action) (s : Handover) : Prop where
  negative : s.ctrlHint < 0
  observed : ∀ q a, post = q ++ [a] → a.isWorkerCheck = true → s.sawStop = true
  refused : ∀ i pos, s1.calls.length ≤ i → s.calls[i]? = some pos →
    pos = .refused ∨ ∃ viable, pos = .called viable

/-- Every stop request in the run holds from then on. -/
def StopSticky (s : Handover) (acts : List Action) : Prop :=
  ∀ pre post rest s1 t, acts = pre ++ .stop :: (post ++ rest) →
    s.run (pre ++ [.stop]) = some s1 → s1.run post = some t → StopHeld s1 post t

/-- No stop request comes between the check of a call and its increment. -/
def UndividedCalls (acts : List Action) : Prop :=
  ∀ i pre mid rest, acts = pre ++ .check i :: (mid ++ .increment i :: rest) → .stop ∉ mid

/-- The job of the call is in the queue of new jobs, or it was once. -/
def handedOver (s : Handover) (j : Nat) : Bool :=
  s.calls[j]? == some .pushed || s.calls[j]? == some .accepted

/-- All jobs. -/
def jobs (s : Handover) : List Nat := s.newJobs ++ (s.nextJobs ++ s.activeJobs) ++ s.finished

end Handover

end Acng
