import Acng.Lib.Runs

namespace Acng
open Lib

/-- `tpoolImpl` with its threads. Those that stand at the head of the loop or wait there are told
apart by nothing, the others by what they run. -/
structure ThreadPool (Task : Type) where
  maxCount : UInt32
  maxSpare : UInt32
  curActive : UInt32 := 0
  curSpare : UInt32 := 0
  freshWork : List Task := []
  shutdown : Bool := false
  idle : Nat := 0
  busy : List Task := []
deriving DecidableEq, Repr

/-- A call of `schedule`, and what the system does if the call starts a thread or needs memory. -/
structure ScheduleCall (Task : Type) where
  action : Task
  threadStarts : Bool := true
  queueHolds : Bool := true
deriving DecidableEq, Repr

namespace ThreadPool

variable {Task : Type}

/-- `tpool::Create`. -/
def create (maxCount maxSpare : UInt32) : ThreadPool Task := { maxCount, maxSpare }

/-- The threads that exist. -/
def threads (p : ThreadPool Task) : Nat := p.idle + p.busy.length

/-- The first test of `schedule`. -/
def limitReached (p : ThreadPool Task) : Bool := p.maxCount ≤ p.curActive + p.curActive

/-- There is no spare thread left for one more task. -/
def needsThread (p : ThreadPool Task) : Bool := p.curSpare.toNat < p.freshWork.length + 1

def startThread (p : ThreadPool Task) : ThreadPool Task :=
  { p with idle := p.idle + 1, curSpare := p.curSpare + 1 }

/-- The end of `schedule`. A failed `emplace_back` leaves the queue as it is. -/
def enqueue (p : ThreadPool Task) (c : ScheduleCall Task) : ThreadPool Task × Bool :=
  if c.queueHolds then ({ p with freshWork := p.freshWork ++ [c.action] }, true) else (p, false)

def schedule (p : ThreadPool Task) (c : ScheduleCall Task) : ThreadPool Task × Bool :=
  if p.limitReached then (p, false)
  else if p.needsThread then
    if c.threadStarts then p.startThread.enqueue c else (p, false)
  else p.enqueue c

/-- One thread takes the lock at the head of the loop in `ThreadAction` and goes on until it gives
it back: it leaves, waits or has a task. -/
def loopHead (p : ThreadPool Task) : ThreadPool Task :=
  if p.shutdown then { p with idle := p.idle - 1, curSpare := p.curSpare - 1 }
  else
    match p.freshWork with
    | [] => p
    | c :: work =>
      { p with
        freshWork := work, idle := p.idle - 1, busy := c :: p.busy
        curSpare := p.curSpare - 1, curActive := p.curActive + 1 }

/-- The thread that ran the `i`th task has the lock again. If it is kept as a spare thread, then it
is back at the head of the loop in the same critical section. -/
def complete (p : ThreadPool Task) (i : Nat) : ThreadPool Task :=
  let p := { p with busy := p.busy.eraseIdx i, curActive := p.curActive - 1 }
  if p.maxSpare ≤ p.curSpare || p.shutdown then p
  else loopHead p.startThread

/-- `stop` up to its waiting, which changes nothing. -/
def stop (p : ThreadPool Task) : ThreadPool Task := { p with shutdown := true }

/-- What happens under the lock, in any order. -/
inductive Action (Task : Type)
  | schedule (c : ScheduleCall Task)
  | wake
  | complete (i : Nat)
  | stop
deriving DecidableEq, Repr

/-- Only a thread that is there can wake up or complete a task. -/
def step (p : ThreadPool Task) : Action Task → Option (ThreadPool Task)
  | .schedule c => some (p.schedule c).1
  | .wake => if 0 < p.idle then some p.loopHead else none
  | .complete i => if i < p.busy.length then some (p.complete i) else none
  | .stop => some p.stop

end ThreadPool

/-- Where `evabase::MainLoop` is: in its loop, in one of the two push loops with so many rounds left, or behind
them. -/
inductive LoopPhase
  | looping
  | pushing (second : Bool) (left : Nat)
  | returned
deriving DecidableEq, Repr

/-- The rounds of a push loop, at most. -/
def pushRounds : Nat := 11

/-- What was posted, by its number. One that stops the loop is from `SignalStop`. -/
structure PostedAction where
  id : Nat
  stop : Bool
deriving DecidableEq, Repr

/-- `evabase` with its handover queue. The calls of `Post` in `posting` have put their action into the queue and do
not have added the event yet. What has run is collected, with the flag it was called with. This, and the number of
actions that were posted, are not kept by the program. -/
structure EvaBase where
  incoming_q : List PostedAction := []
  processing_q : List PostedAction := []
  handover_wakeup : Bool := false
  in_shutdown : Bool := false
  phase : LoopPhase := .looping
  loopbreak : Bool := false
  posting : List Nat := []
  posted : Nat := 0
  done : List (Nat × Bool) := []
deriving DecidableEq, Repr

inductive EvaAct
  /-- The first half of `Post`, under the mutex, and the second one. -/
  | post (stop : Bool)
  | eventAdd (id : Nat)
  /-- The flag is set by `term_handler`. -/
  | signal
  | handover
  /-- The next action of `cb_handover`. -/
  | act
  | breakLoop
  | round
  | leave
deriving DecidableEq, Repr

namespace EvaBase

/-- The beginning of `cb_handover`. -/
def swap (s : EvaBase) : EvaBase :=
  { s with processing_q := s.incoming_q, incoming_q := s.processing_q, handover_wakeup := false }

def step (s : EvaBase) : EvaAct → Option EvaBase
  | .post stop => some { s with
      incoming_q := s.incoming_q ++ [⟨s.posted, stop⟩], posting := s.posting ++ [s.posted], posted := s.posted + 1 }
  | .eventAdd id =>
    if id ∈ s.posting then some { s with handover_wakeup := true, posting := s.posting.erase id } else none
  | .signal => some { s with in_shutdown := true }
  | .handover =>
    if s.phase = .looping ∧ s.loopbreak = false ∧ s.handover_wakeup = true ∧ s.processing_q = [] then some s.swap
    else none
  | .act =>
    match s.processing_q with
    | [] => none
    | ac :: rest => some { s with
        processing_q := rest, done := s.done ++ [(ac.id, s.in_shutdown)], loopbreak := s.loopbreak || ac.stop }
  | .breakLoop =>
    if s.phase = .looping ∧ s.loopbreak = true ∧ s.processing_q = [] then
      some { s with phase := .pushing false pushRounds, in_shutdown := true }
    else none
  | .round =>
    match s.phase with
    | .pushing second (left + 1) =>
      if s.processing_q = [] then
        some { (if s.handover_wakeup then s.swap else s) with phase := .pushing second left }
      else none
    | _ => none
  | .leave =>
    match s.phase with
    | .pushing second left =>
      -- one round is made at least
      if left < pushRounds ∧ s.processing_q = [] then
        some { s with phase := if second then .returned else .pushing true pushRounds }
      else none
    | _ => none

def run (s : EvaBase) (acts : List EvaAct) : Option EvaBase := runs step s acts

end EvaBase

end Acng
