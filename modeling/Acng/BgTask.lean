import Acng.Lib.Find
import Acng.Lib.Numeral
import Acng.Lib.Runs
import Mathlib.Logic.Function.Basic

namespace Acng
open Lib

def LOG_DECO_START : Bytes :=
  lit "<html><head><style type=\"text/css\">.WARNING \x7b color: orange; \x7d\n" ++
    lit ".ERROR \x7b color: red; \x7d\n</style></head><body>"

def LOG_DECO_END : Bytes := lit "</body></html>"

/-- `tRunParms::GetBaseUrl` -/
def getBaseUrl (cmd : Bytes) : Bytes := cmd.takeWhile (· != 63)

/-- What `Run` looks for in front of everything else. -/
def isAbortRequest (cmd : Bytes) : Bool := (find (lit "&sigabort") cmd).isSome

/-- The answer to an abort request, if it gets one. -/
def abortAnswer (cmd : Bytes) : Option Bytes :=
  if 63 ∈ cmd then
    some (lit "HTTP/1.1 302 Redirect\r\nLocation: " ++ getBaseUrl cmd ++ lit "\r\nConnection: close\r\n\r\n")
  else none

/-- The link to cancel the task, as the page of the task itself has it. -/
def ownCancelLink (cmd : Bytes) (rand : Nat) : Bytes :=
  getBaseUrl cmd ++ lit "?sigabort=" ++ decDigits rand

/-- The same link on a page that shows the log of another task. -/
def otherCancelLink (cmd : Bytes) (rand : Nat) : Bytes := cmd ++ lit "&sigabort=" ++ decDigits rand

/-- Where a request is in `tSpecOpDetachable::Run`. In the inner loop of the one that reads the log of
another task, `reading` holds `g_StateCv` and `waiting` has given it back. -/
inductive TaskStage
  | asked
  | registered (id : Int)
  | working (id : Int)
  | finished (id : Int)
  | attaching (other_id : Int)
  | reading (other_id : Int)
  | waiting (other_id : Int)
  | ended
deriving DecidableEq, Repr

/-- A request for a task, with the part of the other task's log that its client was shown, and whether it
was told that this is the end. The text around that is left out. -/
structure TaskRequest where
  cmd : Bytes := []
  stage : TaskStage := .asked
  other_id : Option Int := none
  shown : Bytes := []
  toldEnd : Bool := false
deriving DecidableEq, Repr

/-- The requests, what they share, and the log files by their ids. The clock shows seconds. The tasks that
were started are not kept by the program. -/
structure BgTasks where
  nBgTimestamp : Int := 0
  g_sigTaskAbort : Bool := false
  in_shutdown : Bool := false
  lock : Option Nat := none
  now : Int
  logs : Int → Bytes := fun _ => []
  reqs : Nat → TaskRequest
  started : List Int := []

inductive TaskAct
  | tick (now : Int)
  | shutdown
  /-- A request that wants the task to stop -/
  | sigabort (i : Nat)
  /-- The place where only one can register -/
  | register (i : Nat) (opened : Bool)
  /-- The worker part, up to `Action` -/
  | begin (i : Nat)
  /-- `SendChunkLocalOnly` -/
  | report (i : Nat) (data : Bytes)
  /-- The end of the worker part, however it is left -/
  | finish (i : Nat)
  | destruct (i : Nat)
  /-- The head of the outer loop -/
  | attach (i : Nat) (opened : Bool)
  /-- `sysread`, with the bytes that it gets -/
  | read (i : Nat) (n : Option Nat)
  /-- `wait_for` returns: notified, on time, or for no reason. -/
  | wake (i : Nat)

namespace BgTasks

def start (now : Int) (cmds : Nat → Bytes) : BgTasks where
  now := now
  reqs := fun i => { cmd := cmds i }

def checkStopSignal (s : BgTasks) : Bool := s.g_sigTaskAbort || s.in_shutdown

def set (s : BgTasks) (i : Nat) (r : TaskRequest) : BgTasks :=
  { s with reqs := Function.update s.reqs i r }

def setStage (s : BgTasks) (i : Nat) (stage : TaskStage) : BgTasks :=
  s.set i { s.reqs i with stage := stage }

def append (s : BgTasks) (id : Int) (data : Bytes) : BgTasks :=
  { s with logs := Function.update s.logs id (s.logs id ++ data) }

/-- Nobody has `g_StateCv`. -/
def free (s : BgTasks) : Bool := s.lock.isNone

def step (s : BgTasks) : TaskAct → Option BgTasks
  | .tick now => if now < s.now then none else some { s with now := now }
  | .shutdown => some { s with in_shutdown := true }
  | .sigabort i =>
    if (s.reqs i).stage = .asked && isAbortRequest (s.reqs i).cmd && s.free then
      some { s.setStage i .ended with g_sigTaskAbort := true }
    else none
  | .register i opened =>
    if (s.reqs i).stage = .asked && !isAbortRequest (s.reqs i).cmd && s.free then
      if s.nBgTimestamp = 0 then
        if opened then
          some { s.setStage i (.registered s.now) with
            nBgTimestamp := s.now, started := s.now :: s.started
            logs := Function.update s.logs s.now LOG_DECO_START }
        else some (s.setStage i .ended)
      else
        some (s.set i { s.reqs i with stage := .attaching s.nBgTimestamp, other_id := some s.nBgTimestamp })
    else none
  | .begin i =>
    match (s.reqs i).stage with
    | .registered id => if s.free then some { s.setStage i (.working id) with g_sigTaskAbort := false } else none
    | _ => none
  | .report i data =>
    match (s.reqs i).stage with
    | .working id => some (s.append id data)
    | _ => none
  | .finish i =>
    match (s.reqs i).stage with
    | .working id => if s.free then some { s.setStage i (.finished id) with nBgTimestamp := 0 } else none
    | _ => none
  | .destruct i =>
    match (s.reqs i).stage with
    | .finished id => some ((s.setStage i .ended).append id LOG_DECO_END)
    | _ => none
  | .attach i opened =>
    match (s.reqs i).stage with
    | .attaching other_id =>
      if !s.free then none
      else if other_id ≠ s.nBgTimestamp then
        -- task is gone or replaced by another?
        some (s.set i { s.reqs i with stage := .ended, toldEnd := true })
      else if opened then some { s.setStage i (.reading other_id) with lock := some i }
      else some (s.setStage i .ended)
    | _ => none
  | .read i n =>
    match (s.reqs i).stage with
    | .reading other_id =>
      match n with
      | none => some { s.setStage i .ended with lock := none }
      | some n =>
        let rest := (s.logs other_id).drop (s.reqs i).shown.length
        if n = 0 then
          if rest.isEmpty then some { s.setStage i (.waiting other_id) with lock := none } else none
        else if rest.length < n ∨ 4096 < n then none
        else some (s.set i { s.reqs i with shown := (s.reqs i).shown ++ rest.take n })
    | _ => none
  | .wake i =>
    match (s.reqs i).stage with
    | .waiting other_id =>
      if !s.free then none
      else if s.nBgTimestamp = 0 then
        -- the head of the outer loop finds another id
        some (s.set i { s.reqs i with stage := .ended, toldEnd := true })
      else some { s.setStage i (.reading other_id) with lock := some i }
    | _ => none

def run (s : BgTasks) (acts : List TaskAct) : Option BgTasks := runs step s acts

end BgTasks

end Acng
