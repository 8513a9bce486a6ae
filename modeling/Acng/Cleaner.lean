import Mathlib.Algebra.Ring.Int.Defs
import Mathlib.Logic.Function.Basic
import Acng.Lib.Runs

namespace Acng
open Lib

/-- `cleaner::eType`, without the number of its values. -/
inductive EType
  | exFileItem | acfgHooks | exConns
deriving DecidableEq, Repr

def EType.all : List EType := [.exFileItem, .acfgHooks, .exConns]

/-- `MAX_VAL(time_t)-2`. -/
def END_OF_TIME : Int := 2 ^ 63 - 3

abbrev Stamps := EType → Int

/-- Where the thread is in `WorkLoop`. A sleep has the clock at its beginning and its length, both
in milliseconds, and whether the condition has been notified. -/
inductive LoopStage
  | off
  | top
  | copying (now : Int)
  | scanning (now : Int) (snapshot : Stamps) (rest : List EType)
  | cleaning (now : Int) (snapshot : Stamps) (what : EType) (rest : List EType)
  | sleeping (start delay : Int) (notified : Bool)
  | ended

/-- The cleaner. The list of the deadlines that were asked for since the last cleanup of their type
began is not part of the program. -/
structure Cleaner where
  noop : Bool := false
  itemRegistry : Bool := true
  stamps : Stamps := fun _ => END_OF_TIME
  terminating : Bool := false
  inShutdown : Bool := false
  stage : LoopStage := .off
  pending : EType → List Int := fun _ => []

namespace Cleaner

/-- `notifyAll`. -/
def notifyAll (c : Cleaner) : Cleaner :=
  match c.stage with
  | .sleeping start delay _ => { c with stage := .sleeping start delay true }
  | _ => c

/-- The request is taken down. -/
def ask (c : Cleaner) (moment : Int) (what : EType) : Cleaner :=
  { c with pending := Function.update c.pending what (moment :: c.pending what) }

def scheduleFor (c : Cleaner) (moment : Int) (what : EType) : Cleaner :=
  if c.noop || c.inShutdown then c
  else
    match c.stage with
    | .off =>
      { c.ask moment what with
        stamps := Function.update (fun _ => END_OF_TIME) what moment, stage := .top }
    | _ =>
      -- already scheduled for an earlier moment
      if c.stamps what < moment then c.ask moment what
      else { c.ask moment what with stamps := Function.update c.stamps what moment }.notifyAll

/-- `Stop` up to its waiting. -/
def stop (c : Cleaner) : Cleaner :=
  match c.stage with
  | .off => c
  | _ => { c with terminating := true }.notifyAll

/-- `playback the calculated results and calculate the delay`: the new stamps and the earliest. -/
def playback (snapshot stamps : Stamps) : Stamps × Int :=
  let t : Stamps := fun i => min (snapshot i) (stamps i)
  (t, EType.all.foldl (fun next i => min next (t i)) END_OF_TIME)

/-- `GetTime` shows whole seconds. -/
def getTime (ms : Int) : Int := ms / 1000

/-- The steps of the loop and the calls of others. -/
inductive Event
  | scheduleFor (moment : Int) (what : EType)
  | stop
  /-- `Stop` has joined the thread. -/
  | joined
  | shutdown
  /-- The head of the loop, as far as `GetTime` -/
  | head (ms : Int)
  | copy
  /-- The next type of the loop over the snapshot -/
  | scan
  | cleaned (time_cand : Int)
  | playback (ms : Int)
  /-- `wait_for` returns: on time, notified, or for no reason. -/
  | wake

def step (c : Cleaner) : Event → Option Cleaner
  | .scheduleFor moment what => some (c.scheduleFor moment what)
  | .stop => some c.stop
  | .joined =>
    match c.stage with
    | .ended => if c.terminating then some { c with stage := .off } else none
    | _ => none
  | .shutdown => some { c with inShutdown := true }
  | .head ms =>
    match c.stage with
    | .top =>
      some { c with stage := if c.terminating || c.inShutdown then .ended else .copying (getTime ms) }
    | _ => none
  | .copy =>
    match c.stage with
    | .copying now =>
      some { c with stage := .scanning now c.stamps EType.all, stamps := fun _ => END_OF_TIME }
    | _ => none
  | .scan =>
    match c.stage with
    | .scanning now snapshot (i :: rest) =>
      if now < snapshot i then some { c with stage := .scanning now snapshot rest }
      else if c.terminating || c.inShutdown then some { c with stage := .ended }
      else
        some { c with
          stage := .cleaning now snapshot i rest, pending := Function.update c.pending i [] }
    | _ => none
  | .cleaned time_cand =>
    match c.stage with
    | .cleaning now snapshot what rest =>
      let t := if what = .exFileItem && !c.itemRegistry then END_OF_TIME else time_cand
      some { c with stage := .scanning now (Function.update snapshot what t) rest }
    | _ => none
  | .playback ms =>
    match c.stage with
    | .scanning _ snapshot [] =>
      let (t, next) := playback snapshot c.stamps
      let now := getTime ms
      some { c with
        stamps := t
        stage :=
          if next ≤ now then .top
          -- limit this to a day to avoid buggy STL behavior reported in the past
          else .sleeping ms (min (next - now) 84600 * 1000 + 1) false }
    | _ => none
  | .wake =>
    match c.stage with
    | .sleeping _ _ _ => some { c with stage := .top }
    | _ => none

/-- The end of a sleep that nobody has cut short yet. -/
def sleepEnd (c : Cleaner) : Option Int :=
  match c.stage with
  | .sleeping start delay false => some (start + delay)
  | _ => none

def asleep (c : Cleaner) : Bool :=
  match c.stage with
  | .sleeping _ _ _ => true
  | _ => false

end Cleaner

end Acng
