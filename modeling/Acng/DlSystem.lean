import Acng.DlConn
import Mathlib.Logic.Relation

namespace Acng
open Lib

/-- What the main loop lets a job do next: it reads from its connection, it waits
for the next connection, or it is only good for removal. -/
inductive Phase
  | running | lost | closed
deriving DecidableEq, Repr

/-- A `tDlJob` object. A moved-from one has no storage item any more. -/
structure JobObj where
  id : Nat
  item : Option Nat
  job : DlJob
  phase : Phase := .running
deriving DecidableEq, Repr

/-- What a job has done to its item. -/
inductive Mark
  | attached | good | addData | put
deriving DecidableEq, Repr

structure Entry where
  id : Nat
  item : Nat
  mark : Mark
deriving DecidableEq, Repr

/-- All items and all jobs of all downloaders. The log is not part of the program. -/
structure World where
  items : Nat → FileItem
  queues : List (List JobObj) := []
  next : Nat := 0
  log : List Entry := []

/-- A position in one of the queues. -/
structure Spot where
  before : List (List JobObj)
  pre : List JobObj
  post : List JobObj
  behind : List (List JobObj)

def Spot.fill (s : Spot) (js : List JobObj) : List (List JobObj) :=
  s.before ++ (s.pre ++ js ++ s.post) :: s.behind

def Spot.others (s : Spot) : List JobObj :=
  s.before.flatten ++ s.pre ++ (s.post ++ s.behind.flatten)

def FileItem.isActive (fi : FileItem) : Bool :=
  fi.status == .dlGotHead || fi.status == .dlReceiving

/-- The last holder of an item lets it go. -/
def FileItem.expire (fi : FileItem) : FileItem :=
  { fi with
    status := if fi.status < .complete then .dlStop else fi.status
    responseStatus := ⟨500, lit "Cache file item expired"⟩ }

/-- The handling of a result in the main loop. A job that was only looked at for a
redirection is kept for the next connection in any case. -/
def Phase.after (cfg : Cfg) (bOnlyRedirectionActivity : Bool) (j : DlJob) : Option Nat → Phase
  | none => .running
  | some res =>
    if bOnlyRedirectionActivity then .lost
    else if res &&& (HINT_DONE ||| EFLAG_JOB_BROKEN) ≠ 0 then .closed
    else if res &&& EFLAG_LOST_CON ≠ 0 && cfg.vrangeops ≤ 0 && j.fiAttr.bVolatile then .closed
    else if res &&& (HINT_RECONNECT_NOW ||| EFLAG_LOST_CON ||| HINT_TGTCHANGE) ≠ 0 then .lost
    else .running

namespace Dl

/-- `CheckAndSaveHeader` is called and accepts the response. -/
def isGood (env : Env) (io : Io) (bOnly : Bool) (d : Dl) : Bool :=
  d.job.dlState == .getHeader &&
    match d.headStep env bOnly with
    | .ret _ _ => false
    | .save d1 h n contLen _ => (d1.checkAndSaveHeader env io h n contLen).1 == .good

/-- `DlAddData` is called. -/
def addsData (d : Dl) : Bool :=
  (d.job.dlState == .processData || d.job.dlState == .processChunkData) &&
    0 < min d.buf.length d.job.nRest && d.job.bAllowStoreData

def marks (env : Env) (io : Io) (bOnly : Bool) (d : Dl) : List Mark :=
  let fi := (d.procStep env io bOnly).1.fi
  (if d.isGood env io bOnly then [.good] else []) ++ (if d.addsData then [.addData] else []) ++
    (if fi.isActive && fi.status != d.fi.status then [.put] else [])

end Dl

namespace World

def live (w : World) : List JobObj := w.queues.flatten

/-- The live jobs of an item. -/
def refs (w : World) (i : Nat) : Nat := w.live.countP (fun j => j.item == some i)

def setItem (w : World) (i : Nat) (fi : FileItem) : World :=
  { w with items := Function.update w.items i fi }

def record (w : World) (id i : Nat) (ms : List Mark) : World :=
  { w with log := w.log ++ ms.map (fun m => ⟨id, i, m⟩) }

/-- `~tDlJob` as seen by the items. -/
def release (w : World) (j : JobObj) : World :=
  match j.item with
  | none => w
  | some i => w.setItem i (PipeJob.release ⟨j.job, w.items i⟩).fi

/-- The steps of the system. Each runs under the lock of the item it touches.
`own` tells the items whose class has download handlers of its own. -/
inductive Step (env : Env) (own : Nat → Bool) (w : World) : World → Prop
  /-- A constructor runs, and the job is put into a queue. -/
  | create (s : Spot) (i : Nat) (job : DlJob) (hq : w.queues = s.fill [])
      (hj : (∃ src, job = .new env.cfg (w.items i) src) ∨
        ∃ repo path, job = .newForRepo env.cfg (w.items i) repo path) :
      Step env own w ({ w.setItem i (w.items i).dlRefCountAdd with
        queues := s.fill [⟨w.next, some i, job, .running⟩], next := w.next + 1 }.record
          w.next i [.attached])
  /-- Jobs change their places in the queues. -/
  | splice (qs : List (List JobObj)) (hq : qs.flatten.Perm w.live) :
      Step env own w { w with queues := qs }
  /-- The move constructor: the object moved from keeps everything but the pointer and the text. -/
  | moveJob (s : Spot) (j : JobObj) (hq : w.queues = s.fill [j]) :
      Step env own w { w with
        queues := s.fill [j, { j with
          id := w.next, item := none, job := { j.job with sErrorMsg := [] } }]
        next := w.next + 1 }
  | destroy (s : Spot) (j : JobObj) (hq : w.queues = s.fill [j]) :
      Step env own w { w.release j with queues := s.fill [] }
  /-- One pass of the loop in `ProcessIncomming` on any input. The probing call is made only
  behind a redirection, for a job that waits for its response. -/
  | incomming (s : Spot) (j : JobObj) (i : Nat) (buf : Bytes) (io : Io) (now : Int) (bOnly : Bool)
      (hq : w.queues = s.fill [j]) (hi : j.item = some i) (hown : own i = false)
      (hp : j.phase = .running)
      (ho : bOnly = true → env.cfg.redirmax ≠ 0 ∧ j.job.dlState = .getHeader) :
      Step env own w
        (let d : Dl := ⟨j.job, w.items i, buf⟩
        let r := d.procStep { env with now := now } io bOnly
        { w.setItem i r.1.fi with
          queues := s.fill [{ j with job := r.1.job, phase := .after env.cfg bOnly r.1.job r.2 }] }.record
            j.id i (d.marks { env with now := now } io bOnly))
  | connectionLost (s : Spot) (j : JobObj) (hq : w.queues = s.fill [j]) (hp : j.phase = .running) :
      Step env own w { w with queues := s.fill [{ j with phase := .lost }] }
  /-- A new connection resets the streams of all jobs that are still good. -/
  | reconnect (s : Spot) (j : JobObj) (hq : w.queues = s.fill [j]) (hp : j.phase ≠ .closed) :
      Step env own w { w with
        queues := s.fill [{ j with job := j.job.resetStreamState, phase := .running }] }
  | request (s : Spot) (j : JobObj) (i : Nat) (hq : w.queues = s.fill [j]) (hi : j.item = some i) :
      Step env own w { w with
        queues := s.fill [{ j with job := (j.job.appendRequest env.cfg (w.items i)).2 }] }
  /-- Choice of a backend, and messages set by the main loop. -/
  | configure (s : Spot) (j : JobObj) (backend : Option HttpUrl) (msg : Bytes)
      (hq : w.queues = s.fill [j]) :
      Step env own w { w with
        queues := s.fill [{ j with job := { j.job with
          pCurBackend := backend, sErrorMsg := msg } }] }
  | setup (i : Nat) (hown : own i = false) : Step env own w (w.setItem i (w.items i).setup)
  | setError (i : Nat) (errState : RemoteStatus) (kmode : EDestroyMode) :
      Step env own w (w.setItem i ((w.items i).dlSetError errState kmode))
  | expire (i : Nat) : Step env own w (w.setItem i (w.items i).expire)
  /-- A job works on an item with other handlers. None of them touches the counter. -/
  | foreign (s : Spot) (j : JobObj) (i : Nat) (job : DlJob) (phase : Phase) (fi : FileItem)
      (hq : w.queues = s.fill [j]) (hi : j.item = some i) (hown : own i = true)
      (hc : fi.nDlRefsCount = (w.items i).nDlRefsCount) :
      Step env own w { w.setItem i fi with queues := s.fill [{ j with job := job, phase := phase }] }

def Reachable (env : Env) (own : Nat → Bool) : World → World → Prop :=
  Relation.ReflTransGen (Step env own)

end World

end Acng
