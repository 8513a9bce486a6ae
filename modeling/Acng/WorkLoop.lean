import Acng.DlConn
import Acng.Lib.Runs

namespace Acng
open Lib

/-- The head says that the peer closes the connection. -/
def Header.announcesClose (h : Header) : Bool :=
  (h.h .connection).any (caseEq · (lit "close")) ||
    (h.h .proxyConnection).any (caseEq · (lit "close"))

def DlJob.getPeerHost (j : DlJob) : HttpUrl := j.pCurBackend.getD j.remoteUri

/-- Whether a call of `ProcessIncomming` reads a final head, and what this head announces. It can
only be the first thing that the call does. -/
def PipeJob.finalHead (p : PipeJob) (buf : Bytes) : Option Bool :=
  let (n, st) := Header.load buf
  if p.job.dlState = .getHeader && 0 < n && st.hd.type = .answer && 200 ≤ st.hd.status.code then
    some st.hd.announcesClose
  else none

/-- A connection. The last field is not part of the program: the last final head that was read
from it announced that it is closed. -/
structure Upstream where
  hostname : Bytes
  port : Nat
  closing : Bool := false
deriving DecidableEq, Repr

namespace Exchange

/-- The last final head behind `redirectRest`. -/
def restHeads (env : Env) (io : Io) (closing : Bool) : List PipeJob → Bytes → Bool
  | [], _ => closing
  | p :: rest, buf =>
    let closing := (p.finalHead buf).getD closing
    let (_, buf', rr) := p.process env io true buf
    if rr = HINT_TGTCHANGE then restHeads env io closing rest buf' else closing

/-- What is observed in `procQueue`: the last final head, and whether the jobs were done with the
connection behind a head that announced its end. They are if the last of them is finished, or if
all of them change their target and nothing is left in the buffer. -/
def observe (env : Env) (io : Io) (x : Exchange) (closing : Bool) : List PipeJob → Bool × Bool
  | [] => (closing, false)
  | p :: rest =>
    if x.inBuf.isEmpty then (closing, false)
    else
      let closing := (p.finalHead x.inBuf).getD closing
      let (p', buf, res) := p.process env io false x.inBuf
      if res = HINT_MORE then (closing, false)
      else if res &&& HINT_DONE ≠ 0 then
        let x := { x with queue := rest, inBuf := buf, left := x.left ++ [p'.release] }
        if res &&& HINT_RECONNECT_NOW ≠ 0 then (closing, false)
        else if rest.isEmpty then (closing, closing)
        else observe env io x closing rest
      else if res &&& HINT_TGTCHANGE ≠ 0 then
        let closing := restHeads env io closing rest buf
        let (_, buf', all) := redirectRest env io rest buf
        (closing, closing && (all && buf'.isEmpty))
      else (closing, false)

end Exchange

/-- What `select` and the socket have for `ExchangeData`. -/
inductive SelectEvent
  | stop | interrupted | badFd | failed | timeout | wakeup
  | sendFailed | lost
  | read (r : Bytes)
deriving DecidableEq, Repr

/-- Result of `ExchangeData`. -/
structure Exchanged where
  x : Exchange
  con : Option Upstream
  res : Nat
deriving DecidableEq, Repr

namespace Exchange

/-- The loop around `select`. It goes on with the next event if nothing is returned, and without a
connection there is nothing to read or to send. -/
def selectLoop (env : Env) (io : Io) (con : Option Upstream) (x : Exchange) :
    List SelectEvent → Option Exchanged
  | [] => none
  | e :: es =>
    match e, con with
    | .stop, _ | .badFd, _ => some ⟨x, con, HINT_RECONNECT_NOW⟩
    | .failed, _ => some ⟨x, con, HINT_RECONNECT_NOW ||| EFLAG_JOB_BROKEN ||| EFLAG_MIRROR_BROKEN⟩
    | .timeout, _ =>
      some ⟨x, con, if x.queue.isEmpty then HINT_SWITCH else HINT_RECONNECT_NOW ||| EFLAG_JOB_BROKEN⟩
    | .wakeup, _ => some ⟨x, con, HINT_SWITCH⟩
    | .interrupted, _ => selectLoop env io con x es
    | .sendFailed, none | .lost, none | .read _, none => none
    | .sendFailed, some _ | .lost, some _ => some ⟨x, con, EFLAG_LOST_CON⟩
    | .read r, some up =>
      let x := { x with inBuf := x.inBuf ++ r }
      let up := { up with closing := (observe env io x up.closing x.queue).1 }
      match procQueue env io x x.queue with
      | (x', some res) => some ⟨x', some up, res⟩
      | (x', none) => selectLoop env io (some up) x' es

/-- `CDlConn::ExchangeData`. Old contents of the buffer are processed first. -/
def exchangeData (env : Env) (io : Io) (con : Option Upstream) (x : Exchange)
    (es : List SelectEvent) : Option Exchanged :=
  let x := if x.queue.isEmpty then { x with inBuf := [] } else x
  match con, x.inBuf.isEmpty with
  | some up, false =>
    let up := { up with closing := (observe env io x up.closing x.queue).1 }
    match procQueue env io x x.queue with
    | (x', some res) => some ⟨x', some up, res⟩
    | (x', none) => selectLoop env io (some up) x' es
  | _, _ => selectLoop env io con x es

end Exchange

/-- The settings of the main loop. -/
structure WorkCfg where
  env : Env
  pipelinelen : Nat := 10
  dlretriesmax : Int := 5

inductive ConnectResult
  | failed
  /-- A used connection with something in the pipe. -/
  | stale
  | connected (hostname : Bytes) (port : Nat)
deriving DecidableEq, Repr

/-- What one turn of the main loop meets. `SetupJobConfig` chooses a backend that is not on the
blacklist, and the items may be changed by others. -/
structure Turn where
  stopTop : Bool := false
  newJobs : List PipeJob := []
  others : FileItem → FileItem := id
  setupJobConfig : List HttpUrl → DlJob → Option DlJob := fun _ j => some j
  prefProxy : DlJob → Option HttpUrl := fun _ => none
  connect : ConnectResult := .failed
  io : Io := {}
  events : List SelectEvent := []
  stopAfter : Bool := false

/-- The local variables of `WorkLoop` and the members it uses. The log is not part of the program:
it tells of each connection that was passed to `RecycleIdleConnection` whether its last final head
had announced that it is closed. -/
structure Worker where
  con : Option Upstream := none
  x : Exchange := { queue := [] }
  nextJobs : List PipeJob := []
  bStopRequesting : Bool := false
  bExpectRemoteClosing : Bool := false
  nLostConTolerance : Int := 5
  blacklist : List HttpUrl := []
  returned : Bool := false
  recycled : List Bool := []
deriving DecidableEq, Repr

namespace Worker

def activeJobs (w : Worker) : List PipeJob := w.x.queue

def setActive (w : Worker) (js : List PipeJob) : Worker := { w with x := { w.x with queue := js } }

def recycleIdleConnection (w : Worker) : Worker :=
  match w.con with
  | none => w
  | some up => { w with con := none, recycled := w.recycled ++ [up.closing] }

def blacklistMirror (w : Worker) : Worker :=
  match w.activeJobs with
  | [] => w
  | p :: _ => { w with blacklist := w.blacklist ++ [p.job.getPeerHost] }

def moveJobsBack (w : Worker) : Worker :=
  { w with nextJobs := w.activeJobs ++ w.nextJobs }.setActive []

/-- The target of a job is at the other end of the connection, or a proxy for it is. -/
def fits (t : Turn) (up : Upstream) (j : DlJob) : Bool :=
  let tgt := j.getPeerHost
  (tgt.sHost = up.hostname && (tgt.getPort = up.port || up.port = 0)) ||
    (!tgt.bSSL && (t.prefProxy j).any (fun proxy =>
      proxy.sHost = up.hostname && proxy.getPort = up.port))

/-- The loop that adds requests. -/
def addRequests (cfg : WorkCfg) (t : Turn) (up : Upstream) (w : Worker) : List PipeJob → Worker
  | [] => { w with nextJobs := [] }
  | p :: rest =>
    if cfg.pipelinelen < w.activeJobs.length then { w with nextJobs := p :: rest }
    else
      match t.setupJobConfig w.blacklist p.job with
      | none => addRequests cfg t up w rest
      | some job =>
        let p := { p with job := job }
        if !fits t up job then { w with bStopRequesting := true, nextJobs := p :: rest }
        else
          let w := w.setActive (w.activeJobs ++ [p.request cfg.env.cfg])
          if 0 < w.x.nTempPipelineDisable then
            { w with
              bStopRequesting := true, nextJobs := rest
              x := { w.x with nTempPipelineDisable := w.x.nTempPipelineDisable - 1 } }
          else addRequests cfg t up w rest

/-- A turn goes on with `ExchangeData`, or it is over before that. -/
inductive Entered
  | ended (w : Worker)
  | select (w : Worker)

def request (cfg : WorkCfg) (t : Turn) (up : Upstream) (w : Worker) : Entered :=
  .select (if w.bStopRequesting then w else w.addRequests cfg t up w.nextJobs)

/-- Cleanup after the last connection, and a new one. -/
def reconnect (cfg : WorkCfg) (t : Turn) (w : Worker) : Entered :=
  let jobs := w.nextJobs.filterMap (fun p =>
    (t.setupJobConfig w.blacklist p.job).map (fun job => { p with job := job }))
  let w := { w with
    x := { w.x with queue := [], inBuf := [] }
    bStopRequesting := false
    nextJobs := jobs }
  match jobs with
  | [] => .select w
  | front :: _ =>
    let w := { w with
      bExpectRemoteClosing := false
      nextJobs := jobs.map (fun p => { p with job := p.job.resetStreamState }) }
    match t.connect with
    | .failed => .ended { w with blacklist := w.blacklist ++ [front.job.getPeerHost] }
    | .stale => .ended w
    | .connected hostname port =>
      let up : Upstream := { hostname := hostname, port := port }
      { w with con := some up, x := { w.x with left := [] } }.request cfg t up

/-- What others do in the meantime. -/
def meanwhile (t : Turn) (w : Worker) : Worker :=
  let others (p : PipeJob) : PipeJob := { p with fi := t.others p.fi }
  { w with nextJobs := t.newJobs ++ w.nextJobs.map others }.setActive (w.activeJobs.map others)

/-- A turn up to `go_select`. -/
def enter (cfg : WorkCfg) (t : Turn) (w : Worker) : Entered :=
  if t.stopTop && w.activeJobs.isEmpty then .ended { w.recycleIdleConnection with returned := true }
  else
    let w := w.meanwhile t
    if w.nextJobs.isEmpty && w.activeJobs.isEmpty then .select w
    else
      match w.con with
      | none => w.reconnect cfg t
      | some up => w.request cfg t up

def allErr : Nat :=
  HINT_RECONNECT_NOW ||| HINT_RECONNECT_SOON ||| EFLAG_JOB_BROKEN ||| EFLAG_LOST_CON |||
    EFLAG_MIRROR_BROKEN

/-- Disconnected by the OS: the job is resumed secretly, unless the use of ranges is disabled. -/
def lostCon (cfg : WorkCfg) (w : Worker) (res : Nat) : Worker × Nat :=
  match w.activeJobs with
  | [] => (w, res)
  | p :: rest =>
    if res &&& EFLAG_LOST_CON = 0 then (w, res)
    else
      let w := if w.bExpectRemoteClosing then w
        else if w.nLostConTolerance - 1 ≤ 0 then
          { w.blacklistMirror with nLostConTolerance := cfg.dlretriesmax }
        else { w with nLostConTolerance := w.nLostConTolerance - 1 }
      let w := { w with con := none }
      if res &&& HINT_DONE ≠ 0 then (w, res)
      else if cfg.env.cfg.vrangeops ≤ 0 && p.job.fiAttr.bVolatile then (w, res ||| EFLAG_JOB_BROKEN)
      else (w.setActive ({ p with job := { p.job with dlState := .getHeader } } :: rest), res)

/-- The "fatal error" situation. After a collision the jobs are dropped that someone else is
doing. -/
def brokenJob (w : Worker) (res : Nat) : Worker :=
  let w := if res &&& EFLAG_MIRROR_BROKEN ≠ 0 then w.blacklistMirror else w
  if res &&& EFLAG_JOB_BROKEN = 0 || w.activeJobs.isEmpty then w
  else
    let w := w.setActive w.activeJobs.tail
    let mine (p : PipeJob) : Bool := p.fi.status < .dlReceiving
    if res &&& EFLAG_STORE_COLLISION ≠ 0 then
      { w with nextJobs := w.nextJobs.filter mine }.setActive (w.activeJobs.filter mine)
    else w

/-- The part of a turn behind `ExchangeData`. -/
def afterExchange (cfg : WorkCfg) (w : Worker) (res : Nat) : Worker :=
  let idle := w.activeJobs.isEmpty
  let w := if idle then { w with bStopRequesting := false } else w
  if idle && w.con.isSome && res &&& allErr = 0 then w.recycleIdleConnection
  else
    let w := if res &&& (HINT_RECONNECT_NOW ||| EFLAG_LOST_CON) ≠ 0 then
        { w with con := none, x := { w.x with inBuf := [] } }
      else w
    if res &&& HINT_TGTCHANGE ≠ 0 then w.recycleIdleConnection.moveJobsBack
    else
      let (w, res) := w.lostCon cfg res
      if res &&& (HINT_DONE ||| HINT_MORE) ≠ 0 || res = HINT_SWITCH then w
      else (w.brokenJob res).moveJobsBack

/-- The results of `ExchangeData` get into the worker. -/
def exchanged (w : Worker) (e : Exchanged) : Worker :=
  { w with
    x := e.x, con := e.con
    bExpectRemoteClosing := w.bExpectRemoteClosing || e.res &&& HINT_RECONNECT_SOON ≠ 0 }

/-- One turn of the main loop. It has no result while it waits in `ExchangeData`. -/
def turn (cfg : WorkCfg) (w : Worker) (t : Turn) : Option Worker :=
  if w.returned then none
  else
    match w.enter cfg t with
    | .ended w => some w
    | .select w =>
      (w.x.exchangeData cfg.env t.io w.con t.events).map (fun e =>
        let w := w.exchanged e
        if t.stopAfter then { w with con := none, returned := true } else w.afterExchange cfg e.res)

/-- `CDlConn::WorkLoop` over a number of turns. -/
def workLoop (cfg : WorkCfg) (ts : List Turn) : Option Worker :=
  runs (turn cfg) { nLostConTolerance := cfg.dlretriesmax } ts

end Worker

end Acng
