import Acng.DlJob

namespace Acng
open Lib

/-- A job in a queue of the downloader, with the item it fetches. The items of
one queue are distinct objects. -/
structure PipeJob where
  job : DlJob
  fi : FileItem
deriving DecidableEq, Repr

namespace PipeJob

/-- `~tDlJob`. -/
def release (p : PipeJob) : PipeJob :=
  let reason := if p.job.sErrorMsg.isEmpty then lit "Download Expired" else p.job.sErrorMsg
  { p with fi := p.fi.dlRefCountDec ⟨503, reason⟩ }

/-- `ProcessIncomming` on the connection's buffer. -/
def process (env : Env) (io : Io) (bOnlyRedirectionActivity : Bool) (p : PipeJob) (buf : Bytes) :
    PipeJob × Bytes × Nat :=
  let (d, res) := Dl.processIncomming env io bOnlyRedirectionActivity ⟨p.job, p.fi, buf⟩
  (⟨d.job, d.fi⟩, d.buf, res)

def request (cfg : Cfg) (p : PipeJob) : PipeJob := { p with job := (p.job.appendRequest cfg p.fi).2 }

end PipeJob

/-- The connection's side of `ExchangeData`: active jobs, input buffer, the jobs
that were finished (the last one is known to the connection), and the counter
that suspends pipelining. -/
structure Exchange where
  queue : List PipeJob
  inBuf : Bytes := []
  left : List PipeJob := []
  nTempPipelineDisable : Nat := 0
deriving DecidableEq, Repr

namespace Exchange

/-- The loop behind `HINT_TGTCHANGE` over the jobs after the front one. The flag
tells whether all of them were rewritten and nothing else happened. -/
def redirectRest (env : Env) (io : Io) : List PipeJob → Bytes → List PipeJob × Bytes × Bool
  | [], buf => ([], buf, true)
  | p :: rest, buf =>
    let (p', buf', rr) := p.process env io true buf
    if rr = HINT_TGTCHANGE then
      let (rest', buf', all) := redirectRest env io rest buf'
      (p' :: rest', buf', all)
    else (p' :: rest, buf', false)

/-- The inputs of the calls that rewrote a job in `redirectRest`, in queue order. -/
def rewrites (env : Env) (io : Io) : List PipeJob → Bytes → List Bytes
  | [], _ => []
  | p :: rest, buf =>
    let (_, buf', rr) := p.process env io true buf
    if rr = HINT_TGTCHANGE then buf :: rewrites env io rest buf'
    else if rr &&& HINT_TGTCHANGE ≠ 0 then [buf]
    else []

def targetChange (env : Env) (io : Io) (x : Exchange) (front : PipeJob) (rest : List PipeJob)
    (buf : Bytes) : Exchange × Nat :=
  let (rest', buf', all) := redirectRest env io rest buf
  if all then
    -- better disconnect if there is something left
    ({ x with queue := front :: rest', inBuf := buf' },
      HINT_TGTCHANGE ||| if buf'.isEmpty then 0 else HINT_RECONNECT_NOW)
  else
    ({ x with queue := front :: rest', inBuf := buf', nTempPipelineDisable := 30 },
      HINT_TGTCHANGE ||| HINT_RECONNECT_NOW)

/-- `KillLastFile`. -/
def killLastFile (left : List PipeJob) : List PipeJob :=
  left.modifyLast (fun p => { p with fi := p.fi.markFaulty false })

/-- The loop over the buffer behind `proc_data`, on the given queue. The result
`none` goes back to `select`. -/
def procQueue (env : Env) (io : Io) (x : Exchange) : List PipeJob → Exchange × Option Nat
  | [] => ({ x with queue := [] }, some EFLAG_LOST_CON)
  | p :: rest =>
    if x.inBuf.isEmpty then ({ x with queue := p :: rest }, some HINT_DONE)
    else
      let (p', buf, res) := p.process env io false x.inBuf
      if res = HINT_MORE then ({ x with queue := p' :: rest, inBuf := buf }, none)
      else if res &&& HINT_DONE ≠ 0 then
        let x := { x with queue := rest, inBuf := buf, left := x.left ++ [p'.release] }
        if res &&& HINT_RECONNECT_NOW ≠ 0 then (x, some HINT_RECONNECT_NOW)
        else if rest.isEmpty then (x, some HINT_SWITCH)
        else procQueue env io x rest
      else if res &&& HINT_TGTCHANGE ≠ 0 then
        let (x, res) := targetChange env io x p' rest buf
        (x, some res)
      else
        ({ x with queue := p' :: rest, inBuf := buf
                  left := if res &&& HINT_KILL_LAST_FILE ≠ 0 then killLastFile x.left else x.left },
          some res)

/-- After a lone `HINT_RECONNECT_SOON` the main loop keeps the connection and the
buffer, queues the jobs again with new requests, and the next `ExchangeData`
starts with the old buffer contents. The fuel bounds these rounds. -/
def procData (env : Env) (io : Io) : Nat → Exchange → Exchange × Option Nat
  | 0, x => (x, none)
  | fuel + 1, x =>
    match procQueue env io x x.queue with
    | (x, some res) =>
      if res = HINT_RECONNECT_SOON then
        let x := { x with queue := x.queue.map (PipeJob.request env.cfg) }
        if x.inBuf.isEmpty then (x, none) else procData env io fuel x
      else (x, some res)
    | (x, none) => (x, none)

/-- One read and the processing of the buffer. -/
def receive (env : Env) (io : Io) (x : Exchange) (r : Bytes) : Exchange × Option Nat :=
  procData env io (x.inBuf.length + r.length) { x with inBuf := x.inBuf ++ r }

/-- Outcome of a series of reads: the state, the result for the main loop if
there is one, and the reads that were not made before it. -/
structure Served where
  x : Exchange
  res : Option Nat
  unread : List Bytes
deriving DecidableEq, Repr

/-- `ExchangeData` over a series of reads. `HINT_DONE` makes the main loop call it
again at once, so the next read follows as after `HINT_MORE`. -/
def serve (env : Env) (io : Io) (x : Exchange) : List Bytes → Served
  | [] => ⟨x, none, []⟩
  | r :: reads =>
    match receive env io x r with
    | (x, none) => serve env io x reads
    | (x, some res) => if res = HINT_DONE then serve env io x reads else ⟨x, some res, reads⟩

end Exchange

end Acng
