import Acng.SendData
import Acng.DlConn
import Acng.Lib.Runs
import Mathlib.Logic.Function.Basic

namespace Acng
open Lib

/-- A client that waits for an item: its job, what was sent to it, and the result of the last call
for it. The last field is not kept by the program: a call has failed, or a waiting timed out. -/
structure RelayClient where
  job : ClientJob := {}
  out : Bytes := []
  result : JobResult := .again
  cut : Bool := false
deriving DecidableEq, Repr

/-- The states that wait for the item. -/
def ClientJob.waits (j : ClientJob) : Bool :=
  match j.activity with
  | .notStarted | .sendData | .sendChunkHeader => true
  | _ => false

/-- The call gets to the item and waits for it in vain. -/
def ClientJob.timesOut (j : ClientJob) (io : SendIo) : Bool :=
  (j.sendbuf.drop (io.sent.getD 0)).isEmpty && j.waits && (j.awaitSendableState io.seen).isNone

/-- A call of `SendData` that finds the item in this state. A waiting that goes on is no call yet. -/
def FileItem.callIo (fi : FileItem) (sent : Option Nat) (opened : Bool) (data : Option Nat) : SendIo where
  sent := sent
  item := some (fi, [])
  seen := [(fi.status, fi.nSizeChecked)]
  opened := opened
  data := data

/-- The bytes that are in the file. -/
def FileItem.content (fi : FileItem) : Bytes := fi.disk.file.getD []

def RelayClient.call (env : CookEnv) (fi : FileItem) (sent : Option Nat) (opened : Bool)
    (data : Option Nat) (c : RelayClient) : RelayClient :=
  let io := fi.callIo sent opened data
  let r := c.job.sendData env fi.content io
  { job := r.1, out := c.out ++ r.2.2, result := r.2.1
    cut := c.cut || sent.isNone || !opened || data.isNone || c.job.timesOut io }

/-- A download with what the server has still to send, and the clients of its item. The result is
that of the download, once it does not ask for more. -/
structure Relay where
  dl : Dl
  unread : Bytes
  result : Option Nat := none
  clients : Nat → RelayClient

inductive RelayAct
  /-- The next bytes are read from the server and processed. -/
  | read (n : Nat)
  | call (i : Nat) (sent : Option Nat) (opened : Bool) (data : Option Nat)
deriving DecidableEq, Repr

namespace Relay

def step (env : Env) (cenv : CookEnv) (s : Relay) : RelayAct → Option Relay
  | .read n =>
    if s.result.isSome || n = 0 || s.unread.length < n then none
    else
      let (dl, res) := { s.dl with buf := s.dl.buf ++ s.unread.take n }.processIncomming env {} false
      some { s with
        dl := dl, unread := s.unread.drop n
        result := if res = HINT_MORE then none else some res }
  | .call i sent opened data =>
    if (s.clients i).result ≠ .again then none
    else some { s with
      clients := Function.update s.clients i ((s.clients i).call cenv s.dl.fi sent opened data) }

/-- Any interleaving of the download and its clients. -/
def run (env : Env) (cenv : CookEnv) (s : Relay) (acts : List RelayAct) : Option Relay :=
  runs (step env cenv) s acts

/-- A job in front of an answer, with clients that have just asked for its item. -/
def start (p : PipeJob) (text : Bytes) (jobs : Nat → ClientJob) : Relay where
  dl := { job := p.job, fi := p.fi }
  unread := text
  clients := fun i => { job := jobs i }

/-- The item of a later request for the path, when the one of the download is gone. -/
def again (s : Relay) (attr : SpecialPurposeAttr) : FileItem :=
  FileItem.setup { sPathRel := s.dl.fi.sPathRel, spattr := attr, disk := s.dl.fi.destroy }

end Relay

end Acng
