import Acng.FileItem
import Acng.Lib.Runs

namespace Acng
open Lib

def PT_BUF_MAX : Int := 64000

/-- The call of `DlAddData` under way, with what it has taken of its piece and what is left.
It gives up the lock of the item only while it waits. -/
inductive Adding
  | idle
  | looping (taken rest : Bytes)
  | waiting (taken rest : Bytes)
deriving DecidableEq, Repr

/-- `tPassThroughFitem`. The queue is all that there is of an `evbuffer`. -/
structure PassThroughItem where
  q : Bytes := []
  sHeader : Bytes := []
  status : FiStatus := .fresh
  nSizeChecked : Int := -1
  nContentLength : Int := -1
  nIncommingCount : Nat := 0
  responseOrigin : Bytes := []
  responseStatus : RemoteStatus := {}
deriving DecidableEq, Repr

namespace PassThroughItem

def setup (fi : PassThroughItem) : PassThroughItem := { fi with status := .inited }

def dlStarted (fi : PassThroughItem) (rawHeader origin : Bytes) (status : RemoteStatus)
    (seekPos bytesAnnounced : Int) : Bool × PassThroughItem :=
  if .complete < fi.status then (false, fi)
  else if .dlGotHead ≤ fi.status && decide (0 < fi.nSizeChecked) && fi.nSizeChecked ≠ seekPos then
    (false, fi)
  else if .dlGotHead ≤ fi.status && decide (fi.nSizeChecked ≤ 0) && decide (0 < seekPos) then
    (false, fi)
  else
    (true, { fi with
      status := if fi.status < .dlGotHead then .dlGotHead else fi.status
      sHeader := rawHeader, responseOrigin := origin, responseStatus := status
      nContentLength := bytesAnnounced })

def dlFinish (fi : PassThroughItem) : PassThroughItem := { fi with status := .complete }

def dlSetError (fi : PassThroughItem) (errState : RemoteStatus) : PassThroughItem :=
  { fi with responseStatus := errState, status := .dlError }

/-- `DlAddData` up to its loop. -/
def beginAdd (fi : PassThroughItem) (chunk : Bytes) : Bool × PassThroughItem :=
  let fi := if fi.status < .dlReceiving then { fi with status := .dlReceiving, nSizeChecked := 0 }
    else fi
  let fi := { fi with
    nIncommingCount := fi.nIncommingCount + chunk.length
    nSizeChecked := fi.nSizeChecked + chunk.length }
  if .complete < fi.status || fi.status < .dlGotHead then (false, fi)
  else (true, { fi with status := .dlReceiving })

end PassThroughItem

/-- The vectors as `evbuffer_dumpall` hands them to `writev`: the last one is made to fit. -/
def fitVectors (nMax2SendNow got : Nat) : List Bytes → List Bytes
  | [] => []
  | iv :: ivs =>
    let got := got + iv.length
    if nMax2SendNow < got then [iv.take (iv.length - (got - nMax2SendNow))]
    else iv :: fitVectors nMax2SendNow got ivs

/-- The transfer length that goes with them. -/
def fitLength (nMax2SendNow got : Nat) : List Bytes → Nat
  | [] => got
  | iv :: ivs =>
    let got := got + iv.length
    if nMax2SendNow < got then nMax2SendNow else fitLength nMax2SendNow got ivs

/-- The item between its downloader and its client, with the bytes that were taken from the
former, in calls that are over, and those that were written to the latter. -/
structure PassThrough where
  fi : PassThroughItem := {}
  inShutdown : Bool := false
  adding : Adding := .idle
  nSendPos : Int := 0
  pieces : List Bytes := []
  written : Bytes := []
deriving DecidableEq, Repr

namespace PassThrough

inductive Action
  | setup
  | dlStarted (rawHeader origin : Bytes) (status : RemoteStatus) (seekPos bytesAnnounced : Int)
  /-- `DlAddData` is called. -/
  | addData (chunk : Bytes)
  /-- One pass of its loop. `added` tells whether `evbuffer_add` succeeds. -/
  | addPass (added : Bool)
  /-- The waiting is over. -/
  | wake
  | dlFinish
  | dlSetError (errState : RemoteStatus)
  /-- The last user is gone. -/
  | expire
  | shutdown
  /-- `SendData`, with the vectors of `evbuffer_peek` and the result. -/
  | sendData (nMax2SendNow : Nat) (ivs : List Bytes) (r : Int)
deriving DecidableEq, Repr

/-- The bytes taken by the call under way. -/
def taken (s : PassThrough) : Bytes :=
  match s.adding with
  | .idle => []
  | .looping taken _ | .waiting taken _ => taken

/-- `DlAddData` returns. What it has taken stays in the queue. -/
def endAdd (s : PassThrough) (taken : Bytes) : PassThrough :=
  { s with adding := .idle, pieces := s.pieces ++ [taken] }

def addPass (s : PassThrough) (taken rest : Bytes) (added : Bool) : PassThrough :=
  if rest.isEmpty then s.endAdd taken
  -- abandoned by the user?
  else if .dlError ≤ s.fi.status || s.inShutdown then s.endAdd taken
  else
    let nAddLimit := PT_BUF_MAX - s.fi.q.length
    let nToAppend := min nAddLimit rest.length
    if nToAppend = 0 then { s with adding := .waiting taken rest }
    -- a negative length would be a huge one
    else if nToAppend < 0 || !added then s.endAdd taken
    else
      let part := rest.take nToAppend.toNat
      { s with
        fi := { s.fi with q := s.fi.q ++ part }
        adding := .looping (taken ++ part) (rest.drop nToAppend.toNat) }

/-- `evbuffer_dumpall` behind its `writev`. -/
def dumped (s : PassThrough) (nMax2SendNow : Nat) (ivs : List Bytes) (r : Int) : PassThrough :=
  if 0 < r then
    { s with
      nSendPos := s.nSendPos + r
      written := s.written ++ (fitVectors nMax2SendNow 0 ivs).flatten.take r.toNat
      fi := { s.fi with q := s.fi.q.drop (fitLength nMax2SendNow 0 ivs) } }
  else s

/-- What `writev` can return. The limit is a `size_t`: from 2^63 on it is compared as a negative
number, and the first vector gets a length that `writev` refuses. -/
def writevResult (nMax2SendNow : Nat) (ivs : List Bytes) (r : Int) : Bool :=
  if 2 ^ 63 ≤ nMax2SendNow && !ivs.isEmpty then r == -1
  else -1 ≤ r && r ≤ (fitVectors nMax2SendNow 0 ivs).flatten.length

def step (s : PassThrough) : Action → Option PassThrough
  | .setup => if s.adding = .idle then some { s with fi := s.fi.setup } else none
  | .dlStarted rawHeader origin status seekPos bytesAnnounced =>
    if s.adding = .idle then
      some { s with fi := (s.fi.dlStarted rawHeader origin status seekPos bytesAnnounced).2 }
    else none
  | .addData chunk =>
    if s.adding = .idle then
      let (ok, fi) := s.fi.beginAdd chunk
      some { s with fi := fi, adding := if ok then .looping [] chunk else .idle }
    else none
  | .addPass added =>
    match s.adding with
    | .looping taken rest => some (s.addPass taken rest added)
    | _ => none
  | .wake =>
    match s.adding with
    | .waiting taken rest => some { s with adding := .looping taken rest }
    | _ => none
  | .dlFinish => if s.adding = .idle then some { s with fi := s.fi.dlFinish } else none
  | .shutdown => some { s with inShutdown := true }
  -- the rest comes from other threads and needs the lock
  | a =>
    match s.adding with
    | .looping _ _ => none
    | _ =>
      match a with
      | .dlSetError errState => some { s with fi := s.fi.dlSetError errState }
      | .expire => some { s with fi := { s.fi with status := .dlStop } }
      | .sendData nMax2SendNow ivs r =>
        if .complete < s.fi.status || s.inShutdown then
          if ivs = [] ∧ r = -1 then some s else none
        else if ivs.length ≤ 64 ∧ ivs.flatten <+: s.fi.q ∧ writevResult nMax2SendNow ivs r then
          some (s.dumped nMax2SendNow ivs r)
        else none
      | _ => none

/-- Any interleaving of the downloader and the client. -/
def run (s : PassThrough) (acts : List Action) : Option PassThrough := runs step s acts

/-- Everything that was taken over from the downloader. -/
def accepted (s : PassThrough) : Bytes := s.pieces.flatten ++ s.taken

structure Conserved (s : PassThrough) : Prop where
  sent : s.written <+: s.accepted
  pos : s.nSendPos = s.written.length
  queue : s.accepted = s.written ++ s.fi.q

/-- The write transfers everything that it was asked for, or nothing. -/
def FullWrite : Action → Prop
  | .sendData nMax2SendNow ivs r =>
    r ≤ 0 ∨ r = (fitVectors nMax2SendNow 0 ivs).flatten.length
  | _ => True

end PassThrough

end Acng
