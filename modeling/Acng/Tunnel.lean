import Acng.Conn
import Acng.Failover
import Acng.HeadStorage
import Acng.Lib.Runs

namespace Acng
open Lib

namespace AcBuf

/-- `acbuf::dumpall` to a descriptor: whether all was written, what is left in the buffer, and what
was written. -/
def dumpall (limit : Nat) (b : AcBuf) (out : Bytes) : List DumpResult → Option (Bool × AcBuf × Bytes)
  | [] => if limit = 0 then some (true, b, out) else none
  | r :: rs =>
    if limit = 0 then some (true, b, out)
    else
      match r with
      | .wrote n =>
        if n = 0 || limit < n then some (false, b, out)
        else dumpall (limit - n) (b.drop n) (out ++ b.data.take n) rs
      -- the loop does not wait for the descriptor
      | .again => dumpall limit b out rs
      | .failed => some (false, b, out)

end AcBuf

/-- One direction of a tunnel: its buffer, and what was read into it and written from it. -/
structure TunnelLane where
  buf : AcBuf := {}
  received : Bytes := []
  sent : Bytes := []
deriving DecidableEq, Repr

namespace TunnelLane

def dump (l : TunnelLane) (writes : List DumpResult) : Option (Bool × TunnelLane) :=
  (l.buf.dumpall l.buf.data.length [] writes).map (fun r =>
    (r.1, { l with buf := r.2.1, sent := l.sent ++ r.2.2 }))

def sysread (l : TunnelLane) (read : Bytes) : TunnelLane :=
  { l with buf := l.buf.sysread read, received := l.received ++ read }

end TunnelLane

/-- The size of both buffers. -/
def tunnelBufSize : Nat := 32 * 1024

/-- What `select` finds ready among the descriptors that it is asked for. -/
structure TunnelReady where
  serverWrite : Bool := false
  clientWrite : Bool := false
  serverRead : Bool := false
  clientRead : Bool := false
deriving DecidableEq, Repr

/-- One pass of the loop: the answer of `select`, and what the calls behind it bring. An empty read
is an error or the end of what comes from there. -/
structure TunnelIo where
  select : Option TunnelReady
  toServer : List DumpResult := []
  toClient : List DumpResult := []
  fromServer : Bytes := []
  fromClient : Bytes := []

/-- Where the loop returns. -/
inductive TunnelEnd
  | select | toServer | toClient | fromServer | fromClient
deriving DecidableEq, Repr

/-- The loop of `RawPassThrough::PassThrough`. The buffer for the requests is also the one that is
written to the server. -/
structure Tunnel where
  clientBufIn : TunnelLane
  clientBufOut : TunnelLane
  left : Option TunnelEnd := none
deriving DecidableEq, Repr

namespace Tunnel

/-- The bits that are set before the call of `select`. -/
def wanted (t : Tunnel) : TunnelReady where
  serverWrite := !t.clientBufIn.buf.data.isEmpty
  clientWrite := !t.clientBufOut.buf.data.isEmpty
  serverRead := 0 < t.clientBufOut.buf.freecapa tunnelBufSize
  clientRead := 0 < t.clientBufIn.buf.freecapa tunnelBufSize

def sendToServer (t : Tunnel) (isset : Bool) (writes : List DumpResult) : Option Tunnel :=
  if isset then
    (t.clientBufIn.dump writes).map (fun r =>
      { t with clientBufIn := r.2, left := if r.1 then none else some .toServer })
  else some t

def sendToClient (t : Tunnel) (isset : Bool) (writes : List DumpResult) : Option Tunnel :=
  if isset && t.left.isNone then
    (t.clientBufOut.dump writes).map (fun r =>
      { t with clientBufOut := r.2, left := if r.1 then none else some .toClient })
  else some t

/-- There is never more than what fits. -/
def readFromServer (t : Tunnel) (isset : Bool) (read : Bytes) : Option Tunnel :=
  if isset && t.left.isNone then
    if t.clientBufOut.buf.freecapa tunnelBufSize < read.length then none
    else some { t with
      clientBufOut := t.clientBufOut.sysread read
      left := if read.isEmpty then some .fromServer else none }
  else some t

def readFromClient (t : Tunnel) (isset : Bool) (read : Bytes) : Option Tunnel :=
  if isset && t.left.isNone then
    if t.clientBufIn.buf.freecapa tunnelBufSize < read.length then none
    else some { t with
      clientBufIn := t.clientBufIn.sysread read
      left := if read.isEmpty then some .fromClient else none }
  else some t

/-- One pass. -/
def pass (t : Tunnel) (io : TunnelIo) : Option Tunnel :=
  if t.left.isSome then none
  else
    match io.select with
    | none => some { t with left := some .select }
    | some ready =>
      (t.sendToServer (t.wanted.serverWrite && ready.serverWrite) io.toServer).bind (fun t1 =>
      (t1.sendToClient (t.wanted.clientWrite && ready.clientWrite) io.toClient).bind (fun t2 =>
      (t2.readFromServer (t.wanted.serverRead && ready.serverRead) io.fromServer).bind (fun t3 =>
      t3.readFromClient (t.wanted.clientRead && ready.clientRead) io.fromClient)))

def run (t : Tunnel) (ios : List TunnelIo) : Option Tunnel := runs pass t ios

end Tunnel

def tunnelEstablished : Bytes := lit "HTTP/1.0 200 Connection established\r\n\r\n"

def tunnelError (sErr : Bytes) : Bytes := lit "HTTP/1.0 502 CONNECT error: " ++ sErr ++ lit "\r\n\r\n"

/-- The way to the target: direct, through the tunnel of the proxy, or direct because the proxy is
optional and cannot be reached. The last result tells whether that is remembered. -/
def connectTarget (cfg : FailoverCfg) (a : Attempts) : Except Bytes Unit × Bool :=
  match a.proxyInfo with
  | none => (a.first, false)
  | some _ =>
    match a.first with
    | .ok () => (a.tunnel, false)
    | .error sErr => if 0 < cfg.optproxytimeout then (a.second, true) else (.error sErr, false)

/-- What becomes of a CONNECT that is allowed. -/
inductive PassingThrough
  | badUrl
  | refused (answer : Bytes)
  | opened (t : Tunnel)
deriving DecidableEq, Repr

/-- `RawPassThrough::PassThrough` up to its loop. -/
def passThrough (cfg : FailoverCfg) (a : Attempts) (clientBufIn : AcBuf) (uri : Bytes) : PassingThrough :=
  match HttpUrl.setHttpUrl uri true with
  | none => .badUrl
  | some _ =>
    match (connectTarget cfg a).1 with
    | .error sErr => .refused (tunnelError sErr)
    | .ok () => .opened {
        clientBufIn := { buf := clientBufIn }
        clientBufOut := { buf := { data := tunnelEstablished } } }

end Acng
