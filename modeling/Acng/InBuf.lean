import Acng.DlJob
import Acng.Lib.Runs

namespace Acng
open Lib

/-- A signed number as a `size_t`. -/
def sizeT (n : Int) : Nat := (n % 2 ^ 64).toNat

/-- `acbuf` with its memory and its indices. The NUL that `c_str` puts behind the data is left out. -/
structure InBuf where
  mem : Bytes
  r : Nat := 0
  w : Nat := 0
deriving DecidableEq, Repr

namespace InBuf

/-- `setsize` on a new buffer. -/
def setsize (capa : UInt32) : InBuf := { mem := List.replicate capa.toNat 0 }

def totalcapa (b : InBuf) : Nat := b.mem.length

/-- A difference of two `size_t` values, as an unsigned int. -/
def size (b : InBuf) : Nat := (b.w + (2 ^ 64 - b.r)) % 2 ^ 64 % 2 ^ 32

def freecapa (b : InBuf) : Nat := (b.totalcapa + (2 ^ 64 - b.w)) % 2 ^ 64 % 2 ^ 32

/-- The data between the indices. What is read once they have crossed lies outside of the memory. -/
def view (b : InBuf) : Bytes := (b.mem.take b.w).drop b.r

def clear (b : InBuf) : InBuf := { b with r := 0, w := 0 }

def drop (b : InBuf) (count : Nat) : InBuf :=
  let r := (b.r + count) % 2 ^ 64
  if r = b.w then b.clear else { b with r }

/-- For the worst case, move data to beginning to make space to read a complete new header. -/
def move (b : InBuf) : InBuf :=
  if b.r = 0 then b else { mem := b.view ++ b.mem.drop b.view.length, r := 0, w := b.w - b.r }

/-- `sysread`, or `got` behind a read of an SSL connection. -/
def sysread (b : InBuf) (read : Bytes) : InBuf :=
  { b with
    mem := b.mem.take b.w ++ read ++ b.mem.drop (b.w + read.length), w := b.w + read.length }

/-- What every reader of the buffer relies on. -/
def Ordered (b : InBuf) : Prop := b.r ≤ b.w ∧ b.w ≤ b.totalcapa

/-- No call of `drop` takes more than there is. -/
def DropsFit : InBuf → List Nat → Prop
  | _, [] => True
  | b, count :: counts => count ≤ b.size ∧ DropsFit (b.drop count) counts

end InBuf

namespace Dl

/-- The counts given to `drop` in the state `STATE_GETHEADER`. -/
def headDrops (env : Env) (bOnlyRedirectionActivity : Bool) (d : Dl) : List Nat :=
  let (n, st) := Header.load d.buf
  let h := st.hd
  if d.buf.isEmpty || n ≤ 0 || h.type ≠ .answer then []
  else if h.status.code < 200 then [n.toNat]
  else if env.cfg.redirmax ≠ 0 && h.status.isRedirect then
    -- the comparison is one of signed numbers
    let contLen := fieldNum h .contentLength 0
    if (d.job.rewriteSource (h.h .location)).1 && contLen ≤ d.buf.length then [sizeT contLen] else []
  else
    match d.headStep env bOnlyRedirectionActivity with
    | .ret _ _ => []
    | .save _ _ n _ _ => [n]

def dataDrops (io : Io) (d : Dl) : List Nat :=
  let n := min d.buf.length d.job.nRest
  if n = 0 then []
  else if d.job.bAllowStoreData && !(d.fi.dlAddData (d.buf.take n) io.store).1 then []
  else [n]

def chunkHeadDrops (d : Dl) : List Nat :=
  let rest := d.buf.dropWhile (fun c => c == 13 || c == 10)
  List.replicate (d.buf.length - rest.length) 1 ++
    match find crlf (cstr rest) with
    | none => []
    | some p => if (scanHex rest).isSome then [p + 2] else []

def trailerDrops (d : Dl) : List Nat :=
  if d.buf.length < 2 then []
  else
    match find crlf (cstr d.buf) with
    | none => []
    | some p => [p + 2]

/-- The counts given to `drop` in one pass of the loop in `ProcessIncomming`, in their order. -/
def drops (env : Env) (io : Io) (bOnlyRedirectionActivity : Bool) (d : Dl) : List Nat :=
  match d.job.dlState with
  | .getHeader => d.headDrops env bOnlyRedirectionActivity
  | .processData | .processChunkData => d.dataDrops io
  | .finishJob => []
  | .getChunkHead => d.chunkHeadDrops
  | .getChunkTrailer => d.trailerDrops

end Dl

/-- A job and its item at the input buffer of a connection. -/
structure Feeding where
  job : DlJob
  fi : FileItem
  inBuf : InBuf
deriving DecidableEq, Repr

/-- What happens to an input buffer. The connection reads into it, clears it when it has lost the
server, and lets its jobs process it; each of these may be in any state. -/
inductive BufAct
  | clear
  | read (bytes : Bytes)
  | turnTo (job : DlJob) (fi : FileItem)
  | pass (env : Env) (io : Io) (bOnlyRedirectionActivity : Bool)

namespace Feeding

def toDl (s : Feeding) : Dl := ⟨s.job, s.fi, s.inBuf.view⟩

/-- One pass of the loop in `ProcessIncomming`. -/
def pass (env : Env) (io : Io) (bOnlyRedirectionActivity : Bool) (s : Feeding) : Feeding × Option Nat :=
  let r := s.toDl.procStep env io bOnlyRedirectionActivity
  let inBuf := (s.toDl.drops env io bOnlyRedirectionActivity).foldl InBuf.drop s.inBuf
  -- the only state that makes space before it asks for more
  let inBuf := if s.job.dlState = .getChunkHead && r.2 = some HINT_MORE then inBuf.move else inBuf
  ({ job := r.1.job, fi := r.1.fi, inBuf }, r.2)

def step (s : Feeding) : BufAct → Option Feeding
  | .clear => some { s with inBuf := s.inBuf.clear }
  | .read bytes =>
    if bytes.length ≤ s.inBuf.freecapa then some { s with inBuf := s.inBuf.sysread bytes } else none
  | .turnTo job fi => some { s with job, fi }
  | .pass env io bOnly => some (s.pass env io bOnly).1

/-- A connection with a new buffer. -/
def start (capa : UInt32) (job : DlJob) (fi : FileItem) : Feeding := ⟨job, fi, InBuf.setsize capa⟩

end Feeding

end Acng
