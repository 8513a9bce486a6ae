import Acng.DlJob
import Acng.Lib.Runs

namespace Acng
open Lib

/-- Result of one `write` to the data file. After an interrupted one the loop goes on with the
byte in front of its data. -/
inductive WriteResult
  | wrote (n : Nat)
  | interrupted (front : UInt8)
  | failed
deriving DecidableEq, Repr

/-- What is added to `m_nSizeChecked`. -/
def WriteResult.net : WriteResult → Int
  | .wrote n => n
  | .interrupted _ => -1
  | .failed => 0

namespace FileItem

/-- The write loop of `DlAddData`, call by call. There is no result if the given calls are not
those that it makes. -/
def writeLoop (fi : FileItem) (pos : Nat) (chunk : Bytes) :
    List WriteResult → Option (Bool × FileItem)
  | [] => if chunk.isEmpty then some (true, fi) else none
  | w :: ws =>
    if chunk.isEmpty then none
    else
      match w with
      | .wrote n =>
        if n ≤ chunk.length then (fi.writeChunk pos (chunk.take n)).writeLoop (pos + n) (chunk.drop n) ws
        else none
      | .interrupted front =>
        -- the result -1 is added to the size and removed from the front
        { fi with nSizeChecked := fi.nSizeChecked - 1 }.writeLoop pos (front :: chunk) ws
      | .failed => if ws.isEmpty then some (false, fi.withError) else none

/-- `fileitem_with_storage::DlAddData` with all its calls of `write`. -/
def dlAddDataBy (fi : FileItem) (chunk : Bytes) (io : StoreIo) (writes : List WriteResult) :
    Option (Bool × FileItem) :=
  let early (r : Bool × FileItem) : Option (Bool × FileItem) := if writes.isEmpty then some r else none
  let fi := { fi with nIncommingCount := fi.nIncommingCount + chunk.length }
  let r := if fi.filefd.isNone then fi.safeOpenOutFile io else (true, fi)
  if !r.1 then early r
  else
    let fi := r.2
    match fi.filefd with
    | none => early (false, fi.withError)
    | some pos =>
      if fi.status < .dlGotHead then early (false, fi.withError)
      else if .complete < fi.status then early (false, fi)
      else fi.writeLoop pos chunk writes

end FileItem

/-- The calls that write the fields a reader of the item relies on. Each runs under the lock
of the item. The job that looks at a head may be any. -/
inductive Publish
  | checkAndSaveHeader (now : Int) (job : DlJob) (io : Io) (h : Header) (rawHeader : Nat) (contLen : Int)
  | dlStarted (rawHeader : Nat) (modDate : HttpDate) (origin : Bytes) (status : RemoteStatus)
      (bytes2seek bytesAnnounced : Int)
  | dlAddData (chunk : Bytes) (io : StoreIo) (writes : List WriteResult)
  | dlFinish (forceUpdateHeader : Bool) (io : HeadIo)
  | dlSetError (errState : RemoteStatus) (kmode : EDestroyMode)

/-- `CheckAndSaveHeader` has called `DlStarted` and was refused. The other ways to its result
are an item that is busy, and an error. -/
def Dl.startRefused (d : Dl) (r : ResponseEval × Dl) : Bool :=
  r.1 == .busyOrError && decide (d.fi.status < .complete) &&
    (d.job.bFileItemAssigned || decide (d.fi.status ≤ .dlPending)) && r.2.fi.status != .dlError

namespace Publish

/-- The item after a call, and whether a `DlStarted` was refused in it. -/
def apply (env : Env) (fi : FileItem) : Publish → Option (FileItem × Bool)
  | .checkAndSaveHeader now job io h rawHeader contLen =>
    let d : Dl := ⟨job, fi, []⟩
    let r := d.checkAndSaveHeader { env with now := now } io h rawHeader contLen
    some (r.2.fi, d.startRefused r)
  | .dlStarted rawHeader modDate origin status bytes2seek bytesAnnounced =>
    let r := fi.dlStarted env.dates rawHeader modDate origin status bytes2seek bytesAnnounced
    some (r.2, !r.1)
  | .dlAddData chunk io writes => (fi.dlAddDataBy chunk io writes).map (fun r => (r.2, false))
  | .dlFinish forceUpdateHeader io => some (fi.dlFinish forceUpdateHeader io, false)
  | .dlSetError errState kmode => some (fi.dlSetError errState kmode, false)

def run (env : Env) (fi : FileItem) (ops : List Publish) : Option FileItem :=
  runs (fun fi op => (apply env fi op).map (·.1)) fi ops

end Publish

namespace FileItem

/-- Neither the status nor a size that is known goes back. -/
structure Advances (fi fi' : FileItem) : Prop where
  status : fi.status ≤ fi'.status
  size : 0 ≤ fi.nSizeChecked → fi.nSizeChecked ≤ fi'.nSizeChecked

/-- Status, length, date and checked size are as they were. -/
structure Unmoved (fi fi' : FileItem) : Prop where
  status : fi'.status = fi.status
  length : fi'.nContentLength = fi.nContentLength
  date : fi'.responseModDate = fi.responseModDate
  size : fi'.nSizeChecked = fi.nSizeChecked

end FileItem

/-- Along the run nothing that is published is taken back, and a refused `DlStarted` does
not publish anything. -/
structure MonotonePublication (env : Env) (fi : FileItem) (ops : List Publish) : Prop where
  advances : ∀ pre mid post m n, ops = pre ++ (mid ++ post) → Publish.run env fi pre = some m →
    Publish.run env m mid = some n → m.Advances n
  refused : ∀ pre op post m n, ops = pre ++ op :: post → Publish.run env fi pre = some m →
    op.apply env m = some (n, true) → m.Unmoved n

end Acng
