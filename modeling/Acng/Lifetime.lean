import Acng.DlSystem

namespace Acng
open Lib

/-- An honest server of one file: what it has for each date that it gives out. -/
structure Origin (lib : DateLib) where
  content : HttpDate → Bytes
  fixed : ∀ a b : HttpDate, a.isSet = true → a.eq lib b = true → content a = content b

/-- A response: its head, the length that goes with the framing, and its body. -/
structure Reply where
  h : Header
  contLen : Int := -1
  body : Bytes

namespace Reply

def date (lib : DateLib) (r : Reply) : HttpDate := HttpDate.ofCStr lib (r.h.h .lastModified)

/-- The start and the total in the head of a partial response. -/
def range (r : Reply) : Option (Bytes × Bytes) := (r.h.h .contentRange).bind rangeSearch

/-- The whole file as it is now. Without a date it can be anything. -/
structure Full {lib : DateLib} (o : Origin lib) (r : Reply) : Prop where
  code : r.h.status.code = 200
  body : (r.date lib).isSet = true → r.body = o.content (r.date lib)
  length : r.contLen = -1 ∨ r.contLen = r.body.length

/-- What follows the requested offset, if the file is still the one of the request.
The total may be left open. -/
structure Part {lib : DateLib} (o : Origin lib) (rq : Request) (r : Reply) (known : HttpDate)
    (start : Nat) (first total : Bytes) : Prop where
  code : r.h.status.code = 206
  ifRange : rq.ifRange = some known
  same : (r.date lib).isSet = true → known.eq lib (r.date lib) = true
  asked : ∃ limit, rq.range = some ((start : Int), limit)
  range : r.range = some (first, total)
  first : strtoll first = start
  total : strtoll total = (o.content known).length ∨ total.head? = some 42
  inside : start < (o.content known).length
  body : r.body = (o.content known).drop start

/-- An answer of the origin to a request. -/
inductive Honest {lib : DateLib} (o : Origin lib) (rq : Request) (r : Reply) : Prop
  | full (h : Full o r)
  | part (known : HttpDate) (start : Nat) (first total : Bytes)
      (h : Part o rq r known start first total)

end Reply

/-- An item in use, with its job. `rest` is what the server is still to deliver. -/
structure Session where
  fi : FileItem
  job : DlJob
  request : Option Request := none
  rest : Option Bytes := none
  closed : Bool := false

/-- The cache path between two lifetimes of its item, or during one. -/
inductive Moment
  | idle (disk : Disk)
  | alive (s : Session)

namespace Session

def reply (env : Env) (s : Session) (now : Int) (raw : Nat) (r : Reply) : Session :=
  let (ev, d) := Dl.checkAndSaveHeader { env with now := now } {} ⟨s.job, s.fi, []⟩ r.h raw r.contLen
  match ev with
  | .good => { fi := d.fi, job := d.job, rest := some r.body }
  | _ => { fi := d.fi, job := d.job, closed := true }

/-- `NewDataHandler` on some bytes of the body. -/
def data (s : Session) (chunk rest : Bytes) : Session :=
  if s.job.bAllowStoreData then
    let (ok, fi) := s.fi.dlAddData chunk
    if ok then { s with fi := fi, rest := some rest }
    else { s with fi := fi, rest := none, closed := true }
  else { s with rest := some rest }

def finish (s : Session) : Session :=
  { s with fi := s.fi.dlFinish false, rest := none, closed := true }

/-- Once the download of the lifetime has begun, a partial response gives its total if
the item has none yet, and does not look like the answer to a probe. -/
def AcceptsPart (s : Session) (first total : Bytes) : Prop :=
  0 ≤ s.fi.nSizeChecked →
    (s.fi.nContentLength = -1 → total.head? ≠ some 42) ∧
      ¬ (s.fi.isVolatile = true ∧ strtoll first = s.fi.nSizeCachedInitial - 1 ∧
        strtoll total = s.fi.nSizeCachedInitial)

/-- The data file is not longer than what was received, if it was opened. -/
def LeavesNothing (s : Session) : Prop :=
  s.fi.filefd.isSome = true → ((s.fi.disk.file.getD []).length : Int) ≤ s.fi.nSizeChecked

end Session

/-- The histories of a cache path: lifetimes of GET items with storage, each with any
number of requests, answers of the origin, and bodies that are delivered in pieces
and may be cut off. All file operations succeed. With `strict` every answer and every
end of a lifetime meets its condition. -/
inductive History (env : Env) (o : Origin env.dates) (strict : Bool) : Moment → Prop
  | empty : History env o strict (.idle {})
  | setup {disk} (path : Bytes) (attr : SpecialPurposeAttr) (job : DlJob)
      (h : History env o strict (.idle disk)) (get : attr.bHeadOnly = false)
      (store : attr.bNoStore = false)
      (new : (∃ src, job = .new env.cfg
            (FileItem.setup { sPathRel := path, disk := disk, spattr := attr }) src) ∨
        ∃ repo rest, job = .newForRepo env.cfg
            (FileItem.setup { sPathRel := path, disk := disk, spattr := attr }) repo rest) :
      History env o strict (.alive
        { fi := (FileItem.setup { sPathRel := path, disk := disk, spattr := attr }).dlRefCountAdd
          job := job })
  | request {s} (backend : Option HttpUrl) (h : History env o strict (.alive s))
      (hc : s.closed = false) :
      History env o strict (.alive (
        let r := DlJob.appendRequest env.cfg
          { s.job.resetStreamState with pCurBackend := backend } s.fi
        { s with job := r.2, request := some r.1, rest := none }))
  | reply {s rq} (now : Int) (raw : Nat) (r : Reply) (h : History env o strict (.alive s))
      (hrq : s.request = some rq) (honest : r.Honest o rq)
      (ok : strict = true → r.h.status.code = 206 → ∀ first total, r.range = some (first, total) →
        s.AcceptsPart first total) :
      History env o strict (.alive (s.reply env now raw r))
  | data {s} (chunk rest : Bytes) (h : History env o strict (.alive s)) (hne : chunk ≠ [])
      (hrest : s.rest = some (chunk ++ rest)) : History env o strict (.alive (s.data chunk rest))
  | finish {s} (h : History env o strict (.alive s)) (hrest : s.rest = some []) :
      History env o strict (.alive s.finish)
  | lost {s} (h : History env o strict (.alive s)) :
      History env o strict (.alive { s with request := none, rest := none })
  | destroy {s} (h : History env o strict (.alive s)) (ok : strict = true → s.LeavesNothing) :
      History env o strict (.idle (PipeJob.release ⟨s.job, s.fi⟩).fi.destroy)

/-- A complete item has the bytes of the origin for the date that it carries. -/
def FileItem.Intact {lib : DateLib} (o : Origin lib) (fi : FileItem) : Prop :=
  fi.status = .complete → fi.responseStatus.code = 200 → fi.responseModDate.isSet = true →
    0 ≤ fi.nContentLength ∧
      (fi.disk.file.getD []).take fi.nContentLength.toNat = o.content fi.responseModDate

end Acng
