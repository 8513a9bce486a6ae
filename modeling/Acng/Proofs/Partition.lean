import Acng.Proofs.Pipeline

namespace Acng
open Lib

/-- An interim head such as 102 or 103. -/
structure Interim where
  head : Bytes
  hd : Header
  loaded : (Header.load head).1 = head.length ∧ (Header.load head).2.hd = hd
  head_ne : head ≠ []
  answer : hd.type = .answer
  code : hd.status.code < 200

namespace Interim

/-- The head asks for the end of the connection. -/
def closes (i : Interim) : Bool := Dl.closeHint i.hd != 0

def encodeAll (is : List Interim) : Bytes := is.flatMap Interim.head

/-- Interim heads after which the loop goes back to `select`. -/
def plains (is : List Interim) : Nat := is.countP (fun i => !i.closes)

end Interim

/-- The number of reads from the one on that brings the first `n` bytes to an end. -/
def callsFrom : Nat → List Bytes → Nat
  | _, [] => 0
  | n, r :: reads => if n ≤ r.length then reads.length + 1 else callsFrom (n - r.length) reads

/-- With so many bytes in the buffer, every interim head is followed by enough
reads: one for each head from it on that sends the loop back to `select`, and one
more. -/
def InTime (is : List Interim) (avail : Nat) (reads : List Bytes) : Prop :=
  reads ≠ [] ∧ ∀ pre i suf, is = pre ++ i :: suf →
    Interim.plains (i :: suf) < callsFrom ((Interim.encodeAll (pre ++ [i])).length - avail) reads

theorem forall_split_cons (i : Interim) (is : List Interim) (P : List Interim → Interim → List Interim → Prop) :
    (∀ pre j suf, i :: is = pre ++ j :: suf → P pre j suf) ↔
      P [] i is ∧ ∀ pre j suf, is = pre ++ j :: suf → P (i :: pre) j suf := by
  constructor
  · intro h
    refine ⟨h [] i is rfl, ?_⟩
    rintro pre j suf rfl
    exact h (i :: pre) j suf rfl
  · rintro ⟨h0, h1⟩ pre j suf he
    cases pre with
    | nil =>
      obtain ⟨rfl, rfl⟩ := List.cons.inj he
      exact h0
    | cons k pre =>
      obtain ⟨rfl, ht⟩ := List.cons.inj he
      exact h1 pre j suf ht

namespace Dl

end Dl

/-- A job that waits for its first answer, with its item. -/
structure PipeJob.Startable (q : PipeJob) : Prop where
  waiting : q.job.Waiting
  item : q.fi.Startable

theorem PipeJob.Startable.request (cfg : Cfg) (q : PipeJob) (h : q.Startable) :
    (q.request cfg).Startable :=
  ⟨⟨h.waiting.state, h.waiting.free, h.waiting.get⟩, h.item⟩

/-- The job after interim heads: each one that asks for the end of the connection
has its request sent again. -/
def after (cfg : Cfg) (q : PipeJob) : List Interim → PipeJob
  | [] => q
  | i :: is => after cfg (if i.closes then q.request cfg else q) is

/-- The item of a finished job. -/
def finalItem (d0 : Dl) (r : Response) (reason : RemoteStatus) : FileItem :=
  ((d0.fi.receive d0.job.bAllowStoreData r.body).dlFinish false).dlRefCountDec reason

section Run

variable (env : Env) (r : Response) (tail : Bytes) (qf : PipeJob) (d0 : Dl)

/-- The item that the final response leaves. -/
def lastItem : FileItem :=
  finalItem d0 r
    ⟨503, if d0.job.sErrorMsg.isEmpty then lit "Download Expired" else d0.job.sErrorMsg⟩

/-- How a call with interim heads in front can end. The proposition tells whether
the final response will be finished. -/
inductive CallEnd (reads : List Bytes) (ok : Prop) : Exchange × Option Nat → Prop
  | wait (q : PipeJob) (is : List Interim) (buf : Bytes) (hq : q.Startable)
      (ha : after env.cfg q is = qf)
      (ht : buf ++ reads.flatten = Interim.encodeAll is ++ (r.encode ++ tail))
      (hok : ok ↔ InTime is buf.length reads) :
      CallEnd reads ok ({ queue := [q], inBuf := buf }, none)
  | mid (d : Dl) (hs : Dl.Serving qf.job qf.fi r d0 reads.flatten tail d) (hr : reads ≠ []) (hok : ok) :
      CallEnd reads ok ({ queue := [⟨d.job, d.fi⟩], inBuf := d.buf }, none)
  | done (p : PipeJob) (buf : Bytes) (hp : p.fi = lastItem r d0) (hb : buf ++ reads.flatten = tail)
      (hok : ok) : CallEnd reads ok ({ queue := [], inBuf := buf, left := [p] }, some HINT_SWITCH)

theorem CallEnd.congr (reads : List Bytes) (ok ok' : Prop) (out : Exchange × Option Nat)
    (h : CallEnd env r tail qf d0 reads ok out) (he : ok' ↔ ok) :
    CallEnd env r tail qf d0 reads ok' out := by
  cases h with
  | wait q is buf hq ha ht hok => exact .wait q is buf hq ha ht (he.trans hok)
  | mid d hs hr hok => exact .mid d hs hr (he.mpr hok)
  | done p buf hp hb hok => exact .done p buf hp hb (he.mpr hok)

end Run

theorem FreshJob.startable (p : PipeJob) (h : FreshJob p) : p.Startable :=
  ⟨h.waiting, h.fresh.startable⟩

end Acng
