import Acng.DlConn
import Acng.Proofs.Answer
import Mathlib.Data.List.Forall2

namespace Acng
open Lib

/-- A pipelined GET job with an item that has no file yet. -/
structure FreshJob (p : PipeJob) : Prop where
  item : ∃ path attr refs, attr.bHeadOnly = false ∧ attr.bNoStore = false ∧
    p.fi = { FileItem.setup { sPathRel := path, spattr := attr } with nDlRefsCount := refs }
  waiting : p.job.Waiting
  store : p.job.bAllowStoreData = true

theorem setup_fresh (path : Bytes) (attr : SpecialPurposeAttr) (h : attr.bHeadOnly = false) :
    FileItem.setup { sPathRel := path, spattr := attr } =
      { sPathRel := path, spattr := { attr with bVolatile := true }, status := .inited
        responseStatus := ⟨200, lit "OK"⟩ } := by
  obtain ⟨vol, headOnly, noStore, limit⟩ := attr
  simp only at h
  subst h
  cases vol <;> rfl

/-- What a fresh item is, field by field. -/
structure FreshItem (fi : FileItem) : Prop where
  startable : fi.Startable
  isVolatile : fi.isVolatile = true
  file : fi.disk.file = none

theorem FreshJob.fresh (p : PipeJob) (h : FreshJob p) : FreshItem p.fi := by
  obtain ⟨path, attr, refs, hh, hn, he⟩ := h.item
  rw [setup_fresh path attr hh] at he
  rw [he]
  exact ⟨⟨(by decide : FiStatus.inited ≤ .dlPending), (by decide : (-1 : Int) ≤ 0), rfl, hn, hh⟩, rfl, rfl⟩

/-- The item holds exactly this body and says so. -/
structure Delivered (body : Bytes) (fi : FileItem) : Prop where
  file : fi.disk.file.getD [] = body
  status : fi.status = .complete
  size : fi.nSizeChecked = body.length

theorem FileItem.dlRefCountDec_complete (fi : FileItem) (reason : RemoteStatus)
    (h : .complete ≤ fi.status) :
    fi.dlRefCountDec reason =
      { fi with nDlRefsCount := (fi.nDlRefsCount + (2 ^ 32 - 1)) % 2 ^ 32 } := by
  unfold dlRefCountDec
  simp only [not_lt.mpr h, if_false, ite_self]

/-- The file of an item without one is what was received. -/
theorem receive_fresh (fi : FileItem) (data : Bytes) (hr : fi.Ready) (hc : fi.filefd = none)
    (hf : fi.disk.file = none) (hn : fi.nSizeChecked = 0) :
    (fi.receive true data).disk.file.getD [] = data ∧
      (fi.receive true data).nSizeChecked = data.length ∧
      (fi.receive true data).status ≤ .complete ∧
      (fi.receive true data).spattr = fi.spattr ∧ (fi.receive true data).sPathRel = fi.sPathRel := by
  by_cases hd : data = []
  · subst hd
    rw [FileItem.receive_nil, hf, hn]
    exact ⟨rfl, rfl, hr.2.1, rfl, rfl⟩
  · have hk : fi.keptFile = [] := by simp [FileItem.keptFile, hf]
    have ho : fi.ensureOpen = fi.opened := by simp [FileItem.ensureOpen, hc]
    have hp : fi.ensureOpen.filefd = some 0 := by simp [ho, FileItem.opened, hn]
    unfold FileItem.receive
    rw [if_pos ⟨rfl, hd⟩, FileItem.dlAddData_ready fi data hr 0 hp, ho]
    have hst : fi.opened.status = .dlReceiving := rfl
    refine ⟨?_, ?_, ?_, rfl, rfl⟩
    · simp [FileItem.writeChunk, FileItem.opened, hk, FileItem.writeAt]
    · simp [FileItem.writeChunk, FileItem.opened, hn]
    · simp only [FileItem.writeChunk, hst]
      decide

namespace Dl

/-- The job at the front, somewhere in its answer. -/
structure AtFront (env : Env) (p0 : PipeJob) (r : Response) (unread rest : Bytes) (p : PipeJob)
    (buf : Bytes) (d0 : Dl) : Prop where
  fresh : FreshJob p0
  accepted : Accepted env p0.job p0.fi r d0
  serving : Serving p0.job p0.fi r d0 unread rest ⟨p.job, p.fi, buf⟩
  suffix : buf ++ unread <:+ r.encode ++ rest

theorem AtFront.start (env : Env) (p : PipeJob) (r : Response) (buf unread rest : Bytes)
    (hp : FreshJob p) (ht : buf ++ unread = r.encode ++ rest) :
    ∃ d0, AtFront env p r unread rest p buf d0 := by
  obtain ⟨d0, hacc⟩ := procHeader_response env p.job p.fi r hp.waiting (hp.fresh).startable
  exact ⟨d0, hp, hacc, .inl ⟨rfl, rfl, ht⟩, ht ▸ List.suffix_refl _⟩

/-- An item behind its accepted head, and what it may have received. -/
theorem AtFront.stored (env : Env) (p0 p : PipeJob) (r : Response) (unread rest buf : Bytes) (d0 : Dl)
    (h : AtFront env p0 r unread rest p buf d0) :
    d0.job.bAllowStoreData = true ∧ d0.fi.Ready ∧ d0.fi.filefd = none ∧ d0.fi.disk.file = none ∧
      d0.fi.nSizeChecked = 0 ∧ d0.fi.sPathRel = p0.fi.sPathRel ∧ d0.fi.spattr.bNoStore = false := by
  have hf := h.fresh.fresh
  obtain ⟨ha, raw, modDate, origin, status, announced, he⟩ :=
    h.accepted.stored hf.isVolatile h.fresh.store
  refine ⟨ha, h.accepted.ready ha, ?_, ?_, ?_, ?_, ?_⟩ <;> rw [he]
  · exact hf.startable.closed
  · exact hf.file
  · rfl
  · rfl
  · exact hf.startable.store

end Dl

/-- The same job with the same item, whatever happened to it. -/
def SameJob (p q : PipeJob) : Prop :=
  p.fi.sPathRel = q.fi.sPathRel ∧ p.job.remoteUri = q.job.remoteUri

theorem delivered_release (env : Env) (p0 p : PipeJob) (r : Response) (unread rest buf : Bytes)
    (d0 d' : Dl) (h : Dl.AtFront env p0 r unread rest p buf d0)
    (hf : d0.Finished unread r.body rest d') :
    Delivered r.body (PipeJob.release ⟨d'.job, d'.fi⟩).fi ∧
      SameJob (PipeJob.release ⟨d'.job, d'.fi⟩) p0 := by
  obtain ⟨ha, hr, hc, hfile, hn, hpath, hns⟩ := h.stored
  obtain ⟨hj, -, hfi⟩ := hf
  rw [ha] at hfi
  obtain ⟨hg, hsz, hst, hsp, hpa⟩ := receive_fresh d0.fi r.body hr hc hfile hn
  have hcomp : d'.fi.status = .complete := by
    rw [hfi]
    rw [FileItem.dlFinish_status _ _ _ (by rw [hsp, hns]), max_eq_right hst]
  obtain ⟨status, len, head, hfr⟩ :=
    FileItem.dlFinish_frame (d0.fi.receive true r.body) false .stored
  rw [hfr] at hfi
  have hrel : (PipeJob.release ⟨d'.job, d'.fi⟩).fi =
      { d'.fi with nDlRefsCount := (d'.fi.nDlRefsCount + (2 ^ 32 - 1)) % 2 ^ 32 } := by
    simp only [PipeJob.release]
    rw [FileItem.dlRefCountDec_complete d'.fi _ (le_of_eq hcomp.symm)]
  refine ⟨⟨?_, ?_, ?_⟩, ?_, ?_⟩
  · rw [hrel, hfi]
    exact hg
  · rw [hrel]
    exact hcomp
  · rw [hrel, hfi]
    exact hsz
  · rw [hrel, hfi]
    exact hpa.trans hpath
  · exact (by rw [hj] : d'.job.remoteUri = d0.job.remoteUri).trans h.accepted.uri

def encodeAll (rs : List Response) : Bytes := rs.flatMap Response.encode

theorem encodeAll_ne (r : Response) (rs : List Response) : encodeAll (r :: rs) ≠ [] := by
  simp [encodeAll, Response.encode, r.head_ne]

/-- The queue and the text to come fit together: the front job is somewhere in
the first answer, the other jobs have not been touched. -/
inductive Lined (env : Env) (buf unread : Bytes) :
    List PipeJob → List PipeJob → List Response → Prop
  | mk (p0 p : PipeJob) (queue : List PipeJob) (r : Response) (rs : List Response) (d0 : Dl)
      (front : Dl.AtFront env p0 r unread (encodeAll rs) p buf d0) (len : queue.length = rs.length)
      (fresh : ∀ q ∈ queue, FreshJob q) : Lined env buf unread (p0 :: queue) (p :: queue) (r :: rs)

theorem Lined.start (env : Env) (queue : List PipeJob) (rs : List Response) (buf unread : Bytes)
    (hq : ∀ p ∈ queue, FreshJob p) (hl : queue.length = rs.length) (hne : rs ≠ [])
    (ht : buf ++ unread = encodeAll rs) : Lined env buf unread queue queue rs := by
  cases rs with
  | nil => exact absurd rfl hne
  | cons r rs =>
    cases queue with
    | nil => simp at hl
    | cons p queue =>
      obtain ⟨d0, h0⟩ := Dl.AtFront.start env p r buf unread (encodeAll rs) (hq p (by simp))
        (by simpa [encodeAll] using ht)
      exact .mk p p queue r rs d0 h0 (by simpa using hl) (fun q hm => hq q (List.mem_cons_of_mem _ hm))

/-- Finished jobs, in the order of the queue, with the bodies of their answers. -/
structure InOrder (orig : List PipeJob) (rs : List Response) (done : List PipeJob) : Prop where
  bodies : List.Forall₂ (fun p r => Delivered r.body p.fi) done rs
  jobs : List.Forall₂ SameJob done orig

theorem InOrder.append (o1 o2 d1 d2 : List PipeJob) (r1 r2 : List Response) (h1 : InOrder o1 r1 d1)
    (h2 : InOrder o2 r2 d2) : InOrder (o1 ++ o2) (r1 ++ r2) (d1 ++ d2) :=
  ⟨List.rel_append h1.bodies h2.bodies, List.rel_append h1.jobs h2.jobs⟩

/-- Some jobs are finished, the others are in line with the rest of the text. -/
def Advanced (env : Env) (orig : List PipeJob) (rs : List Response) (left : List PipeJob)
    (unread : Bytes) (x : Exchange) : Prop :=
  ∃ o1 o2 r1 r2 done, orig = o1 ++ o2 ∧ rs = r1 ++ r2 ∧ x.left = left ++ done ∧ InOrder o1 r1 done ∧
    Lined env x.inBuf unread o2 x.queue r2

/-- Every job is finished and every byte is used. -/
def AllDone (orig : List PipeJob) (rs : List Response) (left : List PipeJob) (unread : Bytes)
    (x : Exchange) : Prop :=
  x.queue = [] ∧ x.inBuf ++ unread = [] ∧ ∃ done, x.left = left ++ done ∧ InOrder orig rs done

theorem Advanced.refl (env : Env) (orig : List PipeJob) (rs : List Response) (unread : Bytes)
    (x : Exchange) (h : Lined env x.inBuf unread orig x.queue rs) :
    Advanced env orig rs x.left unread x :=
  ⟨[], orig, [], rs, [], rfl, rfl, by simp, ⟨.nil, .nil⟩, h⟩

theorem Advanced.prepend (env : Env) (o1 o2 : List PipeJob) (r1 r2 : List Response)
    (left done : List PipeJob) (unread : Bytes) (x : Exchange) (h : InOrder o1 r1 done)
    (ha : Advanced env o2 r2 (left ++ done) unread x) :
    Advanced env (o1 ++ o2) (r1 ++ r2) left unread x := by
  obtain ⟨p1, p2, s1, s2, done', rfl, rfl, hl, ho, hlin⟩ := ha
  exact ⟨o1 ++ p1, p2, r1 ++ s1, s2, done ++ done', by simp, by simp, by simp [hl],
    h.append _ _ _ _ _ _ ho, hlin⟩

theorem AllDone.prepend (o1 o2 : List PipeJob) (r1 r2 : List Response) (left done : List PipeJob)
    (unread : Bytes) (x : Exchange) (h : InOrder o1 r1 done)
    (ha : AllDone o2 r2 (left ++ done) unread x) : AllDone (o1 ++ o2) (r1 ++ r2) left unread x := by
  obtain ⟨hq, hb, done', hl, ho⟩ := ha
  exact ⟨hq, hb, done ++ done', by simp [hl], h.append _ _ _ _ _ _ ho⟩

/-- Where a run over the buffer can end: with work left and more to be read, or
with everything done. -/
def QueueEnd (env : Env) (orig : List PipeJob) (rs : List Response) (left : List PipeJob)
    (unread : Bytes) (out : Exchange × Option Nat) : Prop :=
  ((out.2 = none ∨ out.2 = some HINT_DONE) ∧ unread ≠ [] ∧ Advanced env orig rs left unread out.1) ∨
    (out.2 = some HINT_SWITCH ∧ AllDone orig rs left unread out.1)

/-- The loop over the buffer keeps the queue and the text in line. -/
theorem procQueue_lined (env : Env) (orig queue : List PipeJob) (rs : List Response) (unread : Bytes)
    (x : Exchange) (h : Lined env x.inBuf unread orig queue rs) (hne : x.inBuf ++ unread ≠ []) :
    QueueEnd env orig rs x.left unread (Exchange.procQueue env {} x queue) := by
  induction queue generalizing orig rs x with
  | nil => cases h
  | cons p queue ih =>
    cases h with
    | mk p0 _ _ r rs d0 hfront hlen hfresh =>
        unfold Exchange.procQueue
        by_cases hb : x.inBuf.isEmpty = true
        · have hb' : x.inBuf = [] := List.isEmpty_iff.mp hb
          rw [if_pos hb]
          refine .inl ⟨.inr rfl, fun hu => hne (by rw [hb', hu]; rfl), ?_⟩
          exact Advanced.refl env _ _ unread { x with queue := p :: queue }
            (.mk p0 p queue r rs d0 hfront hlen hfresh)
        · rw [if_neg hb]
          have hsuf := Dl.processIncomming_suffix env {} false ⟨p.job, p.fi, x.inBuf⟩
          have hserve := Dl.processIncomming_serving env p0.job p0.fi r d0 ⟨p.job, p.fi, x.inBuf⟩
            unread (encodeAll rs) hfront.accepted hfront.fresh.waiting.state hfront.serving
          unfold PipeJob.process
          generalize Dl.processIncomming env {} false ⟨p.job, p.fi, x.inBuf⟩ = out at hsuf hserve
          obtain ⟨d', res⟩ := out
          simp only at hsuf hserve ⊢
          rcases hserve with ⟨rfl, hu, hs⟩ | ⟨rfl, hfin⟩
          · rw [if_pos rfl]
            have htext : d'.buf ++ unread <:+ r.encode ++ encodeAll rs := by
              obtain ⟨used, hused⟩ := hsuf
              refine List.IsSuffix.trans ⟨used, ?_⟩ hfront.suffix
              rw [← List.append_assoc, hused]
            exact .inl ⟨.inl rfl, hu, Advanced.refl env _ _ unread
              { x with queue := ⟨d'.job, d'.fi⟩ :: queue, inBuf := d'.buf }
              (.mk p0 _ queue r rs d0 ⟨hfront.fresh, hfront.accepted, hs, htext⟩ hlen hfresh)⟩
          · rw [if_neg (by decide), if_pos (by decide), if_neg (by decide)]
            have hdel := delivered_release env p0 p r unread _ _ d0 d' hfront hfin
            have hone : InOrder [p0] [r] [PipeJob.release ⟨d'.job, d'.fi⟩] :=
              ⟨.cons hdel.1 .nil, .cons hdel.2 .nil⟩
            have hrest : d'.buf ++ unread = encodeAll rs := hfin.2.1
            cases rs with
            | nil =>
              have hq : queue = [] := List.length_eq_zero_iff.mp hlen
              subst hq
              rw [if_pos List.isEmpty_nil]
              exact .inr ⟨rfl, rfl, hrest, _, rfl, hone⟩
            | cons r' rs =>
              have hq : queue.isEmpty = false := by
                cases queue with
                | nil => simp at hlen
                | cons q queue => rfl
              rw [hq, if_neg (by simp)]
              have hl' : Lined env d'.buf unread queue queue (r' :: rs) :=
                Lined.start env queue (r' :: rs) d'.buf unread hfresh hlen (by simp) hrest
              rcases ih queue (r' :: rs)
                { x with queue := queue, inBuf := d'.buf,
                         left := x.left ++ [PipeJob.release ⟨d'.job, d'.fi⟩] } hl'
                (by simp only [hrest]; exact encodeAll_ne r' rs) with ⟨hres, hu, ha⟩ | ⟨hres, ha⟩
              · exact .inl ⟨hres, hu, Advanced.prepend env [p0] queue [r] _ _ _ unread _ hone ha⟩
              · exact .inr ⟨hres, AllDone.prepend [p0] queue [r] _ _ _ unread _ hone ha⟩

theorem procData_once (env : Env) (io : Io) (n : Nat) (x : Exchange)
    (h : (Exchange.procQueue env io x x.queue).2 ≠ some HINT_RECONNECT_SOON) :
    Exchange.procData env io (n + 1) x = Exchange.procQueue env io x x.queue := by
  unfold Exchange.procData
  generalize Exchange.procQueue env io x x.queue = out at h ⊢
  obtain ⟨x', res⟩ := out
  cases res with
  | none => rfl
  | some res =>
    simp only
    rw [if_neg]
    rintro rfl
    exact h rfl

theorem Lined.read (env : Env) (orig queue : List PipeJob) (rs : List Response) (buf r unread : Bytes)
    (h : Lined env buf (r ++ unread) orig queue rs) : Lined env (buf ++ r) unread orig queue rs := by
  cases h with
  | mk p0 p queue a rs d0 hf hl hfr =>
    refine .mk p0 p queue a rs d0 ⟨hf.fresh, hf.accepted, ?_, by simpa using hf.suffix⟩ hl hfr
    exact Dl.Serving.read p0.job p0.fi a d0 ⟨p.job, p.fi, buf⟩ r unread _ hf.serving

theorem receive_lined (env : Env) (orig : List PipeJob) (rs : List Response) (x : Exchange)
    (r unread : Bytes) (hr : r ≠ []) (h : Lined env x.inBuf (r ++ unread) orig x.queue rs) :
    QueueEnd env orig rs x.left unread (Exchange.receive env {} x r) := by
  have hend := procQueue_lined env orig x.queue rs unread { x with inBuf := x.inBuf ++ r }
    (Lined.read env orig x.queue rs x.inBuf r unread h) (by simp [hr])
  unfold Exchange.receive
  obtain ⟨n, hn⟩ : ∃ n, x.inBuf.length + r.length = n + 1 := by
    have := List.length_pos_iff.mpr hr
    exact ⟨x.inBuf.length + r.length - 1, by omega⟩
  rw [hn, procData_once]
  · exact hend
  · intro he
    rcases hend with ⟨hres | hres, -⟩ | ⟨hres, -⟩
    · exact absurd (hres.symm.trans he) (by simp)
    · exact absurd (hres.symm.trans he) (by decide)
    · exact absurd (hres.symm.trans he) (by decide)

/-- Run lemma: a series of reads leaves the queue in line with what follows, and
something follows, or everything is done. -/
theorem serve_lined (env : Env) (orig : List PipeJob) (rs : List Response) (x : Exchange)
    (reads : List Bytes) (future : Bytes) (hne : ∀ r ∈ reads, r ≠ [])
    (h : Lined env x.inBuf (reads.flatten ++ future) orig x.queue rs) :
    ((reads ≠ [] → future ≠ []) ∧
        Advanced env orig rs x.left future (Exchange.serve env {} x reads).x) ∨
      AllDone orig rs x.left ((Exchange.serve env {} x reads).unread.flatten ++ future)
        (Exchange.serve env {} x reads).x := by
  induction reads generalizing x orig rs with
  | nil => exact .inl ⟨fun hn => absurd rfl hn, Advanced.refl env orig rs future x (by simpa using h)⟩
  | cons r reads ih =>
    have hend := receive_lined env orig rs x r (reads.flatten ++ future) (hne r (by simp))
      (by simpa using h)
    unfold Exchange.serve
    generalize Exchange.receive env {} x r = out at hend ⊢
    obtain ⟨x', res⟩ := out
    have hgo : reads.flatten ++ future ≠ [] →
        Advanced env orig rs x.left (reads.flatten ++ future) x' →
        ((r :: reads ≠ [] → future ≠ []) ∧
            Advanced env orig rs x.left future (Exchange.serve env {} x' reads).x) ∨
          AllDone orig rs x.left ((Exchange.serve env {} x' reads).unread.flatten ++ future)
            (Exchange.serve env {} x' reads).x := by
      rintro hu ⟨o1, o2, r1, r2, done, rfl, rfl, hleft, hord, hlin⟩
      rcases ih o2 r2 x' (fun s hs => hne s (List.mem_cons_of_mem _ hs)) hlin with ⟨hf, ha⟩ | ha
      · rw [hleft] at ha
        refine .inl ⟨?_, Advanced.prepend env o1 o2 r1 r2 _ _ future _ hord ha⟩
        intro _
        by_cases hr : reads = []
        · simpa [hr] using hu
        · exact hf hr
      · rw [hleft] at ha
        exact .inr (AllDone.prepend o1 o2 r1 r2 _ _ _ _ hord ha)
    rcases hend with ⟨hres | hres, hu, ha⟩ | ⟨hres, ha⟩ <;> simp only at hres ha <;> subst hres
    · exact hgo hu ha
    · simp only [if_true]
      exact hgo hu ha
    · simp only
      rw [if_neg (by decide)]
      exact .inr ha

theorem Dl.Remaining.rest_suffix (st : StreamState) (n : Nat) (text out rest : Bytes)
    (h : Dl.Remaining st n text out rest) : rest <:+ text := by
  cases h with
  | plain => exact List.suffix_append _ _
  | chunkHead => exact List.suffix_append _ _
  | chunkData p b =>
    rw [← List.append_assoc]
    exact List.suffix_append _ _
  | trailer => exact List.suffix_append _ _
  | finish => exact List.suffix_refl _

/-- What the front job has used up is a part of its own answer, and its item holds
a part of that body. -/
theorem Dl.AtFront.inside (env : Env) (p0 p : PipeJob) (r : Response) (unread rest buf : Bytes)
    (d0 : Dl) (h : Dl.AtFront env p0 r unread rest p buf d0) :
    ∃ used left, r.encode = used ++ left ∧ buf ++ unread = left ++ rest ∧
      p.fi.disk.file.getD [] <+: r.body := by
  have hrest : rest <:+ buf ++ unread ∧ p.fi.disk.file.getD [] <+: r.body := by
    rcases h.serving with ⟨-, hfi, ht⟩ | ⟨-, now, out, ho, hfi, hr⟩
    · refine ⟨by rw [show buf ++ unread = _ from ht]; exact List.suffix_append _ _, ?_⟩
      rw [show p.fi = p0.fi from hfi, h.fresh.fresh.file]
      exact List.nil_prefix
    · refine ⟨Remaining.rest_suffix _ _ _ _ _ hr, ?_⟩
      obtain ⟨ha, hready, hc, hfile, hn, -⟩ := h.stored
      rw [show p.fi = _ from hfi, ha, (receive_fresh d0.fi now hready hc hfile hn).1, ho]
      exact List.prefix_append _ _
  obtain ⟨left, hleft⟩ := hrest.1
  obtain ⟨used, hused⟩ := h.suffix
  refine ⟨used, left, ?_, hleft.symm, hrest.2⟩
  rw [← hleft, ← List.append_assoc] at hused
  exact (List.append_cancel_right hused).symm

/-- The state after some of the text was received: the finished jobs have used up
exactly their own answers, and the front job a part of its own. -/
def InStep (queue : List PipeJob) (rs : List Response) (text : Bytes) (x : Exchange) : Prop :=
  ∃ o1 o2 r1 r2, queue = o1 ++ o2 ∧ rs = r1 ++ r2 ∧ InOrder o1 r1 x.left ∧
    ((x.queue = [] ∧ o2 = [] ∧ r2 = [] ∧ text = encodeAll r1 ∧ x.inBuf = []) ∨
      ∃ p r used left, x.queue = p :: o2.tail ∧ r2.head? = some r ∧ r.encode = used ++ left ∧
        text = encodeAll r1 ++ used ++ x.inBuf ∧ p.fi.disk.file.getD [] <+: r.body)

theorem Advanced.inStep (env : Env) (queue : List PipeJob) (rs : List Response) (text future : Bytes)
    (x : Exchange) (ht : text ++ future = encodeAll rs) (h : Advanced env queue rs [] future x) :
    InStep queue rs text x := by
  obtain ⟨o1, o2, r1, r2, done, rfl, rfl, hleft, hord, hlin⟩ := h
  rw [List.nil_append] at hleft
  subst hleft
  generalize hq : x.queue = q at hlin
  cases hlin with
  | mk p0 p q r rs d0 hfront hlen hfresh =>
    obtain ⟨used, left, henc, hbuf, hfile⟩ := hfront.inside
    refine ⟨o1, p0 :: q, r1, r :: rs, rfl, rfl, hord, .inr ⟨p, r, used, left, hq, rfl, henc, ?_, hfile⟩⟩
    have : text ++ future = encodeAll r1 ++ used ++ x.inBuf ++ future := by
      rw [ht, List.append_assoc _ x.inBuf, hbuf]
      simp [encodeAll, henc]
    exact List.append_cancel_right this

theorem AllDone.inStep (queue : List PipeJob) (rs : List Response) (text unread future : Bytes)
    (x : Exchange) (ht : text ++ future = encodeAll rs) (h : AllDone queue rs [] (unread ++ future) x) :
    InStep queue rs text x := by
  obtain ⟨hq, hb, done, hleft, hord⟩ := h
  obtain ⟨hbuf, hu⟩ := List.append_eq_nil_iff.mp hb
  obtain ⟨-, rfl⟩ := List.append_eq_nil_iff.mp hu
  rw [List.nil_append] at hleft
  subst hleft
  exact ⟨queue, [], rs, [], by simp, by simp, hord, .inl ⟨hq, rfl, rfl, by simpa using ht, hbuf⟩⟩

theorem serve_unread (env : Env) (io : Io) (x : Exchange) (reads : List Bytes) :
    (Exchange.serve env io x reads).unread <:+ reads := by
  induction reads generalizing x with
  | nil => exact List.suffix_refl _
  | cons r reads ih =>
    have hcons : reads <:+ r :: reads := List.suffix_cons r reads
    unfold Exchange.serve
    generalize Exchange.receive env io x r = out
    obtain ⟨x', res⟩ := out
    cases res with
    | none => exact (ih x').trans hcons
    | some res =>
      simp only
      split
      · exact (ih x').trans hcons
      · exact hcons

/-- Pipelined delivery: in whatever pieces the answers arrive, each job gets the
body of its own answer, the jobs leave in order, and at no time has a job used a
byte of another answer. -/
theorem pipelined_delivery (env : Env) (queue : List PipeJob) (rs : List Response)
    (reads : List Bytes) (hq : ∀ p ∈ queue, FreshJob p) (hlen : queue.length = rs.length)
    (hne : ∀ r ∈ reads, r ≠ []) (ht : reads.flatten = encodeAll rs) :
    (Exchange.serve env {} { queue := queue } reads).x.queue = [] ∧
      (Exchange.serve env {} { queue := queue } reads).x.inBuf = [] ∧
      (Exchange.serve env {} { queue := queue } reads).unread = [] ∧
      InOrder queue rs (Exchange.serve env {} { queue := queue } reads).x.left ∧
      ∀ k, InStep queue rs (reads.take k).flatten
        (Exchange.serve env {} { queue := queue } (reads.take k)).x := by
  cases rs with
  | nil =>
    have hqn : queue = [] := List.length_eq_zero_iff.mp hlen
    have hrn : reads = [] := by
      cases reads with
      | nil => rfl
      | cons r reads => simp [encodeAll, hne r (by simp)] at ht
    subst hqn hrn
    refine ⟨rfl, rfl, rfl, ⟨.nil, .nil⟩, fun k => ?_⟩
    rw [List.take_nil]
    exact ⟨[], [], [], [], rfl, rfl, ⟨.nil, .nil⟩, .inl ⟨rfl, rfl, rfl, rfl, rfl⟩⟩
  | cons r rs =>
    have hstart : ∀ unread, unread = encodeAll (r :: rs) →
        Lined env [] unread queue queue (r :: rs) := fun unread hu =>
      Lined.start env queue (r :: rs) [] unread hq hlen (by simp) (by simpa using hu)
    have hsome : reads ≠ [] := by
      rintro rfl
      exact encodeAll_ne r rs ht.symm
    have hall : AllDone queue (r :: rs) []
        (Exchange.serve env {} { queue := queue } reads).unread.flatten
        (Exchange.serve env {} { queue := queue } reads).x := by
      rcases serve_lined env queue (r :: rs) { queue := queue } reads [] hne
        (hstart _ (by simpa using ht)) with ⟨hf, -⟩ | ha
      · exact absurd rfl (hf hsome)
      · simpa using ha
    obtain ⟨hq0, hb0, done, hleft, hord⟩ := hall
    obtain ⟨hbuf, hun⟩ := List.append_eq_nil_iff.mp hb0
    refine ⟨hq0, hbuf, ?_, ?_, ?_⟩
    · have hsub := (serve_unread env {} { queue := queue } reads).subset
      cases hu : (Exchange.serve env {} { queue := queue } reads).unread with
      | nil => rfl
      | cons s l =>
        rw [hu] at hun hsub
        simp [hne s (hsub (by simp))] at hun
    · rw [hleft]
      exact hord
    · intro k
      have hsplit : (reads.take k).flatten ++ (reads.drop k).flatten = encodeAll (r :: rs) := by
        rw [← List.flatten_append, List.take_append_drop, ht]
      rcases serve_lined env queue (r :: rs) { queue := queue } (reads.take k) (reads.drop k).flatten
        (fun s hs => hne s (List.mem_of_mem_take hs)) (hstart _ hsplit) with ⟨-, ha⟩ | ha
      · exact ha.inStep env queue (r :: rs) _ _ _ hsplit
      · exact ha.inStep queue (r :: rs) _ _ _ _ hsplit

def freshJob (path : Bytes) : PipeJob :=
  { job := {}, fi := { FileItem.setup { sPathRel := path } with nDlRefsCount := 1 } }

theorem freshJob_fresh (path : Bytes) : FreshJob (freshJob path) :=
  ⟨⟨path, {}, 1, rfl, rfl, rfl⟩, ⟨rfl, rfl, rfl⟩, rfl⟩

/-- Two answers in one stream, cut inside a head, a size line and a line end. -/
theorem pipelined_delivery_two :
    InOrder [freshJob (lit "a"), freshJob (lit "b")] [plainAnswer, chunkedAnswer]
      (Exchange.serve plainEnv {} { queue := [freshJob (lit "a"), freshJob (lit "b")] }
        [plainAnswer.encode ++ chunkedHead.take 9, chunkedHead.drop 9 ++ lit "5;x",
          lit "=y\r\nhello\r", lit "\n0\r\nA: b\r\n\r\n"]).x.left :=
  (pipelined_delivery plainEnv [freshJob (lit "a"), freshJob (lit "b")] [plainAnswer, chunkedAnswer]
    _ (by intro p hp
          rcases List.mem_cons.mp hp with rfl | hp
          · exact freshJob_fresh _
          · rw [List.mem_singleton.mp hp]
            exact freshJob_fresh _)
    rfl (by decide) (by decide)).2.2.2.1

end Acng
