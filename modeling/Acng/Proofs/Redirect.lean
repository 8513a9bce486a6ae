import Acng.Response
import Acng.DlConn
import Acng.Proofs.Load
import Acng.Proofs.Stream

namespace Acng
open Lib

/-- A complete redirect response with a body of its announced length. -/
structure RedirectAnswer where
  head : Bytes
  hd : Header
  body : Bytes
  loaded : (Header.load head).1 = head.length ∧ (Header.load head).2.hd = hd
  head_ne : head ≠ []
  answer : hd.type = .answer
  code : hd.status.isRedirect = true
  length : Dl.fieldNum hd .contentLength 0 = body.length

namespace RedirectAnswer

def encode (r : RedirectAnswer) : Bytes := r.head ++ r.body

def location (r : RedirectAnswer) : Option Bytes := r.hd.h .location

end RedirectAnswer

/-- A buffer of complete redirect responses. What follows them is not another one. -/
structure RedirectStream where
  responses : List RedirectAnswer
  tail : Bytes
  ends : ∀ r more, tail ≠ RedirectAnswer.encode r ++ more

namespace RedirectStream

def encodeAll (tail : Bytes) (rs : List RedirectAnswer) : Bytes :=
  rs.flatMap RedirectAnswer.encode ++ tail

/-- The inputs that start at each of the responses. -/
def startsOf (tail : Bytes) : List RedirectAnswer → List Bytes
  | [] => []
  | r :: rs => encodeAll tail (r :: rs) :: startsOf tail rs

def encode (s : RedirectStream) : Bytes := encodeAll s.tail s.responses

def starts (s : RedirectStream) : List Bytes := startsOf s.tail s.responses

end RedirectStream

/-- What a job is about to fetch. -/
def DlJob.target (j : DlJob) : HttpUrl × Option HttpUrl × Bool :=
  (j.remoteUri, j.pCurBackend, j.bBackendMode)

/-- The location in the head at the start of an input. -/
def locationAt (input : Bytes) : Option Bytes := (Header.load input).2.hd.h .location

/-- An input that rewrites the job: it starts with the complete head of a redirect
response whose location can be used. -/
def Redirects (j : DlJob) (input : Bytes) : Bool :=
  0 < (Header.load input).1 && (Header.load input).2.hd.type == .answer &&
    (Header.load input).2.hd.status.isRedirect && (j.rewriteSource (locationAt input)).1

theorem isRedirect_code (s : RemoteStatus) (h : s.isRedirect = true) : ¬ s.code < 200 := by
  simp only [RemoteStatus.isRedirect, Bool.or_eq_true, beq_iff_eq] at h
  omega

theorem rewriteSource_fail (j : DlJob) (loc : Option Bytes) (h : (j.rewriteSource loc).1 = false) :
    (j.rewriteSource loc).2.target = j.target := by
  unfold DlJob.rewriteSource at h ⊢
  simp only at h ⊢
  split
  · rfl
  · rename_i h1
    rw [if_neg h1] at h
    split
    · rfl
    · rename_i h2
      rw [if_neg h2] at h
      split
      · rename_i u hu
        simp only [hu] at h
        cases h
      · rename_i hu
        simp only [hu] at h
        split
        · rfl
        · rename_i b hb hc
          simp only [hb, hc] at h
          split at h <;> cases h
        · rename_i hb
          simp only [hb] at h
          split at h <;> cases h

namespace Dl

theorem closeHint_bits (h : Header) :
    closeHint h &&& HINT_TGTCHANGE = 0 ∧ closeHint h &&& HINT_DONE = 0 := by
  unfold closeHint
  split
  · split <;> decide
  · decide

theorem tgt_bit (c x : Nat) (hc : c &&& HINT_TGTCHANGE = 0) (hx : x &&& HINT_TGTCHANGE = 0) :
    (c ||| x) &&& HINT_TGTCHANGE = 0 := by
  rw [Nat.and_or_distrib_right, hc, hx]
  rfl

/-- The head of a redirect response at the start of the buffer. -/
theorem headStep_redirects (env : Env) (bOnly : Bool) (d : Dl) (hr : env.cfg.redirmax ≠ 0)
    (h : Redirects d.job d.buf = true) :
    d.headStep env bOnly = .ret
      { d with
        job := (d.job.rewriteSource (locationAt d.buf)).2
        buf := if (fieldNum (Header.load d.buf).2.hd .contentLength 0).toNat ≤ d.buf.length then
            d.buf.drop (fieldNum (Header.load d.buf).2.hd .contentLength 0).toNat
          else d.buf }
      (closeHint (Header.load d.buf).2.hd ||| HINT_TGTCHANGE) := by
  simp only [Redirects, Bool.and_eq_true, decide_eq_true_eq, beq_iff_eq] at h
  obtain ⟨⟨⟨hpos, hans⟩, hred⟩, hrw⟩ := h
  have hredir : (env.cfg.redirmax ≠ 0 && (Header.load d.buf).2.hd.status.isRedirect) = true := by
    rw [hred, Bool.and_true]
    exact decide_eq_true hr
  rw [headStep_answer env bOnly ⟨hpos, hans⟩, if_neg (isRedirect_code _ hred), if_pos hredir]
  unfold redirect
  unfold locationAt at hrw
  simp only [hrw, Bool.not_true, Bool.false_eq_true, if_false]
  rfl

/-- Any other input leaves the target alone when only redirections are looked for. -/
theorem headStep_no_redirect (env : Env) (d : Dl) (hr : env.cfg.redirmax ≠ 0)
    (h : Redirects d.job d.buf = false) :
    ∃ d' res, d.headStep env true = .ret d' res ∧ res &&& HINT_TGTCHANGE = 0 ∧
      d'.job.target = d.job.target := by
  have hc := (closeHint_bits (Header.load d.buf).2.hd).1
  have hcase := headStep_cases env true d
  generalize d.headStep env true = step at hcase ⊢
  cases hcase with
  | missing => exact ⟨_, _, rfl, by decide, rfl⟩
  | invalid => exact ⟨_, _, rfl, by decide, rfl⟩
  | noAnswer => exact ⟨_, _, rfl, by decide, rfl⟩
  | hint => exact ⟨_, _, rfl, tgt_bit _ _ hc (by decide), rfl⟩
  | redirected hhead hredir =>
    obtain ⟨hpos, hans⟩ := hhead
    have hred := (Bool.and_eq_true_iff.mp hredir).2
    have hfail : (d.job.rewriteSource ((Header.load d.buf).2.hd.h .location)).1 = false := by
      simp only [Redirects, hans, hred, locationAt, hpos, decide_true, beq_self_eq_true, Bool.true_and] at h
      exact h
    unfold redirect
    simp only [hfail, Bool.not_false, if_true]
    exact ⟨_, _, rfl, tgt_bit _ _ hc (by decide), rewriteSource_fail _ _ hfail⟩
  | elsewhere => exact ⟨_, _, rfl, tgt_bit _ _ (tgt_bit _ _ hc (by decide)) (by decide), rfl⟩
  | keyfile _ _ honly => exact absurd (by simp [hr]) honly
  | framed _ _ _ honly => exact absurd (by simp [hr]) honly

end Dl

namespace Exchange

theorem process_redirects (env : Env) (io : Io) (bOnly : Bool) (p : PipeJob) (buf : Bytes)
    (hr : env.cfg.redirmax ≠ 0) (hst : p.job.dlState = .getHeader)
    (h : Redirects p.job buf = true) :
    ∃ buf', p.process env io bOnly buf =
        ({ p with job := (p.job.rewriteSource (locationAt buf)).2 }, buf',
          Dl.closeHint (Header.load buf).2.hd ||| HINT_TGTCHANGE) ∧
      ((Dl.fieldNum (Header.load buf).2.hd .contentLength 0).toNat ≤ buf.length →
        buf' = buf.drop (Dl.fieldNum (Header.load buf).2.hd .contentLength 0).toNat) := by
  have hs := Dl.headStep_redirects env bOnly ⟨p.job, p.fi, buf⟩ hr h
  unfold PipeJob.process
  rw [Dl.processIncomming_eq]
  simp only [Dl.procStep, hst, Dl.procHeader, hs]
  refine ⟨_, rfl, ?_⟩
  intro hle
  rw [if_pos hle]

theorem process_no_redirect (env : Env) (io : Io) (p : PipeJob) (buf : Bytes)
    (hr : env.cfg.redirmax ≠ 0) (hst : p.job.dlState = .getHeader)
    (h : Redirects p.job buf = false) :
    ∃ p' buf' res, p.process env io true buf = (p', buf', res) ∧ res &&& HINT_TGTCHANGE = 0 ∧
      p'.job.target = p.job.target := by
  obtain ⟨d', res, hs, hbit, ht⟩ := Dl.headStep_no_redirect env ⟨p.job, p.fi, buf⟩ hr h
  unfold PipeJob.process
  rw [Dl.processIncomming_eq]
  simp only [Dl.procStep, hst, Dl.procHeader, hs]
  exact ⟨⟨d'.job, d'.fi⟩, d'.buf, res, rfl, hbit, ht⟩

/-- The inputs that rewrote the jobs of the queue while the buffer was processed. -/
def rewriteLog (env : Env) (io : Io) (x : Exchange) : List Bytes :=
  match x.queue with
  | [] => []
  | p :: rest =>
    let (_, buf, res) := p.process env io false x.inBuf
    if res &&& HINT_TGTCHANGE ≠ 0 then x.inBuf :: rewrites env io rest buf else []

/-- The targets of a queue whose first jobs are rewritten by the heads of the inputs. -/
def retargeted : List PipeJob → List Bytes → List (HttpUrl × Option HttpUrl × Bool)
  | p :: ps, b :: bs => (p.job.rewriteSource (locationAt b)).2.target :: retargeted ps bs
  | ps, _ => ps.map (·.job.target)

theorem retargeted_nil (ps : List PipeJob) : retargeted ps [] = ps.map (·.job.target) := by
  cases ps <;> rfl

theorem rewrites_sound (env : Env) (io : Io) (ps : List PipeJob) (buf : Bytes)
    (hr : env.cfg.redirmax ≠ 0) (hst : ∀ p ∈ ps, p.job.dlState = .getHeader) :
    (redirectRest env io ps buf).1.map (·.job.target) = retargeted ps (rewrites env io ps buf) := by
  induction ps generalizing buf with
  | nil => rfl
  | cons p ps ih =>
    have hp := hst p (by simp)
    have ih := fun b => ih b (fun q hq => hst q (by simp [hq]))
    cases h : Redirects p.job buf with
    | true =>
      obtain ⟨buf', heq, -⟩ := process_redirects env io true p buf hr hp h
      simp only [redirectRest, rewrites, heq]
      split
      · simp only [List.map_cons, retargeted, ih]
      · rw [if_pos (by rw [Nat.and_or_distrib_right, (Dl.closeHint_bits _).1]; decide)]
        simp only [List.map_cons, retargeted, retargeted_nil]
    | false =>
      obtain ⟨p', buf', res, heq, hbit, htgt⟩ := process_no_redirect env io p buf hr hp h
      have hne : res ≠ HINT_TGTCHANGE := by
        rintro rfl
        exact absurd hbit (by decide)
      simp only [redirectRest, rewrites, heq, if_neg hne, hbit, ne_eq, not_true_eq_false, if_false]
      simp only [List.map_cons, retargeted_nil, htgt]

end Exchange

namespace RedirectStream

theorem load_start (r : RedirectAnswer) (more : Bytes) :
    Header.load (r.encode ++ more) = Header.load r.head := by
  have hpos : (Header.load r.head).1 ≠ 0 := by
    have := List.length_pos_iff.mpr r.head_ne
    rw [r.loaded.1]
    omega
  rw [RedirectAnswer.encode, List.append_assoc, Header.load_append _ _ _ hpos]

theorem redirects_start (j : DlJob) (r : RedirectAnswer) (more : Bytes) :
    Redirects j (r.encode ++ more) = (j.rewriteSource r.location).1 := by
  have hpos : 0 < (r.head.length : Int) := by
    have := List.length_pos_iff.mpr r.head_ne
    omega
  simp only [Redirects, locationAt, load_start, r.loaded.1, r.loaded.2, r.answer, r.code,
    RedirectAnswer.location, hpos, decide_true, beq_self_eq_true, Bool.true_and]

/-- The responses carry the locations that their starts are read with. -/
theorem locationAt_startsOf (tail : Bytes) (rs : List RedirectAnswer) :
    (startsOf tail rs).map locationAt = rs.map RedirectAnswer.location := by
  induction rs with
  | nil => rfl
  | cons r rs ih =>
    simp only [startsOf, RedirectStream.encodeAll, List.flatMap_cons, List.append_assoc,
      List.map_cons, locationAt, load_start, r.loaded.2, RedirectAnswer.location]
    exact congrArg _ ih

end RedirectStream

namespace Exchange

theorem targetChange_queue (env : Env) (io : Io) (x : Exchange) (front : PipeJob)
    (rest : List PipeJob) (buf : Bytes) :
    (targetChange env io x front rest buf).1.queue = front :: (redirectRest env io rest buf).1 := by
  unfold targetChange
  simp only
  split <;> rfl

/-- The front job is rewritten, and then the others from what it left of the buffer. -/
theorem procQueue_redirect (env : Env) (io : Io) (x : Exchange) (p : PipeJob)
    (rest : List PipeJob) (hr : env.cfg.redirmax ≠ 0) (hq : x.queue = p :: rest)
    (hst : p.job.dlState = .getHeader) (h : Redirects p.job x.inBuf = true)
    (hlen : (Dl.fieldNum (Header.load x.inBuf).2.hd .contentLength 0).toNat ≤ x.inBuf.length) :
    (procQueue env io x x.queue).1.queue =
        { p with job := (p.job.rewriteSource (locationAt x.inBuf)).2 } ::
          (redirectRest env io rest
            (x.inBuf.drop (Dl.fieldNum (Header.load x.inBuf).2.hd .contentLength 0).toNat)).1 ∧
      rewriteLog env io x = x.inBuf :: rewrites env io rest
        (x.inBuf.drop (Dl.fieldNum (Header.load x.inBuf).2.hd .contentLength 0).toNat) := by
  obtain ⟨buf', heq, hbuf⟩ := process_redirects env io false p x.inBuf hr hst h
  obtain ⟨hc, hd⟩ := Dl.closeHint_bits (Header.load x.inBuf).2.hd
  have hne : x.inBuf.isEmpty = false := by
    cases hb : x.inBuf with
    | nil => simp [Redirects, hb, Header.load] at h
    | cons c t => rfl
  generalize Dl.closeHint (Header.load x.inBuf).2.hd = c at heq hc hd
  have htgt : (c ||| HINT_TGTCHANGE) &&& HINT_TGTCHANGE ≠ 0 := by
    rw [Nat.and_or_distrib_right, hc]
    decide
  have hdone : (c ||| HINT_TGTCHANGE) &&& HINT_DONE = 0 := by
    rw [Nat.and_or_distrib_right, hd]
    rfl
  have hmore : c ||| HINT_TGTCHANGE ≠ HINT_MORE := by
    intro h0
    rw [h0] at htgt
    exact htgt rfl
  rw [hbuf hlen] at heq
  constructor
  · rw [hq]
    unfold procQueue
    simp only [hne, Bool.false_eq_true, if_false, heq, if_neg hmore, hdone, ne_eq,
      not_true_eq_false, htgt, not_false_eq_true, if_true]
    exact targetChange_queue _ _ _ _ _ _
  · simp only [rewriteLog, hq, heq, htgt, ne_eq, not_false_eq_true, if_true]

/-- The call for the job behind the front one is logged with its whole input. -/
theorem rewrites_head (env : Env) (io : Io) (p : PipeJob) (ps : List PipeJob) (buf : Bytes)
    (hr : env.cfg.redirmax ≠ 0) (hst : p.job.dlState = .getHeader) :
    (rewrites env io (p :: ps) buf).head? = if Redirects p.job buf then some buf else none := by
  cases h : Redirects p.job buf with
  | true =>
    obtain ⟨buf', heq, -⟩ := process_redirects env io true p buf hr hst h
    simp only [rewrites, heq]
    split
    · rfl
    · rw [if_pos (by rw [Nat.and_or_distrib_right, (Dl.closeHint_bits _).1]; decide)]
      rfl
  | false =>
    obtain ⟨p', buf', res, heq, hbit, -⟩ := process_no_redirect env io p buf hr hst h
    have hne : res ≠ HINT_TGTCHANGE := by
      rintro rfl
      exact absurd hbit (by decide)
    simp only [rewrites, heq, if_neg hne, hbit, ne_eq, not_true_eq_false, if_false,
      List.head?_nil, Bool.false_eq_true]

end Exchange

open RedirectStream

/-- The first job is followed by one that is read from the middle of the first response. -/
theorem rewrites_starts_iff (env : Env) (io : Io) (rest : List PipeJob) (r : RedirectAnswer)
    (rs : List RedirectAnswer) (tail : Bytes) (hr : env.cfg.redirmax ≠ 0)
    (hst : ∀ q ∈ rest, q.job.dlState = .getHeader) :
    Exchange.rewrites env io rest ((RedirectStream.encodeAll tail (r :: rs)).drop r.body.length) =
        (startsOf tail rs).take rest.length ↔
      ∀ q ∈ rest.head?, rs = [] ∧
        Redirects q.job ((RedirectStream.encodeAll tail (r :: rs)).drop r.body.length) = false := by
  cases rest with
  | nil => simp [Exchange.rewrites]
  | cons q rest =>
    have hhead := Exchange.rewrites_head env io q rest
      ((RedirectStream.encodeAll tail (r :: rs)).drop r.body.length) hr (hst q (by simp))
    have hlen : ((RedirectStream.encodeAll tail (r :: rs)).drop r.body.length).length =
        r.head.length + (RedirectStream.encodeAll tail rs).length := by
      simp only [RedirectStream.encodeAll, List.flatMap_cons, RedirectAnswer.encode, List.length_drop,
        List.length_append]
      omega
    generalize (RedirectStream.encodeAll tail (r :: rs)).drop r.body.length = buf at hhead hlen
    simp only [List.head?_cons, Option.mem_def, Option.some.injEq, forall_eq']
    constructor
    · intro heq
      rw [heq] at hhead
      cases rs with
      | nil =>
        refine ⟨rfl, ?_⟩
        cases h : Redirects q.job buf with
        | false => rfl
        | true => simp [h, startsOf] at hhead
      | cons r' rs =>
        simp only [startsOf, List.length_cons, List.take_succ_cons, List.head?_cons] at hhead
        split at hhead
        · have := List.length_pos_iff.mpr r.head_ne
          rw [← Option.some.inj hhead] at hlen
          omega
        · cases hhead
    · rintro ⟨rfl, hno⟩
      rw [hno] at hhead
      simpa [startsOf] using hhead

/-- The jobs get the targets that the logged inputs name, and the inputs that start
at the responses name their locations. The logged inputs are the
responses of the jobs, one after the other, exactly when no job follows the front
one, or its buffer, the stream less as many octets as the first body has, is read
as no usable redirect response and there is no second response to find. -/
theorem redirect_attribution_iff (env : Env) (io : Io) (x : Exchange) (p : PipeJob)
    (rest : List PipeJob) (s : RedirectStream) (r : RedirectAnswer) (rs : List RedirectAnswer)
    (hr : 0 < env.cfg.redirmax) (hq : x.queue = p :: rest)
    (hst : ∀ q ∈ x.queue, q.job.dlState = .getHeader) (hbuf : x.inBuf = s.encode)
    (hs : s.responses = r :: rs) (husable : (p.job.rewriteSource r.location).1 = true) :
    (Exchange.procQueue env io x x.queue).1.queue.map (·.job.target) =
        Exchange.retargeted x.queue (Exchange.rewriteLog env io x) ∧
      s.starts.map locationAt = s.responses.map RedirectAnswer.location ∧
      (Exchange.rewriteLog env io x = s.starts.take x.queue.length ↔
        ∀ q ∈ rest.head?, rs = [] ∧
          Redirects q.job (x.inBuf.drop r.body.length) = false) := by
  have hr' : env.cfg.redirmax ≠ 0 := by omega
  have hrest : ∀ q ∈ rest, q.job.dlState = .getHeader := fun q h => hst q (by simp [hq, h])
  have henc : x.inBuf = RedirectStream.encodeAll s.tail (r :: rs) := by rw [hbuf, RedirectStream.encode, hs]
  have happ : x.inBuf = r.encode ++ RedirectStream.encodeAll s.tail rs := by
    rw [henc, RedirectStream.encodeAll, RedirectStream.encodeAll, List.flatMap_cons, List.append_assoc]
  have hnum : (Dl.fieldNum (Header.load x.inBuf).2.hd .contentLength 0).toNat = r.body.length := by
    rw [happ, load_start, r.loaded.2, r.length]
    rfl
  obtain ⟨hqueue, hlog⟩ := Exchange.procQueue_redirect env io x p rest hr' hq
    (hst p (by simp [hq])) (by rw [happ, redirects_start]; exact husable)
    (by rw [hnum, happ, RedirectAnswer.encode]; simp; omega)
  rw [hnum] at hqueue hlog
  refine ⟨?_, locationAt_startsOf _ _, ?_⟩
  · rw [hqueue, hlog, hq]
    simp only [List.map_cons, Exchange.retargeted]
    rw [Exchange.rewrites_sound env io rest _ hr' hrest]
  · have hstarts : s.starts.take x.queue.length =
        x.inBuf :: (startsOf s.tail rs).take rest.length := by
      rw [RedirectStream.starts, hs, hq, startsOf, henc, List.length_cons, List.take_succ_cons]
    rw [hlog, hstarts, List.cons.injEq, henc]
    simp only [true_and]
    exact rewrites_starts_iff env io rest r rs s.tail hr' hrest

def movedHead (loc : Bytes) : Bytes :=
  lit "HTTP/1.1 302 Found\r\nContent-Length: 0\r\nLocation: " ++ loc ++ lit "\r\n\r\n"

/-- A head that is read to its end, as a redirect response without a body. -/
def LoadsMoved (head : Bytes) : Prop :=
  (Header.load head).1 = head.length ∧ (Header.load head).2.hd.type = .answer ∧
    (Header.load head).2.hd.status.isRedirect = true ∧
    Dl.fieldNum (Header.load head).2.hd .contentLength 0 = 0

instance (head : Bytes) : Decidable (LoadsMoved head) :=
  inferInstanceAs (Decidable (_ ∧ _ ∧ _ ∧ _))

theorem movedHead_loadA : LoadsMoved (movedHead (lit "http://a/x")) := by
  simp only [movedHead, lit]
  rw [String.toList_ofList, String.toList_ofList, String.toList_ofList]
  decide +kernel

theorem movedHead_loadB : LoadsMoved (movedHead (lit "http://b/y")) := by
  simp only [movedHead, lit]
  rw [String.toList_ofList, String.toList_ofList, String.toList_ofList]
  decide +kernel

/-- A redirect response without a body. -/
def movedToA : RedirectAnswer where
  head := movedHead (lit "http://a/x")
  hd := (Header.load (movedHead (lit "http://a/x"))).2.hd
  body := []
  loaded := ⟨movedHead_loadA.1, rfl⟩
  head_ne := by decide
  answer := movedHead_loadA.2.1
  code := movedHead_loadA.2.2.1
  length := movedHead_loadA.2.2.2

def movedToB : RedirectAnswer where
  head := movedHead (lit "http://b/y")
  hd := (Header.load (movedHead (lit "http://b/y"))).2.hd
  body := []
  loaded := ⟨movedHead_loadB.1, rfl⟩
  head_ne := by decide
  answer := movedHead_loadB.2.1
  code := movedHead_loadB.2.2.1
  length := movedHead_loadB.2.2.2

def movedStream (rs : List RedirectAnswer) : RedirectStream where
  responses := rs
  tail := []
  ends := by
    intro r more h
    exact r.head_ne (List.append_eq_nil_iff.mp (List.append_eq_nil_iff.mp h.symm).1).1

theorem movedStream_encode :
    (movedStream [movedToA, movedToB]).encode = movedHead (lit "http://a/x") ++ movedHead (lit "http://b/y") := by
  simp only [movedStream, RedirectStream.encode, RedirectStream.encodeAll, List.flatMap_cons, List.flatMap_nil,
    RedirectAnswer.encode, movedToA, movedToB, List.append_nil]

theorem movedStream_starts :
    (movedStream [movedToA, movedToB]).starts =
      [movedHead (lit "http://a/x") ++ movedHead (lit "http://b/y"), movedHead (lit "http://b/y")] := by
  simp only [movedStream, RedirectStream.starts, RedirectStream.startsOf, RedirectStream.encodeAll,
    List.flatMap_cons, List.flatMap_nil, RedirectAnswer.encode, movedToA, movedToB, List.append_nil]

/-- Two jobs for paths of one host. -/
def twoJobs : List PipeJob :=
  [⟨{ remoteUri := { sHost := lit "m", sPath := lit "/1" } }, { sPathRel := lit "m/1" }⟩,
   ⟨{ remoteUri := { sHost := lit "m", sPath := lit "/2" } }, { sPathRel := lit "m/2" }⟩]

/-- A job that is alone in the queue gets its own location. -/
theorem redirect_attribution_alone :
    Exchange.rewriteLog plainEnv {}
        ⟨twoJobs.take 1, (movedStream [movedToA, movedToB]).encode, [], 0⟩ =
      (movedStream [movedToA, movedToB]).starts.take 1 :=
  (redirect_attribution_iff plainEnv {}
    ⟨twoJobs.take 1, (movedStream [movedToA, movedToB]).encode, [], 0⟩ _ []
    (movedStream [movedToA, movedToB]) movedToA [movedToB] (by decide) rfl (by decide) rfl rfl
    (by decide +kernel)).2.2.mpr (by simp)

/-- Two jobs and their two responses: the second job is sent to the location of the first. -/
theorem second_job_misdirected :
    Exchange.rewriteLog plainEnv {} ⟨twoJobs, (movedStream [movedToA, movedToB]).encode, [], 0⟩ ≠
        (movedStream [movedToA, movedToB]).starts.take 2 ∧
      (Exchange.procQueue plainEnv {} ⟨twoJobs, (movedStream [movedToA, movedToB]).encode, [], 0⟩
          twoJobs).1.queue.map (·.job.remoteUri.sHost) = [lit "a", lit "a"] ∧
      [movedToA, movedToB].map RedirectAnswer.location =
        [some (lit "http://a/x"), some (lit "http://b/y")] := by
  rw [movedStream_encode, movedStream_starts]
  unfold movedHead lit
  repeat rw [String.toList_ofList]
  decide +kernel

end Acng
