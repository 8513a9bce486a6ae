import Acng.Proofs.Framing

namespace Acng
open Lib

/-- An item on which a download can be started from the beginning. -/
structure FileItem.Startable (fi : FileItem) : Prop where
  status : fi.status ≤ .dlPending
  size : fi.nSizeChecked ≤ 0
  closed : fi.filefd = none
  store : fi.spattr.bNoStore = false
  get : fi.spattr.bHeadOnly = false

/-- A job that waits for the head of its first answer to a GET request. -/
structure DlJob.Waiting (j : DlJob) : Prop where
  state : j.dlState = .getHeader
  free : j.bFileItemAssigned = false
  get : j.fiAttr.bHeadOnly = false

namespace Dl

/-- The job once the framing of the response is known. -/
def startJob (j : DlJob) : Framing → DlJob
  | .plain body => { j with nRest := body.length, dlState := .processData }
  | .chunked _ => { j with dlState := .getChunkHead }

/-- The head that is passed to `CheckAndSaveHeader`. -/
def savedHead (env : Env) (d : Dl) (h : Header) : Header :=
  let h' := if badRedirect env.cfg d.job h then
      if d.fi.isVolatile then h.set .lastModified (some fakeDateMark)
      else h.setStatus 501 (lit "Redirected to invalid target")
    else h
  if isChunked h then h'.del .transferEncoding else h'

theorem headStep_response (env : Env) (j : DlJob) (fi : FileItem) (r : Response) (more : Bytes)
    (hj : j.Waiting) :
    headStep env false ⟨j, fi, r.head ++ more⟩ =
      .save ⟨startJob j r.framing, fi, r.head ++ more⟩ (savedHead env ⟨j, fi, []⟩ r.hd) r.head.length
        (fieldNum r.hd .contentLength (-1)) (closeHint r.hd) := by
  have hpos := List.length_pos_iff.mpr r.head_ne
  have hload : Header.load (r.head ++ more) = Header.load r.head :=
    Header.load_append r.head more none (by rw [r.loaded.1]; omega)
  have hemp : (r.head ++ more).isEmpty = false := by
    cases hh : r.head with
    | nil => exact absurd hh r.head_ne
    | cons c t => rfl
  have hred : r.hd.status.isRedirect = false := by simp [RemoteStatus.isRedirect, r.code]
  have hzero : ¬ (r.head.length : Int) = 0 := by omega
  have hneg : ¬ (r.head.length : Int) < 0 := by omega
  unfold headStep
  simp only [hemp, hload, r.loaded.1, r.loaded.2, hzero, hneg, r.answer, r.code, hred,
    Bool.false_eq_true, if_false, ne_eq, not_true_eq_false, Bool.and_false]
  rw [if_neg (by decide), if_neg (by simp)]
  have hf := r.framed
  unfold framing
  simp only [hj.get, Bool.false_eq_true, if_false, Int.toNat_natCast]
  cases hfr : r.framing with
  | plain body =>
    rw [hfr] at hf
    have hcl : ¬ fieldNum r.hd .contentLength (-1) < 0 := by rw [hf.2]; omega
    simp only [hf.1, Bool.false_eq_true, if_false, hcl, savedHead, startJob]
    rw [hf.2, Int.toNat_natCast]
  | chunked b =>
    rw [hfr] at hf
    simp only [hf.1, if_true, savedHead, startJob]

theorem checkAndSaveHeader_bodyless (env : Env) (io : Io) (d : Dl) (h : Header) (raw : Nat)
    (contLen : Int) (hf : d.Free) (free : d.job.bFileItemAssigned = false)
    (code : h.status.code = 501) :
    d.checkAndSaveHeader env io h raw contLen =
      ({ d.counted raw with job := { d.job with bAllowStoreData := false } } : Dl).startDownload
        env io h raw [] (-1) := by
  have h1 : ¬ FiStatus.complete ≤ d.fi.status := not_le.mpr hf.1
  have h2 : ¬ FiStatus.dlPending < d.fi.status := by
    rcases hf.2 with ha | hp
    · simp [ha] at free
    · exact not_lt.mpr hp
  have hred : h.status.isRedirect = false := by simp [RemoteStatus.isRedirect, code]
  unfold checkAndSaveHeader
  simp only [h1, h2, code, hred, free, if_false, Bool.false_eq_true, Bool.false_and, decide_false,
    Bool.and_false]
  rfl

/-- On a free item the common end succeeds. -/
theorem startDownload_free (env : Env) (io : Io) (d : Dl) (h : Header) (raw : Nat) (loc : Bytes)
    (contLen : Int) (hs : d.fi.status ≤ .dlPending) (hn : d.fi.nSizeChecked ≤ 0) :
    d.startDownload env io h raw loc contLen =
      (.good, { d.markAssigned env with
        fi := (fun fi' => if d.job.bAllowStoreData then fi' else fi'.dlFinish true io.head)
          ((d.markAssigned env).fi.started raw (HttpDate.ofCStr env.dates (h.h .lastModified))
            (d.originOf loc) h.status d.job.nUsedRangeStartPos contLen) }) :=
  startDownload_of env io d h raw loc contLen true _
    (FileItem.dlStarted_free env.dates (d.markAssigned env).fi raw _ _ h.status
      d.job.nUsedRangeStartPos contLen hs hn)

theorem savedHead_code (env : Env) (d : Dl) (h : Header) (code : h.status.code = 200) :
    (savedHead env d h).status.code = 200 ∨
      ((savedHead env d h).status.code = 501 ∧ d.fi.isVolatile = false) := by
  have hdel : ∀ (g : Header) (p : HeadPos), (g.del p).status = g.status := fun _ _ => rfl
  have hst : (savedHead env d h).status =
      (if badRedirect env.cfg d.job h then
        if d.fi.isVolatile then h.set .lastModified (some fakeDateMark)
        else h.setStatus 501 (lit "Redirected to invalid target")
      else h).status := by
    unfold savedHead
    simp only
    split
    · exact hdel _ _
    · rfl
  rw [hst]
  split
  · split
    · exact .inl code
    · rename_i hv
      exact .inr ⟨rfl, by simpa using hv⟩
  · exact .inl code

theorem startJob_remaining (j : DlJob) (r : Response) (text rest : Bytes)
    (ht : text = r.framing.encode ++ rest) :
    Remaining (startJob j r.framing).dlState (startJob j r.framing).nRest text r.body rest := by
  have hf := r.framed
  unfold Response.body
  cases hfr : r.framing with
  | plain body =>
    rw [hfr] at ht
    rw [ht]
    exact .plain body rest
  | chunked b =>
    rw [hfr] at ht hf
    rw [ht]
    exact .chunkHead _ [] b rest (.inl rfl) hf.2

theorem Startable_started (fi : FileItem) (hfi : fi.Startable) (raw : Nat) (modDate : HttpDate)
    (origin : Bytes) (status : RemoteStatus) (announced : Int) :
    (fi.started raw modDate origin status 0 announced).Ready := by
  have hc : (fi.started raw modDate origin status 0 announced).filefd = none := hfi.closed
  have hs : (fi.started raw modDate origin status 0 announced).status = .dlGotHead := rfl
  refine ⟨by rw [hs], by rw [hs]; decide, ?_⟩
  rw [hc]
  exact ⟨hfi.store, Int.natCast_nonneg _⟩

/-- What is known of a job right behind the head of its answer. -/
structure Accepted (env : Env) (j : DlJob) (fi : FileItem) (r : Response) (d0 : Dl) : Prop where
  head : ∀ more, procHeader env {} false ⟨j, fi, r.head ++ more⟩ = ({ d0 with buf := more }, none)
  framing : ∀ text rest, text = r.framing.encode ++ rest →
    Remaining d0.job.dlState d0.job.nRest text r.body rest
  ready : d0.job.bAllowStoreData = true → d0.fi.Ready
  uri : d0.job.remoteUri = j.remoteUri
  stored : fi.isVolatile = true → j.bAllowStoreData = true → d0.job.bAllowStoreData = true ∧
    ∃ raw modDate origin status announced,
      d0.fi = ({ fi with
          nIncommingCount := fi.nIncommingCount + r.head.length, nTimeDlStarted := env.now } : FileItem).started
        raw modDate origin status 0 announced

theorem startJob_allow (j : DlJob) (f : Framing) :
    (startJob j f).bAllowStoreData = j.bAllowStoreData := by
  cases f <;> rfl

theorem startJob_uri (j : DlJob) (f : Framing) : (startJob j f).remoteUri = j.remoteUri := by
  cases f <;> rfl

theorem dlFinish_spattr (fi : FileItem) (force : Bool) (io : HeadIo) :
    (fi.dlFinish force io).spattr = fi.spattr := by
  obtain ⟨status, len, head, h⟩ := fi.dlFinish_frame force io
  rw [h]

/-- The head of a final 200 response is accepted for a startable item. -/
theorem procHeader_response (env : Env) (j : DlJob) (fi : FileItem) (r : Response)
    (hj : j.Waiting) (hfi : fi.Startable) : ∃ d0, Accepted env j fi r d0 := by
  let h := savedHead env ⟨j, fi, []⟩ r.hd
  let cl := fieldNum r.hd .contentLength (-1)
  let start (more : Bytes) : Dl := ⟨startJob j r.framing, fi, r.head ++ more⟩
  have hfree : ∀ more, (start more).Free := fun more =>
    ⟨lt_of_le_of_lt hfi.status (by decide), .inr hfi.status⟩
  have hproc : ∀ more d2, (start more).checkAndSaveHeader env {} h r.head.length cl = (.good, d2) →
      d2.fi.spattr.bHeadOnly = false → d2.buf = r.head ++ more →
      procHeader env {} false ⟨j, fi, r.head ++ more⟩ = ({ d2 with buf := more }, none) := by
    intro more d2 hc hho hb
    have hstart : headStep env false ⟨j, fi, r.head ++ more⟩ =
        .save (start more) h r.head.length cl (closeHint r.hd) := headStep_response env j fi r more hj
    unfold procHeader
    simp only [hstart, hc, hho, hb, List.drop_left, Bool.false_eq_true, if_false]
  rcases savedHead_code env ⟨j, fi, []⟩ r.hd r.code with hcode | ⟨hcode, hvol⟩
  · let d1 : Dl := { (start []).counted r.head.length with
      job := { (start []).job with nUsedRangeStartPos := 0 } }
    let fi' := (d1.markAssigned env).fi.started r.head.length
      (HttpDate.ofCStr env.dates (h.h .lastModified)) (d1.originOf []) h.status 0 cl
    let d0 : Dl := { d1.markAssigned env with
      fi := if (startJob j r.framing).bAllowStoreData then fi' else fi'.dlFinish true .stored }
    have hfi' : (startJob j r.framing).bAllowStoreData = true → d0.fi = fi' := fun ha => if_pos ha
    refine ⟨d0, ?_, fun text rest ht => startJob_remaining j r text rest ht, ?_,
      startJob_uri j r.framing, ?_⟩
    · intro more
      refine hproc more { d0 with buf := r.head ++ more } ?_ ?_ rfl
      · rw [checkAndSaveHeader_full env {} _ _ _ _ (hfree more) hcode,
          startDownload_free env {} _ _ _ _ _ hfi.status hfi.size]
        rfl
      · have hs : d0.fi.spattr = fi.spattr := by
          simp only [d0]
          split
          · rfl
          · exact dlFinish_spattr fi' true .stored
        rw [hs]
        exact hfi.get
    · intro ha
      rw [hfi' ha]
      exact Startable_started (d1.markAssigned env).fi
        ⟨hfi.status, hfi.size, hfi.closed, hfi.store, hfi.get⟩ _ _ _ _ _
    · intro _ ha
      have ha' : (startJob j r.framing).bAllowStoreData = true := by rw [startJob_allow, ha]
      exact ⟨ha', _, _, _, _, _, hfi' ha'⟩
  · let d1 : Dl := { (start []).counted r.head.length with
      job := { (start []).job with bAllowStoreData := false } }
    let fi' := (d1.markAssigned env).fi.started r.head.length
      (HttpDate.ofCStr env.dates (h.h .lastModified)) (d1.originOf []) h.status
      d1.job.nUsedRangeStartPos (-1)
    let d0 : Dl := { d1.markAssigned env with fi := fi'.dlFinish true .stored }
    have hfreeJob : (startJob j r.framing).bFileItemAssigned = false := by
      cases r.framing <;> exact hj.free
    refine ⟨d0, ?_, fun text rest ht => startJob_remaining j r text rest ht, ?_,
      startJob_uri j r.framing, ?_⟩
    · intro more
      refine hproc more { d0 with buf := r.head ++ more } ?_ ?_ rfl
      · rw [checkAndSaveHeader_bodyless env {} _ _ _ _ (hfree more) hfreeJob hcode,
          startDownload_free env {} _ _ _ _ _ hfi.status hfi.size]
        rfl
      · have hs : d0.fi.spattr = fi.spattr := dlFinish_spattr fi' true .stored
        rw [hs]
        exact hfi.get
    · intro ha
      exact absurd ha (by simp [d0, d1, markAssigned])
    · intro hv
      exact absurd (hv.symm.trans hvol) (by simp)

/-- Where a job stands in its answer: the head is not complete yet and nothing was
done, or the job is behind the head. -/
def Serving (j : DlJob) (fi : FileItem) (r : Response) (d0 : Dl) (unread rest : Bytes) (d : Dl) :
    Prop :=
  (d.job = j ∧ d.fi = fi ∧ d.buf ++ unread = r.encode ++ rest) ∨ d0.Midway unread r.body rest d

/-- A call either asks for more, and there is more, or it ends the answer exactly
at its end. -/
theorem processIncomming_serving (env : Env) (j : DlJob) (fi : FileItem) (r : Response) (d0 d : Dl)
    (unread rest : Bytes) (hacc : Accepted env j fi r d0) (hst : j.dlState = .getHeader)
    (hs : Serving j fi r d0 unread rest d) :
    ((d.processIncomming env {} false).2 = HINT_MORE ∧ unread ≠ [] ∧
        Serving j fi r d0 unread rest (d.processIncomming env {} false).1) ∨
      ((d.processIncomming env {} false).2 = HINT_DONE ∧
        d0.Finished unread r.body rest (d.processIncomming env {} false).1) := by
  rcases hs with ⟨hj, hfi, ht⟩ | hm
  · obtain ⟨job, item, buf⟩ := d
    simp only at hj hfi ht
    subst hj hfi
    unfold Response.encode at ht
    rw [List.append_assoc] at ht
    by_cases hl : r.head.length ≤ buf.length
    · have hp : r.head <+: buf ++ unread := ht ▸ List.prefix_append _ _
      obtain ⟨more, rfl⟩ := List.prefix_of_prefix_length_le hp (List.prefix_append _ _) hl
      have hrest : more ++ unread = r.framing.encode ++ rest := by
        rw [List.append_assoc] at ht
        exact List.append_cancel_left ht
      have hmid : d0.Midway unread r.body rest { d0 with buf := more } :=
        ⟨rfl, [], r.body, rfl, by simp, hacc.framing _ rest hrest⟩
      have hstep : procStep env {} false ⟨job, item, r.head ++ more⟩ = ({ d0 with buf := more }, none) := by
        simp only [procStep, hst]
        exact hacc.head more
      rw [processIncomming_eq, hstep]
      rcases processIncomming_follows env false d0 _ unread r.body rest hacc.ready hmid with
        ⟨hres, hu, hmid'⟩ | hfin
      · exact .inl ⟨hres, hu, .inr hmid'⟩
      · exact .inr hfin
    · have hb : buf <+: r.head ++ (r.framing.encode ++ rest) := ht ▸ List.prefix_append _ _
      obtain ⟨u, hu⟩ := List.prefix_of_prefix_length_le hb (List.prefix_append _ _) (by omega)
      have hune : u ≠ [] := by
        rintro rfl
        rw [List.append_nil] at hu
        exact hl (by rw [hu])
      have hzero := Header.load_partial r.head buf u none hu hune r.loaded.1
      have hstep : procStep env {} false ⟨job, item, buf⟩ = (⟨job, item, buf⟩, some HINT_MORE) := by
        simp only [procStep, hst]
        unfold procHeader
        rw [headStep_incomplete env false _ hzero]
      rw [processIncomming_eq, hstep]
      refine .inl ⟨rfl, ?_, .inl ⟨rfl, rfl, ?_⟩⟩
      · rintro rfl
        have := congrArg List.length ht
        simp only [List.length_append, List.length_nil] at this
        omega
      · rw [Response.encode, List.append_assoc]
        exact ht
  · rcases processIncomming_follows env false d0 d unread r.body rest hacc.ready hm with
      ⟨hres, hu, hmid'⟩ | hfin
    · exact .inl ⟨hres, hu, .inr hmid'⟩
    · exact .inr hfin

theorem Serving.read (j : DlJob) (fi : FileItem) (r : Response) (d0 d : Dl) (x unread rest : Bytes)
    (hs : Serving j fi r d0 (x ++ unread) rest d) :
    Serving j fi r d0 unread rest { d with buf := d.buf ++ x } := by
  rcases hs with ⟨hj, hfi, ht⟩ | hm
  · exact .inl ⟨hj, hfi, by simpa using ht⟩
  · exact .inr (Midway.read d0 d x unread r.body rest hm)

end Dl

end Acng
