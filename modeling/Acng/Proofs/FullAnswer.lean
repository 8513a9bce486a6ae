import Acng.Proofs.Ranges

namespace Acng.ClientJob
open Lib

/-- The connection is kept for the next job. -/
def persistent (j : ClientJob) : Bool :=
  j.keepAlive = .keep || (j.keepAlive = .unspecified && j.bIsHttp11)

theorem returnStreamOk_persistent (j : ClientJob) (h : j.persistent = true) :
    j.returnStreamOk.2 = .done := by
  unfold persistent at h
  unfold returnStreamOk
  rw [if_pos (by simpa using h)]

/-- A job that is still there when its whole file was sent. -/
def NotLate (file : Bytes) (j : ClientJob) (_ : SendIo) : Prop :=
  ¬ (j.activity = .sendData ∧ j.nSendPos = file.length)

/-- A job that sends the whole file. -/
structure SendingAll (file front : Bytes) (j : ClientJob) (out : Bytes) : Prop where
  sending : Sending file front 0 file.length j out
  whole : j.nReqRangeTo < 0
  kept : j.persistent = true

theorem SendingAll.flush {file front : Bytes} {j : ClientJob} {out : Bytes} (r : Nat)
    (h : SendingAll file front j out) :
    SendingAll file front (j.flushed r) (out ++ j.sendbuf.take r) := by
  obtain ⟨⟨pos, ha, hh, hpos, hfirst, hstop, hle, hto, hout⟩, hneg, hk⟩ := h
  refine ⟨⟨pos, ha, hh, hpos, hfirst, hstop, hle, hto, ?_⟩, hneg, hk⟩
  rw [flushed, List.append_assoc, List.take_append_drop, hout]

/-- With an empty buffer a late job drops the connection. Any other one goes on or ends well. -/
theorem perform_result (env : CookEnv) (file front : Bytes) (hlen : file.length < 2 ^ 63)
    (j : ClientJob) (out : Bytes) (io : SendIo) (h : SendingAll file front j out)
    (hb : j.sendbuf = []) (hg : j.Serves file io) :
    (¬ NotLate file j io → (j.perform env file io).2.1 = .discon) ∧
    (NotLate file j io → (j.perform env file io).2.1 = .done ∨
      ∃ j' out', j.perform env file io = (j', .again, out') ∧ SendingAll file front j' (out ++ out')) := by
  obtain ⟨hs, hneg, hk⟩ := h
  have hstep := perform_sending env file front 0 file.length hlen j out io hs hb hg
  obtain ⟨pos, ha, hh, hpos, hfirst, hstop, hle, hto, hout⟩ := hs
  obtain ⟨fistate, size, hw, hsize, hfull, hcase⟩ := hg.size pos ha hh hpos
  obtain ⟨n, hn⟩ := hg.data
  have hp := perform_seen env file j io n fistate size ha hh hw hg.opened hn
  rw [limit_sending j file pos file.length size hlen hpos hstop hle hsize hto] at hp
  have hlate : ¬ NotLate file j io ↔ pos = file.length := by
    unfold NotLate
    rw [not_not, hpos]
    constructor
    · intro h
      exact_mod_cast h.2
    · intro h
      exact ⟨ha, by exact_mod_cast h⟩
  constructor
  · intro hl
    have := hlate.mp hl
    rw [if_pos (by omega)] at hp
    rw [hp]
  · intro hl
    have hne : pos ≠ file.length := fun h => absurd hl (hlate.mpr h)
    have hlim : ¬ ((min file.length size : Nat) : Int) - j.nSendPos ≤ 0 := by
      rcases hcase with hc | hc
      · have := hfull hc
        omega
      · omega
    rw [if_neg hlim] at hp
    simp only at hp
    split at hp
    · refine .inl ?_
      rw [hp]
      exact returnStreamOk_persistent _ hk
    · refine .inr ⟨_, _, hp, ?_⟩
      rcases hstep with ⟨j', out', he, hs', -⟩ | ⟨hres, -⟩
      · rw [hp] at he
        simp only [Prod.mk.injEq, true_and] at he
        obtain ⟨rfl, rfl⟩ := he
        exact ⟨hs', hneg, hk⟩
      · rw [hp] at hres
        exact absurd rfl hres

/-- The step lemma: a job that is late stays so and does not end well. -/
theorem sendData_result (env : CookEnv) (file front : Bytes) (hlen : file.length < 2 ^ 63)
    (j : ClientJob) (out : Bytes) (io : SendIo) (h : SendingAll file front j out)
    (hg : j.Serves file io) :
    ((j.sendData env file io).2.1 = .again ∧
      SendingAll file front (j.sendData env file io).1 (out ++ (j.sendData env file io).2.2) ∧
      (¬ NotLate file j io → ∀ io', ¬ NotLate file (j.sendData env file io).1 io')) ∨
    ((j.sendData env file io).2.1 = .done ∧ NotLate file j io) ∨
    ((j.sendData env file io).2.1 = .discon ∧ ¬ NotLate file j io) := by
  have hperform : ∀ k out, SendingAll file front k out → k.sendbuf = [] → k.Serves file io →
      ((k.perform env file io).2.1 = .again ∧
        SendingAll file front (k.perform env file io).1 (out ++ (k.perform env file io).2.2) ∧
        NotLate file k io) ∨
      ((k.perform env file io).2.1 = .done ∧ NotLate file k io) ∨
      ((k.perform env file io).2.1 = .discon ∧ ¬ NotLate file k io) := by
    intro k out hk hb hg
    obtain ⟨hl, hn⟩ := perform_result env file front hlen k out io hk hb hg
    by_cases hlate : NotLate file k io
    · rcases hn hlate with hd | ⟨j', out', he, hs⟩
      · exact .inr (.inl ⟨hd, hlate⟩)
      · rw [he]
        exact .inl ⟨rfl, hs, hlate⟩
    · exact .inr (.inr ⟨hl hlate, hlate⟩)
  by_cases hb : j.sendbuf = []
  · rw [sendData_empty env file j io hb]
    rcases hperform j out h hb hg with ⟨h1, h2, h3⟩ | h | h
    · exact .inl ⟨h1, h2, fun hl => absurd h3 hl⟩
    · exact .inr (.inl h)
    · exact .inr (.inr h)
  obtain ⟨r, hr⟩ := hg.sent
  have hf := h.flush r
  by_cases hrest : (j.flushed r).sendbuf = []
  · rw [sendData_flushed env file j io r hb hr hrest]
    have hgf : (j.flushed r).Serves file io :=
      ⟨hg.sent, hg.data, hg.opened, fun ha => by
        rw [await_flushed]
        exact hg.seen ha⟩
    rcases hperform _ _ hf hrest hgf with ⟨h1, h2, h3⟩ | h | h
    · refine .inl ⟨h1, ?_, fun hl => absurd h3 hl⟩
      rwa [← List.append_assoc]
    · exact .inr (.inl h)
    · exact .inr (.inr h)
  · rw [sendData_rest env file j io r hb hr hrest]
    exact .inl ⟨rfl, hf, fun hl _ => hl⟩

/-- The run lemma: a job that ends has ended well if and only if it was never late. -/
theorem deliver_done_iff (env : CookEnv) (file front : Bytes) (hlen : file.length < 2 ^ 63)
    (ios : List SendIo) (j : ClientJob) (out : Bytes) (h : SendingAll file front j out)
    (hg : j.Along env file (Serves file) ios) (hend : (j.deliver env file ios).2.1 ≠ .again) :
    (j.deliver env file ios).2.1 = .done ↔ j.Along env file (NotLate file) ios := by
  induction ios generalizing j out with
  | nil => exact absurd rfl hend
  | cons io ios ih =>
    obtain ⟨hg1, hg2⟩ := hg
    have hstep := sendData_result env file front hlen j out io h hg1
    unfold deliver at hend ⊢
    rw [Along]
    generalize j.sendData env file io = r at hstep hg2 hend ⊢
    obtain ⟨j', res, out'⟩ := r
    simp only at hstep hg2
    rcases hstep with ⟨rfl, hs', hl⟩ | ⟨rfl, hl⟩ | ⟨rfl, hl⟩
    · have hi := ih j' _ hs' (hg2 rfl) hend
      refine hi.trans ⟨fun ha => ⟨?_, fun _ => ha⟩, fun ha => ha.2 rfl⟩
      cases ios with
      | nil => exact absurd rfl hend
      | cons io' ios => exact fun hlate => hl (not_not_intro hlate) io' ha.1
    · refine ⟨fun _ => ⟨hl, fun h => ?_⟩, fun _ => rfl⟩
      cases h
    · refine ⟨fun h => ?_, fun ha => absurd ha.1 hl⟩
      cases h

/-- The job when it is about to send all of its item. -/
def sendsAll (env : CookEnv) (j : ClientJob) (fi : FileItem) : ClientJob :=
  { j with activity := .sendData, nReqRangeTo := -1, nReqRangeFrom := 0, sendbuf := j.fullHead env fi }

@[simp] theorem sendsAll_sendbuf (env : CookEnv) (j : ClientJob) (fi : FileItem) :
    (j.sendsAll env fi).sendbuf = j.fullHead env fi := rfl

theorem sendsAll_whole (env : CookEnv) (j : ClientJob) (fi : FileItem) :
    (j.sendsAll env fi).nReqRangeTo < 0 := Int.negSucc_lt_zero 0

/-- The answer for an item of which the whole is wanted. -/
theorem cook_full (env : CookEnv) (j : ClientJob) (fi : FileItem)
    (hs : fi.responseStatus.code = 200) (hfrom : j.nReqRangeFrom = -1) (hto : j.nReqRangeTo = -1)
    (hm : j.notModified env fi = false) (hc : j.goChunked fi = false) :
    j.cookResponseHeader env (some (fi, [])) = j.sendsAll env fi := by
  have hredir : fi.responseStatus.isRedirect = false := by simp [RemoteStatus.isRedirect, hs]
  have hbody : fi.responseStatus.mustNotHaveBody = false := by simp [RemoteStatus.mustNotHaveBody, hs]
  have hu : ∀ k : ClientJob, k.nReqRangeFrom = -1 → k.nReqRangeTo = -1 → k.unsatisfiable fi = false := by
    intro k h1 h2
    have h0 : offT (-1 + 1) = 0 := by decide
    simp only [unsatisfiable, h1, h2, h0, Bool.and_eq_false_imp, Bool.or_eq_false_iff,
      decide_eq_true_eq, decide_eq_false_iff_not]
    omega
  have hsv : ∀ k : ClientJob, k.nReqRangeFrom = -1 → k.servesRange fi = false := by
    intro k h1
    simp [servesRange, h1]
  have hm' : { j with activity := .sendData }.notModified env fi = false := hm
  have hc' : { j with activity := .sendData }.goChunked fi = false := hc
  simp only [cookResponseHeader, List.isEmpty_nil, hredir, hbody, hs, hm', hc',
    hu { j with activity := .sendData } hfrom hto, hsv { j with activity := .sendData } hfrom]
  rfl

/-- A new GET job without a range, and an item of which it gets all in one piece. -/
structure WantsAll (env : CookEnv) (j : ClientJob) (fi : FileItem) : Prop where
  new : j.activity = .notStarted
  buf : j.sendbuf = []
  pos : j.nSendPos = 0
  get : j.bIsHeadOnly = false
  rangeFrom : j.nReqRangeFrom = -1
  rangeTo : j.nReqRangeTo = -1
  code : fi.responseStatus.code = 200
  modified : j.notModified env fi = false
  unchunked : j.goChunked fi = false

/-- The first call only makes the head. -/
theorem deliver_cook (env : CookEnv) (file : Bytes) (j : ClientJob) (io : SendIo)
    (ios : List SendIo) (hnew : j.activity = .notStarted) (hbuf : j.sendbuf = [])
    (hwait : (j.awaitSendableState io.seen).isSome = true) :
    j.deliver env file (io :: ios) = (j.cookResponseHeader env io.item).deliver env file ios := by
  obtain ⟨p, hp⟩ := Option.isSome_iff_exists.mp hwait
  have hcall : j.sendData env file io = (j.cookResponseHeader env io.item, .again, []) := by
    rw [sendData_empty env file j io hbuf]
    simp only [perform, hnew, hp]
  rw [deliver, hcall]
  rfl

/-- A full answer that ends is self-consistent if and only if the announced length was that of the
file, and a job on a connection to keep is not called again when the whole file was sent. It ends
if the socket always takes something. -/
theorem full_answer_iff (env : CookEnv) (file : Bytes) (j : ClientJob) (fi : FileItem) (io : SendIo)
    (ios : List SendIo) (hlen : file.length < 2 ^ 63) (h : WantsAll env j fi)
    (hitem : io.item = some (fi, [])) (hwait : (j.awaitSendableState io.seen).isSome = true)
    (hg : (j.cookResponseHeader env io.item).Along env file (Serves file) ios) :
    ((j.deliver env file (io :: ios)).2.1 ≠ .again →
      ((0 ≤ fi.nContentLength ∧
        (∃ body, (j.deliver env file (io :: ios)).2.2 = j.fullHead env fi ++ body ∧
          body = file.take body.length ∧ (body.length : Int) = fi.nContentLength) ∧
        (j.persistent = true → (j.deliver env file (io :: ios)).2.1 = .done)) ↔
      (fi.nContentLength = file.length ∧
        (j.persistent = true →
          (j.cookResponseHeader env io.item).Along env file (NotLate file) ios)))) ∧
    ((∀ io ∈ ios, Moves io) → (j.fullHead env fi).length + file.length < ios.length →
      (j.deliver env file (io :: ios)).2.1 ≠ .again) := by
  rw [deliver_cook env file j io ios h.new h.buf hwait]
  rw [hitem] at hg ⊢
  have hcook := cook_full env j fi h.code h.rangeFrom h.rangeTo h.modified h.unchunked
  rw [hcook] at hg ⊢
  have hall : (j.sendsAll env fi).Delivers env file file := by
    have := delivers_part env file (j.sendsAll env fi) 0 file.length hlen rfl h.get h.pos
      (Nat.zero_le _) (le_refl _) (.inl ⟨j.sendsAll_whole env fi, rfl⟩)
    simpa [part] using this
  obtain ⟨-, hout, hends⟩ := hall ios hg
  refine ⟨fun hend => ?_, hends⟩
  have hdone : j.persistent = true → (((j.sendsAll env fi).deliver env file ios).2.1 = .done ↔
      (j.sendsAll env fi).Along env file (NotLate file) ios) := by
    intro hk
    refine deliver_done_iff env file (j.fullHead env fi) hlen ios (j.sendsAll env fi) [] ?_ hg hend
    exact ⟨⟨0, rfl, h.get, h.pos, le_refl _, Nat.zero_le _, le_refl _, .inl ⟨j.sendsAll_whole env fi, rfl⟩,
      by simp⟩, j.sendsAll_whole env fi, hk⟩
  constructor
  · rintro ⟨-, ⟨body, hbody, -, hl⟩, hk⟩
    rw [hout hend, sendsAll_sendbuf, List.append_cancel_left_eq] at hbody
    exact ⟨by rw [← hl, hbody], fun hp => (hdone hp).mp (hk hp)⟩
  · rintro ⟨hl, hk⟩
    refine ⟨by omega, ⟨file, hout hend, by simp, hl.symm⟩, fun hp => (hdone hp).mpr (hk hp)⟩

/-- One call that finds a complete item and a socket that takes all. -/
def oneCall (fi : FileItem) : SendIo :=
  { sent := some 1000, item := some (fi, []), seen := [(.complete, fi.nSizeChecked)], data := some 1000 }

theorem oneCall_serves (file : Bytes) (j : ClientJob) (fi : FileItem)
    (h : fi.nSizeChecked = file.length) :
    j.Serves file (oneCall fi) := by
  refine ⟨⟨_, rfl⟩, ⟨_, rfl⟩, rfl, fun _ => ⟨.complete, fi.nSizeChecked, ?_, by omega, fun _ => h⟩⟩
  simp [oneCall, awaitSendableState]

theorem wantsAll_fresh (fi : FileItem) (h : fi.responseStatus.code = 200)
    (hl : 0 ≤ fi.nContentLength) :
    WantsAll { dates := plainEnv.dates } {} fi := by
  refine ⟨rfl, rfl, rfl, rfl, rfl, rfl, h, rfl, ?_⟩
  simp only [goChunked, Bool.and_eq_false_imp, Bool.and_eq_true, decide_eq_true_eq]
  omega

/-- A complete file of four bytes. -/
theorem full_answer_complete :
    (deliver { dates := plainEnv.dates } (lit "abcd") {} [oneCall fourBytes, oneCall fourBytes]).2.1 = .done :=
  (((full_answer_iff { dates := plainEnv.dates } (lit "abcd") {} fourBytes (oneCall fourBytes)
    [oneCall fourBytes] (by decide) (wantsAll_fresh fourBytes rfl (by decide)) rfl (by decide)
    ⟨oneCall_serves _ _ _ (by decide), fun _ => trivial⟩).1 (by decide +kernel)).mpr
    ⟨by decide, fun _ => ⟨by unfold NotLate; decide +kernel, fun _ => trivial⟩⟩).2.2 (by decide)

/-- An empty file. -/
def noBytes : FileItem :=
  { status := .complete, responseStatus := ⟨200, lit "OK"⟩, nContentLength := 0, nSizeChecked := 0 }

/-- The head of an empty file announces no bytes and a connection that stays, and then it is dropped. -/
theorem empty_file_drops_connection :
    WantsAll { dates := plainEnv.dates } {} noBytes ∧
      (cookResponseHeader { dates := plainEnv.dates } {} (some (noBytes, []))).Along
        { dates := plainEnv.dates } [] (Serves []) [oneCall noBytes] ∧
      ({} : ClientJob).persistent = true ∧
      (deliver { dates := plainEnv.dates } [] {} [oneCall noBytes, oneCall noBytes]).2.1 = .discon :=
  ⟨wantsAll_fresh noBytes rfl (by decide), ⟨oneCall_serves _ _ _ (by decide), fun _ => trivial⟩, by decide,
    by decide +kernel⟩

end Acng.ClientJob
