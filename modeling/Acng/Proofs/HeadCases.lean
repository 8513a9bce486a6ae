import Acng.DlJob

namespace Acng.Dl
open Lib

/-- The item with the head accounted for. -/
def counted (d : Dl) (raw : Nat) : Dl :=
  { d with fi := { d.fi with nIncommingCount := d.fi.nIncommingCount + raw } }

/-- The item is taken as its own by the job: nobody else works on it. -/
def Free (d : Dl) : Prop :=
  d.fi.status < .complete ∧ (d.job.bFileItemAssigned = true ∨ d.fi.status ≤ .dlPending)

/-- The probe condition of the case 206. -/
def isProbe (env : Env) (d : Dl) (h : Header) (first total : Bytes) : Prop :=
  d.fi.isVolatile = true ∧ 0 < d.fi.nSizeCachedInitial ∧ strtoll total = d.fi.nSizeCachedInitial ∧
    d.fi.nSizeCachedInitial - 1 = strtoll first ∧
    d.fi.responseModDate.eqStr env.dates (h.h .lastModified) = true

/-- Everything that `CheckAndSaveHeader` can do. -/
inductive HeadCase (env : Env) (io : Io) (d : Dl) (h : Header) (raw : Nat) (contLen : Int) :
    ResponseEval × Dl → Prop
  | busy (hb : ¬ d.Free) : HeadCase env io d h raw contLen (.busyOrError, d.counted raw)
  | error (hf : d.Free) (msg : Bytes) (k : EDestroyMode) :
      HeadCase env io d h raw contLen ((d.counted raw).headError env msg k)
  | restart (hf : d.Free) (code : h.status.code = 416) (none : d.fi.nSizeChecked < 0) :
      HeadCase env io d h raw contLen
        (.restartNeeded, { d.counted raw with
          fi := { (d.counted raw).fi with nSizeCachedInitial := 0, bWriterMustReplaceFile := true } })
  | probe (hf : d.Free) (code : h.status.code = 206) (value first total : Bytes)
      (range : h.h .contentRange = some value) (found : rangeSearch value = some (first, total))
      (hp : d.isProbe env h first total) :
      HeadCase env io d h raw contLen
        (.good, { ({ d.counted raw with
            job := { d.job with bAllowStoreData := false } } : Dl).markAssigned env with
          fi := FileItem.dlFinish { (d.counted raw).fi with
            nTimeDlStarted := env.now, nSizeChecked := d.fi.nSizeCachedInitial
            nContentLength := d.fi.nSizeCachedInitial } true io.head })
  | full (hf : d.Free) (code : h.status.code = 200) :
      HeadCase env io d h raw contLen
        (({ d.counted raw with job := { d.job with nUsedRangeStartPos := 0 } } : Dl).startDownload
          env io h raw [] contLen)
  | part (hf : d.Free) (code : h.status.code = 206) (value first total : Bytes)
      (range : h.h .contentRange = some value) (found : rangeSearch value = some (first, total))
      (hp : ¬ d.isProbe env h first total) (start : d.job.nUsedRangeStartPos = strtoll first)
      (pos : strtoll first ≠ -1) (le : d.fi.nSizeCachedInitial ≤ strtoll first) :
      HeadCase env io d h raw contLen
        ((d.counted raw).startDownload env io (h.setStatus 200 (lit "OK")) raw [] (strtoll total))
  | other (hf : d.Free) (code : h.status.code ≠ 200 ∧ h.status.code ≠ 206)
      (free : d.job.bFileItemAssigned = false) (loc : Bytes) :
      HeadCase env io d h raw contLen
        (({ d.counted raw with job := { d.job with bAllowStoreData := false } } : Dl).startDownload
          env io h raw loc (-1))

theorem partialContent_cases (env : Env) (io : Io) (d : Dl) (h : Header) (raw : Nat) (contLen : Int)
    (hf : d.Free) (code : h.status.code = 206) :
    HeadCase env io d h raw contLen ((d.counted raw).partialContent env io h raw) := by
  have hset : ∀ p, (h.setStatus 200 (lit "OK")).h p = h.h p := fun _ => rfl
  unfold partialContent
  simp only [hset]
  split
  · exact .error hf _ _
  · rename_i value hr
    split
    · exact .error hf _ _
    · rename_i first total hs
      split
      · rename_i hp
        simp only [Bool.and_eq_true, decide_eq_true_eq] at hp
        exact .probe hf code value first total hr hs
          ⟨hp.1.1.1.1, hp.1.1.1.2, hp.1.1.2, hp.1.2, hp.2⟩
      · rename_i hp
        simp only [Bool.and_eq_true, decide_eq_true_eq] at hp
        split
        · exact .error hf _ _
        · rename_i hn
          simp only [ne_eq, decide_not, Bool.or_eq_true, decide_eq_true_eq, Bool.not_eq_true',
            decide_eq_false_iff_not, not_or, not_not, not_lt] at hn
          refine .part hf code value first total hr hs ?_ hn.1.2 hn.1.1 hn.2
          rintro ⟨h1, h2, h3, h4, h5⟩
          exact hp ⟨⟨⟨⟨h1, h2⟩, h3⟩, h4⟩, h5⟩

theorem checkAndSaveHeader_cases (env : Env) (io : Io) (d : Dl) (h : Header) (raw : Nat)
    (contLen : Int) :
    HeadCase env io d h raw contLen (d.checkAndSaveHeader env io h raw contLen) := by
  unfold checkAndSaveHeader
  simp only
  by_cases hc : FiStatus.complete ≤ d.fi.status
  · rw [if_pos hc]
    exact .busy (fun hf => absurd hf.1 (not_lt.mpr hc))
  rw [if_neg hc]
  by_cases hb : (!d.job.bFileItemAssigned && decide (FiStatus.dlPending < d.fi.status)) = true
  · rw [if_pos hb]
    simp only [Bool.and_eq_true, Bool.not_eq_true', decide_eq_true_eq] at hb
    refine .busy (fun hf => ?_)
    obtain ha | hp := hf.2
    · simp [ha] at hb
    · exact absurd hp (not_le.mpr hb.2)
  rw [if_neg hb]
  simp only [Bool.and_eq_true, Bool.not_eq_true', decide_eq_true_eq, not_and, not_lt] at hb
  have hf : d.Free := by
    refine ⟨not_le.mp hc, ?_⟩
    cases ha : d.job.bFileItemAssigned with
    | true => exact .inl rfl
    | false => exact .inr (hb ha)
  by_cases h200 : h.status.code = 200
  · rw [if_pos h200]
    exact .full hf h200
  rw [if_neg h200]
  by_cases h206 : h.status.code = 206
  · rw [if_pos h206]
    exact partialContent_cases env io d h raw contLen hf h206
  rw [if_neg h206]
  by_cases h416 : h.status.code = 416
  · rw [if_pos h416]
    split
    · rename_i hn
      exact .restart hf h416 hn
    · exact .error hf _ _
  rw [if_neg h416]
  by_cases ha : d.job.bFileItemAssigned = true
  · rw [if_pos ha]
    exact .error hf _ _
  rw [if_neg ha]
  split
  · exact .error hf _ _
  · exact .other hf ⟨h200, h206⟩ (by simpa using ha) _

theorem Free.unlocked {d : Dl} (hf : d.Free) : ¬ FiStatus.complete ≤ d.fi.status ∧
    (!d.job.bFileItemAssigned && decide (FiStatus.dlPending < d.fi.status)) = false := by
  refine ⟨not_le.mpr hf.1, ?_⟩
  rcases hf.2 with ha | hp
  · simp [ha]
  · simp [not_lt.mpr hp]

theorem checkAndSaveHeader_full (env : Env) (io : Io) (d : Dl) (h : Header) (raw : Nat)
    (contLen : Int) (hf : d.Free) (code : h.status.code = 200) :
    d.checkAndSaveHeader env io h raw contLen =
      ({ d.counted raw with job := { d.job with nUsedRangeStartPos := 0 } } : Dl).startDownload
        env io h raw [] contLen := by
  obtain ⟨h1, h2⟩ := hf.unlocked
  unfold checkAndSaveHeader
  simp only [h1, h2, code, if_true, if_false, Bool.false_eq_true]
  rfl

theorem checkAndSaveHeader_part (env : Env) (io : Io) (d : Dl) (h : Header) (raw : Nat)
    (contLen : Int) (hf : d.Free) (code : h.status.code = 206) :
    d.checkAndSaveHeader env io h raw contLen = (d.counted raw).partialContent env io h raw := by
  obtain ⟨h1, h2⟩ := hf.unlocked
  unfold checkAndSaveHeader
  simp only [h1, h2, code, if_true, if_false, Bool.false_eq_true]
  rfl

/-- The codes without a body that could be used. -/
theorem checkAndSaveHeader_rest (env : Env) (io : Io) (d : Dl) (h : Header) (raw : Nat)
    (contLen : Int) (hf : d.Free) (h200 : h.status.code ≠ 200) (h206 : h.status.code ≠ 206) :
    d.checkAndSaveHeader env io h raw contLen =
      if h.status.code = 416 then
        if d.fi.nSizeChecked < 0 then
          (.restartNeeded, { d.counted raw with
            fi := { (d.counted raw).fi with nSizeCachedInitial := 0, bWriterMustReplaceFile := true } })
        else (d.counted raw).headError env (lit "Disagreement on file size, cleaning up") .truncate
      else if d.job.bFileItemAssigned then (d.counted raw).headError env h.status.msg
      else if h.status.isRedirect && ((h.h .location).getD []).isEmpty then
        (d.counted raw).headError env (lit "Invalid redirection (missing location)")
      else
        ({ d.counted raw with job := { d.job with bAllowStoreData := false } } : Dl).startDownload
          env io h raw (if h.status.isRedirect then (h.h .location).getD [] else []) (-1) := by
  obtain ⟨h1, h2⟩ := hf.unlocked
  unfold checkAndSaveHeader
  simp only [h1, h2, h200, h206, if_false, Bool.false_eq_true]
  rfl

/-- The origin that is recorded with an item. -/
def originOf (d : Dl) (loc : Bytes) : Bytes := if loc.isEmpty then d.job.remoteUriPlain else loc

/-- The two outcomes of the common end. -/
theorem startDownload_of (env : Env) (io : Io) (d : Dl) (h : Header) (raw : Nat) (loc : Bytes)
    (contLen : Int) (ok : Bool) (fi' : FileItem)
    (hr : (d.markAssigned env).fi.dlStarted env.dates raw
      (HttpDate.ofCStr env.dates (h.h .lastModified)) (d.originOf loc) h.status
      d.job.nUsedRangeStartPos contLen = (ok, fi')) :
    d.startDownload env io h raw loc contLen =
      if ok then (.good, { d.markAssigned env with
        fi := if d.job.bAllowStoreData then fi' else fi'.dlFinish true io.head })
      else (.busyOrError, { d.markAssigned env with fi := fi' }) := by
  have hr' : (d.markAssigned env).fi.dlStarted env.dates raw
      (HttpDate.ofCStr env.dates (h.h .lastModified))
      (if loc.isEmpty then (d.markAssigned env).job.remoteUriPlain else loc) h.status
      (d.markAssigned env).job.nUsedRangeStartPos contLen = (ok, fi') := hr
  unfold startDownload
  simp only [hr']
  cases ok <;> rfl

/-- The job fields that `CheckAndSaveHeader` can change. -/
structure HeadFrame (d d' : Dl) : Prop where
  buf : d'.buf = d.buf
  job : d'.job = { d.job with
    bAllowStoreData := d'.job.bAllowStoreData
    bFileItemAssigned := d'.job.bFileItemAssigned
    nUsedRangeStartPos := d'.job.nUsedRangeStartPos }

theorem startDownload_frame (env : Env) (io : Io) (d : Dl) (h : Header) (raw : Nat) (loc : Bytes)
    (contLen : Int) :
    (d.startDownload env io h raw loc contLen).2.buf = d.buf ∧
      (d.startDownload env io h raw loc contLen).2.job = { d.job with bFileItemAssigned := true } := by
  cases hr : (d.markAssigned env).fi.dlStarted env.dates raw
      (HttpDate.ofCStr env.dates (h.h .lastModified)) (d.originOf loc) h.status
      d.job.nUsedRangeStartPos contLen with
  | mk ok fi' =>
    rw [startDownload_of env io d h raw loc contLen ok fi' hr]
    cases ok <;> exact ⟨rfl, rfl⟩

theorem checkAndSaveHeader_frame (env : Env) (io : Io) (d : Dl) (h : Header) (raw : Nat)
    (contLen : Int) : HeadFrame d (d.checkAndSaveHeader env io h raw contLen).2 := by
  have hc := checkAndSaveHeader_cases env io d h raw contLen
  generalize d.checkAndSaveHeader env io h raw contLen = r at hc ⊢
  cases hc with
  | busy | error | restart | probe => exact ⟨rfl, rfl⟩
  | full | other =>
    obtain ⟨hb, hj⟩ := startDownload_frame env io _ _ raw _ _
    exact ⟨hb, by rw [hj]⟩
  | part =>
    obtain ⟨hb, hj⟩ := startDownload_frame env io (d.counted raw) _ raw _ _
    exact ⟨hb, by rw [hj]; rfl⟩

/-- A head that goes on to `CheckAndSaveHeader`: it is the one in the buffer but for the
fake values, and the framing is chosen by it. -/
structure Saved (env : Env) (bOnly : Bool) (d d' : Dl) (h : Header) (n : Nat) (contLen : Int) :
    Prop where
  len : (Header.load d.buf).1 = n
  pos : 0 < n
  buf : d'.buf = d.buf
  fi : d'.fi = d.fi
  only : env.cfg.redirmax ≠ 0 → bOnly = false
  field : ∀ p, p ≠ .lastModified → p ≠ .transferEncoding → h.h p = (Header.load d.buf).2.hd.h p
  status : h.status = (Header.load d.buf).2.hd.status ∨ h.status.code = 501
  length : contLen = fieldNum (Header.load d.buf).2.hd .contentLength (-1)
  framing :
    (d.job.fiAttr.bHeadOnly = true ∧ d'.job = { d.job with dlState := .finishJob }) ∨
    (d.job.fiAttr.bHeadOnly = false ∧ d'.job = { d.job with dlState := .getChunkHead }) ∨
    (d.job.fiAttr.bHeadOnly = false ∧ 0 ≤ contLen ∧
      d'.job = { d.job with nRest := contLen.toNat, dlState := .processData })
  chunked : d.job.fiAttr.bHeadOnly = false →
    (d'.job.dlState = .getChunkHead ↔ isChunked (Header.load d.buf).2.hd = true)

/-- The fake values for a badly redirected response. -/
theorem faked_head (cfg : Cfg) (d : Dl) (h h' : Header)
    (he : h' = if badRedirect cfg d.job h then
        if d.fi.isVolatile then h.set .lastModified (some fakeDateMark)
        else h.setStatus 501 (lit "Redirected to invalid target")
      else h) :
    (∀ p, p ≠ .lastModified → h'.h p = h.h p) ∧ (h'.status = h.status ∨ h'.status.code = 501) := by
  subst he
  split
  · split
    · exact ⟨fun p hp => by simp [Header.set, hp], .inl rfl⟩
    · exact ⟨fun _ _ => rfl, .inr rfl⟩
  · exact ⟨fun _ _ => rfl, .inl rfl⟩

theorem framing_saved (env : Env) (bOnly : Bool) (d d' : Dl) (h' : Header) (n n' : Nat)
    (contLen : Int) (ret ret' : Nat) (hn : (Header.load d.buf).1 = n) (hpos : 0 < n)
    (ho : env.cfg.redirmax ≠ 0 → bOnly = false)
    (hf : d.framing env (Header.load d.buf).2.hd n ret = .save d' h' n' contLen ret') :
    Saved env bOnly d d' h' n' contLen := by
  unfold framing at hf
  simp only at hf
  have hfake := faked_head env.cfg d (Header.load d.buf).2.hd _ rfl
  generalize (if badRedirect env.cfg d.job (Header.load d.buf).2.hd = true then _ else _) = h1
    at hf hfake
  obtain ⟨hfield, hstatus⟩ := hfake
  split at hf
  · rename_i hh
    obtain ⟨rfl, rfl, rfl, rfl, -⟩ := HeadStep.save.inj hf
    exact ⟨hn, hpos, rfl, rfl, ho, fun p hp _ => hfield p hp, hstatus, rfl, .inl ⟨hh, rfl⟩,
      fun hno => absurd hh (by simp [hno])⟩
  · rename_i hh
    have hh' : d.job.fiAttr.bHeadOnly = false := by simpa using hh
    split at hf
    · rename_i hchunk
      obtain ⟨rfl, rfl, rfl, rfl, -⟩ := HeadStep.save.inj hf
      refine ⟨hn, hpos, rfl, rfl, ho, ?_, hstatus, rfl, .inr (.inl ⟨hh', rfl⟩), ?_⟩
      · intro p hp ht
        rw [← hfield p hp]
        simp [Header.del, Header.set, ht]
      · exact fun _ => ⟨fun _ => hchunk, fun _ => rfl⟩
    · rename_i hchunk
      split at hf
      · simp at hf
      · rename_i hc
        obtain ⟨rfl, rfl, rfl, rfl, -⟩ := HeadStep.save.inj hf
        exact ⟨hn, hpos, rfl, rfl, ho, fun p hp _ => hfield p hp, hstatus, rfl,
          .inr (.inr ⟨hh', by omega, rfl⟩), fun _ => ⟨fun he => by simp at he, fun he => absurd he hchunk⟩⟩

/-- The buffer starts with a complete head of an answer. -/
def AnswerHead (d : Dl) : Prop := 0 < (Header.load d.buf).1 ∧ (Header.load d.buf).2.hd.type = .answer

/-- The mirror has no keyfile. -/
def keyfileMissing (d : Dl) (h : Header) : Bool :=
  400 ≤ h.status.code && d.job.remoteUri.sHost.isEmpty &&
    d.job.pRepoDesc.any (fun r => r.keyfiles.any (fun k => k.isSuffixOf d.job.remoteUri.sPath))

/-- Everything that the state `STATE_GETHEADER` can do before a head is saved. -/
inductive HeadStepCase (env : Env) (bOnly : Bool) (d : Dl) : HeadStep → Prop
  | missing (h : d.buf = [] ∨ (Header.load d.buf).1 = 0) : HeadStepCase env bOnly d (.ret d HINT_MORE)
  | invalid (hneg : (Header.load d.buf).1 < 0) :
      HeadStepCase env bOnly d (.ret { d with job := { d.job with sErrorMsg := lit "Invalid header" } }
        (EFLAG_MIRROR_BROKEN ||| HINT_RECONNECT_NOW ||| HINT_KILL_LAST_FILE))
  | noAnswer (htype : (Header.load d.buf).2.hd.type ≠ .answer) :
      HeadStepCase env bOnly d (.ret { d with job := { d.job with sErrorMsg := lit "Unexpected response type" } }
        (EFLAG_MIRROR_BROKEN ||| EFLAG_LOST_CON ||| HINT_RECONNECT_NOW))
  | hint (hhead : d.AnswerHead) (hcode : (Header.load d.buf).2.hd.status.code < 200) :
      HeadStepCase env bOnly d (.ret { d with buf := d.buf.drop (Header.load d.buf).1.toNat }
        (closeHint (Header.load d.buf).2.hd ||| HINT_MORE))
  | redirected (hhead : d.AnswerHead)
      (hred : (env.cfg.redirmax ≠ 0 && (Header.load d.buf).2.hd.status.isRedirect) = true) :
      HeadStepCase env bOnly d (d.redirect (Header.load d.buf).2.hd (closeHint (Header.load d.buf).2.hd))
  | elsewhere (hhead : d.AnswerHead)
      (hred : ¬ (env.cfg.redirmax ≠ 0 && (Header.load d.buf).2.hd.status.isRedirect) = true)
      (honly : (env.cfg.redirmax ≠ 0 && bOnly) = true) :
      HeadStepCase env bOnly d
        (.ret d (closeHint (Header.load d.buf).2.hd ||| EFLAG_LOST_CON ||| HINT_RECONNECT_NOW))
  | keyfile (hhead : d.AnswerHead)
      (hred : ¬ (env.cfg.redirmax ≠ 0 && (Header.load d.buf).2.hd.status.isRedirect) = true)
      (honly : ¬ (env.cfg.redirmax ≠ 0 && bOnly) = true)
      (hkey : d.keyfileMissing (Header.load d.buf).2.hd = true) :
      HeadStepCase env bOnly d
        (.ret { d with job := { d.job with sErrorMsg := lit "Keyfile N/A, mirror blacklisted" } }
          (closeHint (Header.load d.buf).2.hd ||| HINT_RECONNECT_NOW ||| EFLAG_MIRROR_BROKEN))
  | framed (hhead : d.AnswerHead) (hcode : ¬ (Header.load d.buf).2.hd.status.code < 200)
      (hred : ¬ (env.cfg.redirmax ≠ 0 && (Header.load d.buf).2.hd.status.isRedirect) = true)
      (honly : ¬ (env.cfg.redirmax ≠ 0 && bOnly) = true)
      (hkey : ¬ d.keyfileMissing (Header.load d.buf).2.hd = true) :
      HeadStepCase env bOnly d (d.framing env (Header.load d.buf).2.hd (Header.load d.buf).1.toNat
        (closeHint (Header.load d.buf).2.hd))

theorem isEmpty_of_load {buf : Bytes} (h : 0 < (Header.load buf).1) : buf.isEmpty = false := by
  cases buf with
  | nil => exact absurd h (by simp [Header.load])
  | cons c t => rfl

theorem headStep_incomplete (env : Env) (bOnly : Bool) (d : Dl) (h : (Header.load d.buf).1 = 0) :
    d.headStep env bOnly = .ret d HINT_MORE := by
  unfold headStep
  by_cases hemp : d.buf.isEmpty = true
  · rw [if_pos hemp]
  · rw [if_neg hemp]
    exact if_pos h

/-- What is done with the head of an answer. -/
theorem headStep_answer (env : Env) (bOnly : Bool) {d : Dl} (h : d.AnswerHead) :
    d.headStep env bOnly =
      if (Header.load d.buf).2.hd.status.code < 200 then
        .ret { d with buf := d.buf.drop (Header.load d.buf).1.toNat } (closeHint (Header.load d.buf).2.hd ||| HINT_MORE)
      else if env.cfg.redirmax ≠ 0 && (Header.load d.buf).2.hd.status.isRedirect then
        d.redirect (Header.load d.buf).2.hd (closeHint (Header.load d.buf).2.hd)
      else if env.cfg.redirmax ≠ 0 && bOnly then
        .ret d (closeHint (Header.load d.buf).2.hd ||| EFLAG_LOST_CON ||| HINT_RECONNECT_NOW)
      else if d.keyfileMissing (Header.load d.buf).2.hd then
        .ret { d with job := { d.job with sErrorMsg := lit "Keyfile N/A, mirror blacklisted" } }
          (closeHint (Header.load d.buf).2.hd ||| HINT_RECONNECT_NOW ||| EFLAG_MIRROR_BROKEN)
      else d.framing env (Header.load d.buf).2.hd (Header.load d.buf).1.toNat
        (closeHint (Header.load d.buf).2.hd) := by
  obtain ⟨hpos, hans⟩ := h
  unfold headStep
  rw [if_neg (by rw [isEmpty_of_load hpos]; exact Bool.false_ne_true)]
  simp only
  rw [if_neg (by omega), if_neg (by omega), if_neg (not_not.mpr hans)]
  rfl

theorem headStep_cases (env : Env) (bOnly : Bool) (d : Dl) : HeadStepCase env bOnly d (d.headStep env bOnly) := by
  by_cases hhead : d.AnswerHead
  case neg =>
    unfold headStep
    by_cases hemp : d.buf.isEmpty = true
    · rw [if_pos hemp]
      exact .missing (.inl (List.isEmpty_iff.mp hemp))
    rw [if_neg hemp]
    simp only
    by_cases hzero : (Header.load d.buf).1 = 0
    · rw [if_pos hzero]
      exact .missing (.inr hzero)
    rw [if_neg hzero]
    by_cases hneg : (Header.load d.buf).1 < 0
    · rw [if_pos hneg]
      exact .invalid hneg
    have htype : (Header.load d.buf).2.hd.type ≠ .answer := fun hans => hhead ⟨by omega, hans⟩
    rw [if_neg hneg, if_pos htype]
    exact .noAnswer htype
  rw [headStep_answer env bOnly hhead]
  by_cases hcode : (Header.load d.buf).2.hd.status.code < 200
  · rw [if_pos hcode]
    exact .hint hhead hcode
  rw [if_neg hcode]
  by_cases hred : (env.cfg.redirmax ≠ 0 && (Header.load d.buf).2.hd.status.isRedirect) = true
  · rw [if_pos hred]
    exact .redirected hhead hred
  rw [if_neg hred]
  by_cases honly : (env.cfg.redirmax ≠ 0 && bOnly) = true
  · rw [if_pos honly]
    exact .elsewhere hhead hred honly
  rw [if_neg honly]
  by_cases hkey : d.keyfileMissing (Header.load d.buf).2.hd = true
  · rw [if_pos hkey]
    exact .keyfile hhead hred honly hkey
  · rw [if_neg hkey]
    exact .framed hhead hcode hred honly hkey

theorem headStep_saved (env : Env) (bOnly : Bool) (d d' : Dl) (h : Header) (n : Nat) (contLen : Int)
    (ret : Nat) (hs : d.headStep env bOnly = .save d' h n contLen ret) :
    Saved env bOnly d d' h n contLen := by
  have hcase := headStep_cases env bOnly d
  rw [hs] at hcase
  generalize hstep : HeadStep.save d' h n contLen ret = step at hcase
  cases hcase with
  | missing => cases hstep
  | invalid => cases hstep
  | noAnswer => cases hstep
  | hint => cases hstep
  | redirected =>
    unfold redirect at hstep
    simp only at hstep
    split at hstep <;> cases hstep
  | elsewhere => cases hstep
  | keyfile => cases hstep
  | framed hhead hcode hred honly hkey =>
    have hpos := hhead.1
    have hlen : (Header.load d.buf).1 = ((Header.load d.buf).1.toNat : Int) := by omega
    refine framing_saved env bOnly d d' h _ n contLen _ ret hlen (by omega) ?_ hstep.symm
    intro hr
    simpa [hr] using honly

/-- A job that differs only in its target, its backend and its message. -/
def SameStream (j j' : DlJob) : Prop :=
  j' = { j with
    sErrorMsg := j'.sErrorMsg, remoteUri := j'.remoteUri, pCurBackend := j'.pCurBackend
    bBackendMode := j'.bBackendMode, nRedirRemaining := j'.nRedirRemaining }

theorem rewriteSource_frame (j : DlJob) (loc : Option Bytes) : SameStream j (j.rewriteSource loc).2 := by
  unfold DlJob.rewriteSource
  simp only
  split
  · rfl
  · split
    · rfl
    · split
      · rfl
      · split
        · rfl
        · split <;> rfl
        · split <;> rfl

/-- A head that is dealt with before the item is involved. -/
structure Returned (d d' : Dl) : Prop where
  fi : d'.fi = d.fi
  buf : d'.buf <:+ d.buf
  job : SameStream d.job d'.job

theorem framing_returned (env : Env) (d d' : Dl) (h : Header) (n ret res : Nat)
    (hf : d.framing env h n ret = .ret d' res) : Returned d d' := by
  unfold framing at hf
  simp only at hf
  split at hf
  · simp at hf
  · split at hf
    · simp at hf
    · split at hf
      · cases hf
        exact ⟨rfl, List.suffix_refl _, rfl⟩
      · simp at hf

theorem redirect_returned (d d' : Dl) (h : Header) (ret res : Nat)
    (hr : d.redirect h ret = .ret d' res) : Returned d d' := by
  unfold redirect at hr
  simp only at hr
  have hj := rewriteSource_frame d.job (h.h .location)
  split at hr
  · cases hr
    exact ⟨rfl, List.suffix_refl _, hj⟩
  · cases hr
    refine ⟨rfl, ?_, hj⟩
    simp only
    split
    · exact List.drop_suffix _ _
    · exact List.suffix_refl _

theorem headStep_returned (env : Env) (bOnly : Bool) (d d' : Dl) (res : Nat)
    (hs : d.headStep env bOnly = .ret d' res) : Returned d d' := by
  have hcase := headStep_cases env bOnly d
  rw [hs] at hcase
  generalize hstep : HeadStep.ret d' res = step at hcase
  cases hcase with
  | missing => cases hstep; exact ⟨rfl, List.suffix_refl _, rfl⟩
  | invalid => cases hstep; exact ⟨rfl, List.suffix_refl _, rfl⟩
  | noAnswer => cases hstep; exact ⟨rfl, List.suffix_refl _, rfl⟩
  | hint => cases hstep; exact ⟨rfl, List.drop_suffix _ _, rfl⟩
  | redirected => exact redirect_returned d d' _ _ res hstep.symm
  | elsewhere => cases hstep; exact ⟨rfl, List.suffix_refl _, rfl⟩
  | keyfile => cases hstep; exact ⟨rfl, List.suffix_refl _, rfl⟩
  | framed => exact framing_returned env d d' _ _ _ res hstep.symm

end Acng.Dl
