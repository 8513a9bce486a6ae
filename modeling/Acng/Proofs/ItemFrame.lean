import Acng.DlSystem
import Acng.Proofs.HeadCases
import Acng.Proofs.Storage
import Acng.Proofs.Stream

namespace Acng
open Lib

/-- What the download handlers leave alone, and that they do not put an item back
to a state before its head. -/
structure FileItem.Kept (fi fi' : FileItem) : Prop where
  refs : fi'.nDlRefsCount = fi.nDlRefsCount
  attr : fi'.spattr = fi.spattr
  cached : fi'.nSizeCachedInitial = fi.nSizeCachedInitial
  taken : .dlGotHead ≤ fi.status → .dlGotHead ≤ fi'.status

namespace FileItem

theorem Kept.refl (fi : FileItem) : Kept fi fi := ⟨rfl, rfl, rfl, id⟩

theorem Kept.trans {a b c : FileItem} (h : Kept a b) (g : Kept b c) : Kept a c :=
  ⟨g.refs.trans h.refs, g.attr.trans h.attr, g.cached.trans h.cached, g.taken ∘ h.taken⟩

theorem Kept.error {fi fi' : FileItem} (h : Kept fi fi') (errState : RemoteStatus)
    (kmode : EDestroyMode) : Kept fi (fi'.dlSetError errState kmode) :=
  ⟨h.refs, h.attr, h.cached, fun _ => by change FiStatus.dlGotHead ≤ .dlError; decide⟩

/-- A relation that all updates of `SafeOpenOutFile` satisfy. -/
structure OpenRel (R : FileItem → FileItem → Prop) : Prop where
  refl : ∀ fi, R fi fi
  trans : ∀ {a b c}, R a b → R b c → R a c
  files : ∀ fi disk filefd must,
    R fi { fi with disk := disk, filefd := filefd, bWriterMustReplaceFile := must }
  zero : ∀ fi : FileItem, fi.nSizeChecked < 0 → R fi { fi with nSizeChecked := 0 }
  receiving : ∀ fi, R fi { fi with status := .dlReceiving }
  error : ∀ fi errState kmode, R fi (fi.dlSetError errState kmode)

section open_rel

variable {R : FileItem → FileItem → Prop} (hR : OpenRel R)
include hR

theorem replaceFile_rel (fi : FileItem) (io : ReplaceIo) : R fi (fi.replaceFile io).2 := by
  have hclose := hR.files fi fi.disk none false
  unfold replaceFile
  simp only
  split
  · exact hR.trans hclose (hR.error _ _ _)
  · split
    · exact hR.trans hclose (hR.error _ _ _)
    · split
      · exact hR.trans (hR.files fi { fi.disk with file := none } none false) (hR.error _ _ _)
      · exact hR.files fi _ _ _

theorem openFile_rel (fi : FileItem) (ok : Bool) : R fi (fi.openFile ok) := by
  unfold openFile
  split
  · exact hR.files fi _ _ _
  · exact hR.refl fi

theorem obtainFd_rel (fi : FileItem) (io : StoreIo) : R fi (fi.obtainFd io).2 := by
  unfold obtainFd
  simp only
  have h1 : R fi (if (fi.bWriterMustReplaceFile || decide (fi.nContentLength < 0)) = true then
      fi.replaceFile io.replaceOrdered else (true, fi)).2 := by
    split
    · exact replaceFile_rel hR fi _
    · exact hR.refl fi
  generalize (if (fi.bWriterMustReplaceFile || decide (fi.nContentLength < 0)) = true then
      fi.replaceFile io.replaceOrdered else (true, fi)) = r at h1 ⊢
  split
  · exact h1
  · have h2 : R r.2 (if r.2.filefd.isNone = true then r.2.openFile io.openFile else r.2) := by
      split
      · exact openFile_rel hR _ _
      · exact hR.refl _
    generalize (if r.2.filefd.isNone = true then r.2.openFile io.openFile else r.2) = f at h2 ⊢
    split
    · exact hR.trans (hR.trans h1 h2) (replaceFile_rel hR f _)
    · exact hR.trans h1 h2

theorem startWriting_rel (fi : FileItem) (io : StoreIo) (size : Int) :
    R fi (fi.startWriting io size).2 := by
  unfold startWriting
  simp only
  have h1 : R fi (if fi.nSizeChecked < 0 then { fi with nSizeChecked := 0 } else fi) := by
    split
    · rename_i h
      exact hR.zero fi h
    · exact hR.refl fi
  generalize (if fi.nSizeChecked < 0 then { fi with nSizeChecked := 0 } else fi) = f at h1 ⊢
  have h2 : ∀ disk, R fi { f with disk := disk, filefd := some f.nSizeChecked.toNat } :=
    fun disk => hR.trans h1 (hR.files f disk _ _)
  split
  · exact hR.trans (h2 f.disk) (hR.error _ _ _)
  · obtain ⟨head, hh⟩ := saveHeader_frame { f with filefd := some f.nSizeChecked.toNat } false io.head
    rw [hh]
    split
    · exact hR.trans (h2 _) (hR.error _ _ _)
    · exact hR.trans (h2 _) (hR.receiving _)

theorem safeOpenOutFile_rel (fi : FileItem) (io : StoreIo) : R fi (fi.safeOpenOutFile io).2 := by
  have h0 : R fi { fi with filefd := none } := hR.files fi _ _ _
  unfold safeOpenOutFile
  simp only
  split
  · exact h0
  · have h1 : R fi (obtainFd { fi with filefd := none } io).2 := hR.trans h0 (obtainFd_rel hR _ io)
    generalize obtainFd { fi with filefd := none } io = r at h1 ⊢
    split
    · exact h1
    · split
      · exact hR.trans h1 (hR.error _ _ _)
      · split
        · have h2 := replaceFile_rel hR r.2 io.replaceLonger
          generalize r.2.replaceFile io.replaceLonger = q at h2 ⊢
          split
          · exact hR.trans h1 h2
          · exact hR.trans (hR.trans h1 h2) (startWriting_rel hR _ _ _)
        · exact hR.trans h1 (startWriting_rel hR _ _ _)

/-- The counter and the write loop are what `DlAddData` adds to that. -/
theorem dlAddData_rel (hcount : ∀ (fi : FileItem) n, R fi { fi with nIncommingCount := n })
    (hwrite : ∀ (fi : FileItem) pos chunk, R fi (fi.writeChunk pos chunk)) (fi : FileItem)
    (chunk : Bytes) (io : StoreIo) : R fi (fi.dlAddData chunk io).2 := by
  unfold dlAddData
  simp only
  have h1 : R fi (if fi.filefd.isNone = true then
      safeOpenOutFile { fi with nIncommingCount := fi.nIncommingCount + chunk.length } io
      else (true, { fi with nIncommingCount := fi.nIncommingCount + chunk.length })).2 := by
    split
    · exact hR.trans (hcount fi _) (safeOpenOutFile_rel hR _ io)
    · exact hcount fi _
  generalize (if fi.filefd.isNone = true then
      safeOpenOutFile { fi with nIncommingCount := fi.nIncommingCount + chunk.length } io
      else (true, { fi with nIncommingCount := fi.nIncommingCount + chunk.length })) = r at h1 ⊢
  split
  · exact h1
  · split
    · exact hR.trans h1 (hR.error _ _ _)
    · split
      · exact hR.trans h1 (hR.error _ _ _)
      · split
        · exact h1
        · split
          · exact hR.trans h1 (hwrite _ _ _)
          · exact hR.trans (hR.trans h1 (hwrite _ _ _)) (hR.error _ _ _)

end open_rel

theorem kept_open : OpenRel Kept where
  refl := Kept.refl
  trans := Kept.trans
  files _ _ _ _ := ⟨rfl, rfl, rfl, id⟩
  zero _ _ := ⟨rfl, rfl, rfl, id⟩
  receiving _ := ⟨rfl, rfl, rfl, fun _ => by change FiStatus.dlGotHead ≤ .dlReceiving; decide⟩
  error fi errState kmode := (Kept.refl fi).error errState kmode

theorem dlAddData_kept (fi : FileItem) (chunk : Bytes) (io : StoreIo) :
    Kept fi (fi.dlAddData chunk io).2 :=
  dlAddData_rel kept_open (fun _ _ => ⟨rfl, rfl, rfl, id⟩) (fun _ _ _ => ⟨rfl, rfl, rfl, id⟩) fi chunk io

theorem dlFinish_kept (fi : FileItem) (force : Bool) (io : HeadIo) : Kept fi (fi.dlFinish force io) := by
  obtain ⟨status, len, head, hf⟩ := dlFinish_frame fi force io
  rw [hf]
  refine ⟨rfl, rfl, rfl, ?_⟩
  intro ht
  have hst : (fi.dlFinish force io).status = fi.status ∨ (fi.dlFinish force io).status = .complete := by
    unfold dlFinish
    split
    · exact .inl rfl
    · split
      · exact .inl rfl
      · simp only
        split
        · split
          · obtain ⟨head, hh⟩ := saveHeader_frame (fixLength { fi with status := .complete }) false io
            rw [hh]
            exact .inr rfl
          · exact .inr rfl
        · exact .inr rfl
  rw [hf] at hst
  rcases hst with hst | hst
  · rw [hst]
    exact ht
  · rw [hst]
    decide

/-- An item whose download was tried has a head. -/
theorem dlStarted_kept (lib : DateLib) (fi : FileItem) (raw : Nat) (modDate : HttpDate)
    (origin : Bytes) (status : RemoteStatus) (seek announced : Int) :
    Kept fi (fi.dlStarted lib raw modDate origin status seek announced).2 ∧
      .dlGotHead ≤ (fi.dlStarted lib raw modDate origin status seek announced).2.status := by
  have hle : FiStatus.dlGotHead ≤ .dlGotHead := le_refl _
  unfold dlStarted
  simp only
  split
  · rename_i h
    simp only [Bool.and_eq_true, decide_eq_true_eq] at h
    exact ⟨⟨rfl, rfl, rfl, id⟩, h.1⟩
  · split
    · split
      · exact ⟨⟨rfl, rfl, rfl, fun _ => hle⟩, hle⟩
      · exact ⟨⟨rfl, rfl, rfl, fun _ => hle⟩, hle⟩
    · split
      · exact ⟨⟨rfl, rfl, rfl, fun _ => hle⟩, hle⟩
      · exact ⟨⟨rfl, rfl, rfl, fun _ => hle⟩, hle⟩

end FileItem

/-- Items that are not stored have nothing in the cache to begin with. -/
def FileItem.Sound (fi : FileItem) : Prop :=
  fi.spattr.bNoStore = true → fi.nSizeCachedInitial ≤ 0

theorem FileItem.Kept.sound {fi fi' : FileItem} (h : Kept fi fi') (hs : fi.Sound) : fi'.Sound := by
  unfold FileItem.Sound
  rw [h.attr, h.cached]
  exact hs

namespace Dl

/-- The job takes the item, which has a head from then on. -/
def Taken (d d' : Dl) : Prop :=
  d.Free ∧ d'.job.bFileItemAssigned = true ∧ (d.fi.Sound → .dlGotHead ≤ d'.fi.status)

/-- The job neither takes the item nor moves its status. -/
def Untouched (d d' : Dl) : Prop :=
  d'.fi.status = d.fi.status ∧ d'.job.bFileItemAssigned = d.job.bFileItemAssigned

/-- The download handlers never count references, and keep an item sound. -/
structure Framed (d d' : Dl) : Prop where
  refs : d'.fi.nDlRefsCount = d.fi.nDlRefsCount
  attr : d'.fi.spattr = d.fi.spattr
  sound : d.fi.Sound → d'.fi.Sound

theorem Framed.of_kept {d d' : Dl} (h : FileItem.Kept d.fi d'.fi) : Framed d d' :=
  ⟨h.refs, h.attr, h.sound⟩

theorem startDownload_takes (env : Env) (io : Io) (d : Dl) (h : Header) (raw : Nat) (loc : Bytes)
    (contLen : Int) :
    FileItem.Kept d.fi (d.startDownload env io h raw loc contLen).2.fi ∧
      (d.startDownload env io h raw loc contLen).2.job.bFileItemAssigned = true ∧
      .dlGotHead ≤ (d.startDownload env io h raw loc contLen).2.fi.status := by
  obtain ⟨hk, ht⟩ := FileItem.dlStarted_kept env.dates (d.markAssigned env).fi raw
    (HttpDate.ofCStr env.dates (h.h .lastModified)) (d.originOf loc) h.status
    d.job.nUsedRangeStartPos contLen
  have hk0 : FileItem.Kept d.fi (d.markAssigned env).fi := ⟨rfl, rfl, rfl, id⟩
  cases hr : (d.markAssigned env).fi.dlStarted env.dates raw
      (HttpDate.ofCStr env.dates (h.h .lastModified)) (d.originOf loc) h.status
      d.job.nUsedRangeStartPos contLen with
  | mk ok fi' =>
    rw [hr] at hk ht
    rw [startDownload_of env io d h raw loc contLen ok fi' hr]
    cases ok with
    | false => exact ⟨hk0.trans hk, rfl, ht⟩
    | true =>
      have hf := FileItem.dlFinish_kept fi' true io.head
      simp only [if_true]
      split
      · exact ⟨hk0.trans hk, rfl, ht⟩
      · exact ⟨(hk0.trans hk).trans hf, rfl, hf.taken ht⟩

theorem checkAndSaveHeader_takes (env : Env) (io : Io) (d : Dl) (h : Header) (raw : Nat)
    (contLen : Int) :
    Framed d (d.checkAndSaveHeader env io h raw contLen).2 ∧
      (Taken d (d.checkAndSaveHeader env io h raw contLen).2 ∨
        ((d.checkAndSaveHeader env io h raw contLen).1 ≠ .good ∧
          Untouched d (d.checkAndSaveHeader env io h raw contLen).2)) := by
  have hc := checkAndSaveHeader_cases env io d h raw contLen
  generalize d.checkAndSaveHeader env io h raw contLen = r at hc ⊢
  have hcount : FileItem.Kept d.fi (d.counted raw).fi := ⟨rfl, rfl, rfl, id⟩
  cases hc with
  | busy hb => exact ⟨⟨rfl, rfl, id⟩, .inr ⟨by simp, rfl, rfl⟩⟩
  | error hf msg k =>
    exact ⟨⟨rfl, rfl, id⟩, .inl ⟨hf, rfl, fun _ => by change FiStatus.dlGotHead ≤ .dlError; decide⟩⟩
  | restart hf code none =>
    exact ⟨⟨rfl, rfl, fun _ _ => le_refl (0 : Int)⟩, .inr ⟨by simp, rfl, rfl⟩⟩
  | probe hf code value first total range found hp =>
    refine ⟨Framed.of_kept ?_, .inl ⟨hf, rfl, ?_⟩⟩
    · refine FileItem.Kept.trans ?_ (FileItem.dlFinish_kept _ _ _)
      exact ⟨rfl, rfl, rfl, id⟩
    · intro hs
      have hns : d.fi.spattr.bNoStore = false := by
        cases hb : d.fi.spattr.bNoStore with
        | false => rfl
        | true =>
          have := hs hb
          have := hp.2.1
          omega
      have hfin : ∀ fi : FileItem, fi.spattr.bNoStore = false →
          .complete ≤ (fi.dlFinish true io.head).status := by
        intro fi hn
        rw [FileItem.dlFinish_status fi true io.head hn]
        exact le_max_right _ _
      exact (by decide : FiStatus.dlGotHead ≤ .complete).trans (hfin _ hns)
  | full hf code =>
    obtain ⟨hk, ha, ht⟩ := startDownload_takes env io
      { d.counted raw with job := { d.job with nUsedRangeStartPos := 0 } } h raw [] contLen
    exact ⟨Framed.of_kept (hcount.trans hk), .inl ⟨hf, ha, fun _ => ht⟩⟩
  | part hf code value first total range found hp start pos le =>
    obtain ⟨hk, ha, ht⟩ := startDownload_takes env io (d.counted raw)
      (h.setStatus 200 (lit "OK")) raw [] (strtoll total)
    exact ⟨Framed.of_kept (hcount.trans hk), .inl ⟨hf, ha, fun _ => ht⟩⟩
  | other hf code free loc =>
    obtain ⟨hk, ha, ht⟩ := startDownload_takes env io
      { d.counted raw with job := { d.job with bAllowStoreData := false } } h raw loc (-1)
    exact ⟨Framed.of_kept (hcount.trans hk), .inl ⟨hf, ha, fun _ => ht⟩⟩

/-- What one pass does to the item and to the claim of the job on it. -/
structure Pass (env : Env) (io : Io) (bOnly : Bool) (d d' : Dl) : Prop where
  framed : Framed d d'
  head : d.job.dlState = .getHeader →
    Taken d d' ∨ (d.isGood env io bOnly = false ∧ Untouched d d')
  data : d.job.dlState ≠ .getHeader → d.isGood env io bOnly = false ∧
    d'.job.bFileItemAssigned = d.job.bFileItemAssigned ∧ FileItem.Kept d.fi d'.fi

theorem handOver_kept (io : Io) (d : Dl) : FileItem.Kept d.fi (d.handOver io).2 := by
  unfold handOver
  split
  · exact FileItem.Kept.refl _
  · split
    · exact FileItem.dlAddData_kept _ _ _
    · exact FileItem.Kept.refl _

theorem isGood_data (env : Env) (io : Io) (bOnly : Bool) (d : Dl) (h : d.job.dlState ≠ .getHeader) :
    d.isGood env io bOnly = false := by
  simp [isGood, h]

theorem pass_of_kept (env : Env) (io : Io) (bOnly : Bool) (d d' : Dl)
    (hst : d.job.dlState ≠ .getHeader) (hk : FileItem.Kept d.fi d'.fi)
    (ha : d'.job.bFileItemAssigned = d.job.bFileItemAssigned) : Pass env io bOnly d d' :=
  ⟨Framed.of_kept hk, fun h => absurd h hst, fun _ => ⟨isGood_data env io bOnly d hst, ha, hk⟩⟩

theorem procHeader_pass (env : Env) (io : Io) (bOnly : Bool) (d : Dl)
    (hst : d.job.dlState = .getHeader) : Pass env io bOnly d (d.procHeader env io bOnly).1 := by
  cases hh : d.headStep env bOnly with
  | ret d' res =>
    have hr := headStep_returned env bOnly d d' res hh
    have hgood : d.isGood env io bOnly = false := by simp [isGood, hh]
    have hp : (d.procHeader env io bOnly).1 = d' := by simp [procHeader, hh]
    rw [hp]
    refine ⟨⟨by rw [hr.fi], by rw [hr.fi], by rw [hr.fi]; exact id⟩, ?_, fun h => absurd hst h⟩
    exact fun _ => .inr ⟨hgood, by rw [hr.fi], by rw [hr.job]⟩
  | save d1 h n contLen ret =>
    have hsv := headStep_saved env bOnly d d1 h n contLen ret hh
    have hasg : d1.job.bFileItemAssigned = d.job.bFileItemAssigned := by
      rcases hsv.framing with ⟨-, he⟩ | ⟨-, he⟩ | ⟨-, -, he⟩ <;> rw [he]
    have ht := checkAndSaveHeader_takes env io d1 h n contLen
    have hgood : d.isGood env io bOnly =
        ((d1.checkAndSaveHeader env io h n contLen).1 == .good) := by simp [isGood, hh, hst]
    have hout : (d.procHeader env io bOnly).1.fi = (d1.checkAndSaveHeader env io h n contLen).2.fi ∧
        (d.procHeader env io bOnly).1.job.bFileItemAssigned =
          (d1.checkAndSaveHeader env io h n contLen).2.job.bFileItemAssigned := by
      simp only [procHeader, hh]
      generalize d1.checkAndSaveHeader env io h n contLen = r
      obtain ⟨ev, d2⟩ := r
      cases ev <;> simp only <;> split <;> exact ⟨rfl, rfl⟩
    generalize d1.checkAndSaveHeader env io h n contLen = r at ht hgood hout
    obtain ⟨hfr, hcase⟩ := ht
    simp only [Taken, Untouched, Free, hsv.fi, hasg] at hcase
    refine ⟨⟨?_, ?_, ?_⟩, ?_, fun h => absurd hst h⟩
    · rw [hout.1, hfr.refs, hsv.fi]
    · rw [hout.1, hfr.attr, hsv.fi]
    · rw [hout.1, ← hsv.fi]
      exact hfr.sound
    · intro _
      rcases hcase with ⟨hf, ha, hg⟩ | ⟨hne, hstat, ha⟩
      · exact .inl ⟨hf, hout.2.trans ha, by rw [hout.1]; exact hg⟩
      · refine .inr ⟨?_, ?_, ?_⟩
        · rw [hgood]
          simpa using hne
        · rw [hout.1, hstat]
        · rw [hout.2, ha]

theorem procStep_pass (env : Env) (io : Io) (bOnly : Bool) (d : Dl) :
    Pass env io bOnly d (d.procStep env io bOnly).1 := by
  have hdata : ∀ hst : d.job.dlState ≠ .getHeader, Pass env io bOnly d (d.procData io).1 := by
    intro hst
    have hk := handOver_kept io d
    rcases procData_cases io d with ⟨-, he⟩ | ⟨-, -, he⟩ | ⟨-, -, he⟩ <;> rw [he] <;>
      exact pass_of_kept env io bOnly d _ hst hk rfl
  unfold procStep
  split
  · rename_i hst
    exact procHeader_pass env io bOnly d hst
  · rename_i hst
    exact hdata (by simp [hst])
  · rename_i hst
    exact hdata (by simp [hst])
  · rename_i hst
    exact pass_of_kept env io bOnly d _ (by simp [hst]) (FileItem.dlFinish_kept _ _ _) rfl
  · rename_i hst
    refine pass_of_kept env io bOnly d _ (by simp [hst]) ?_ ?_ <;> unfold procChunkHead <;>
      simp only <;> split
    · exact FileItem.Kept.refl _
    · split
      · exact FileItem.Kept.refl _
      · split <;> exact FileItem.Kept.refl _
    · rfl
    · split
      · rfl
      · split <;> rfl
  · rename_i hst
    refine pass_of_kept env io bOnly d _ (by simp [hst]) ?_ ?_ <;> unfold procTrailer <;> split
    · exact FileItem.Kept.refl _
    · split <;> exact FileItem.Kept.refl _
    · rfl
    · split <;> rfl

theorem flag_or (c a m : Nat) (h : a &&& m ≠ 0) : (c ||| a) &&& m ≠ 0 := by
  rw [Nat.and_or_distrib_right]
  intro h0
  exact h (Nat.or_eq_zero_iff.mp h0).2

theorem after_restart (cfg : Cfg) (j : DlJob) (c : Nat) :
    Phase.after cfg false j (some (c ||| EFLAG_LOST_CON ||| HINT_RECONNECT_NOW)) ≠ .running := by
  have hlost : (c ||| EFLAG_LOST_CON ||| HINT_RECONNECT_NOW) &&&
      (HINT_RECONNECT_NOW ||| EFLAG_LOST_CON ||| HINT_TGTCHANGE) ≠ 0 :=
    flag_or _ _ _ (by decide)
  simp only [Phase.after, Bool.false_eq_true, if_false, hlost, ne_eq, not_false_eq_true, if_true]
  split
  · simp
  · split <;> simp

theorem after_closed (cfg : Cfg) (j : DlJob) (res : Nat)
    (h : res &&& (HINT_DONE ||| EFLAG_JOB_BROKEN) ≠ 0) :
    Phase.after cfg false j (some res) ≠ .running := by
  simp only [Phase.after, Bool.false_eq_true, if_false]
  rw [if_pos h]
  simp

theorem after_collision (cfg : Cfg) (j : DlJob) (c : Nat) :
    Phase.after cfg false j
      (some (c ||| HINT_RECONNECT_NOW ||| EFLAG_JOB_BROKEN ||| EFLAG_STORE_COLLISION)) ≠ .running := by
  apply after_closed
  rw [Nat.or_assoc (c ||| HINT_RECONNECT_NOW)]
  exact flag_or _ _ _ (by decide)

/-- Behind a head that was not accepted, nothing is read as data. -/
theorem procHeader_phase (env : Env) (io : Io) (bOnly : Bool) (d : Dl) (cfg : Cfg)
    (hst : d.job.dlState = .getHeader) (ho : bOnly = true → env.cfg.redirmax ≠ 0)
    (hng : d.isGood env io bOnly = false)
    (hr : Phase.after cfg bOnly (d.procHeader env io bOnly).1.job (d.procHeader env io bOnly).2 =
      .running) : (d.procHeader env io bOnly).1.job.dlState = .getHeader := by
  cases hh : d.headStep env bOnly with
  | ret d' res =>
    have hj := (headStep_returned env bOnly d d' res hh).job
    have hp : (d.procHeader env io bOnly).1 = d' := by simp [procHeader, hh]
    rw [hp, hj]
    exact hst
  | save d1 h n contLen ret =>
    have hsv := headStep_saved env bOnly d d1 h n contLen ret hh
    have hbo : bOnly = false := by
      cases hb : bOnly with
      | false => rfl
      | true =>
        have := hsv.only (ho hb)
        rw [hb] at this
        cases this
    have hgood : d.isGood env io bOnly =
        ((d1.checkAndSaveHeader env io h n contLen).1 == .good) := by simp [isGood, hh, hst]
    rw [hng] at hgood
    exfalso
    simp only [procHeader, hh] at hr
    generalize d1.checkAndSaveHeader env io h n contLen = r at hr hgood
    obtain ⟨ev, d2⟩ := r
    cases ev with
    | good => simp at hgood
    | restartNeeded => exact after_restart cfg _ ret (hbo ▸ hr)
    | busyOrError => exact after_collision cfg _ ret (hbo ▸ hr)

end Dl

end Acng
