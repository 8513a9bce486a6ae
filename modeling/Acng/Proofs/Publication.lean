import Acng.Publication
import Acng.Proofs.Lengths

namespace Acng
open Lib

namespace FileItem

variable {fi t : FileItem} {ok : Bool}

/-- A successful step on the way to the open file keeps the status, any other one is an
error. -/
def StatusBy (fi : FileItem) (r : Bool × FileItem) : Prop :=
  r.2.status = if r.1 then fi.status else .dlError

theorem replaceFile_status (fi : FileItem) (io : ReplaceIo) : StatusBy fi (fi.replaceFile io) := by
  unfold replaceFile
  simp only
  split
  · rfl
  · split
    · rfl
    · split <;> rfl

theorem openFile_status (fi : FileItem) (b : Bool) : (fi.openFile b).status = fi.status := by
  unfold openFile
  split <;> rfl

theorem obtainFd_status (fi : FileItem) (io : StoreIo) : StatusBy fi (fi.obtainFd io) := by
  unfold obtainFd
  simp only
  have h1 : StatusBy fi (if (fi.bWriterMustReplaceFile || decide (fi.nContentLength < 0)) = true then
      fi.replaceFile io.replaceOrdered else (true, fi)) := by
    split
    · exact replaceFile_status fi _
    · rfl
  generalize (if (fi.bWriterMustReplaceFile || decide (fi.nContentLength < 0)) = true then
      fi.replaceFile io.replaceOrdered else (true, fi)) = r at h1 ⊢
  obtain ⟨ok, f⟩ := r
  cases ok with
  | false => exact h1
  | true =>
    have h2 : (if f.filefd.isNone = true then f.openFile io.openFile else f).status = fi.status := by
      split
      · exact (openFile_status _ _).trans h1
      · exact h1
    simp only [Bool.not_true, Bool.false_eq_true, if_false]
    generalize (if f.filefd.isNone = true then f.openFile io.openFile else f) = g at h2 ⊢
    split
    · have h3 := replaceFile_status g io.replaceUnopened
      unfold StatusBy at h3 ⊢
      rw [h3, h2]
    · exact h2

/-- The file is open for writing at a known position, or there is an error. -/
structure OpenedBy (r : Bool × FileItem) : Prop where
  opened : r.1 = true → r.2.status = .dlReceiving ∧
    r.2.filefd = some r.2.nSizeChecked.toNat ∧ 0 ≤ r.2.nSizeChecked
  failed : r.1 = false → r.2.status = .dlError

theorem startWriting_status (fi : FileItem) (io : StoreIo) (size : Int) :
    OpenedBy (fi.startWriting io size) := by
  unfold startWriting
  simp only
  have h1 : 0 ≤ (if fi.nSizeChecked < 0 then { fi with nSizeChecked := 0 } else fi).nSizeChecked := by
    split
    · exact le_refl _
    · omega
  generalize (if fi.nSizeChecked < 0 then { fi with nSizeChecked := 0 } else fi) = f at h1 ⊢
  split
  · exact ⟨nofun, fun _ => rfl⟩
  · obtain ⟨head, hh⟩ := saveHeader_frame { f with filefd := some f.nSizeChecked.toNat } false io.head
    rw [hh]
    split
    · exact ⟨nofun, fun _ => rfl⟩
    · exact ⟨fun _ => ⟨rfl, rfl, h1⟩, nofun⟩

theorem safeOpenOutFile_status (fi : FileItem) (io : StoreIo) :
    ((fi.safeOpenOutFile io).1 = false ∧ (fi.safeOpenOutFile io).2.status = fi.status) ∨
      OpenedBy (fi.safeOpenOutFile io) := by
  unfold safeOpenOutFile
  simp only
  split
  · exact .inl ⟨rfl, rfl⟩
  · refine .inr ?_
    have h1 := obtainFd_status { fi with filefd := none } io
    generalize obtainFd { fi with filefd := none } io = r at h1 ⊢
    obtain ⟨ok, f⟩ := r
    cases ok with
    | false => exact ⟨nofun, fun _ => h1⟩
    | true =>
      simp only [Bool.not_true, Bool.false_eq_true, if_false]
      split
      · exact ⟨nofun, fun _ => rfl⟩
      · split
        · have h2 := replaceFile_status f io.replaceLonger
          generalize f.replaceFile io.replaceLonger = q at h2 ⊢
          obtain ⟨ok, g⟩ := q
          cases ok with
          | false => exact ⟨nofun, fun _ => h2⟩
          | true => exact startWriting_status _ _ _
        · exact startWriting_status _ _ _

/-- A write loop adds up its results, which makes the size of the chunk if it gets to its
end. -/
structure Written (fi : FileItem) (size : Nat) (ws : List WriteResult) (r : Bool × FileItem) :
    Prop where
  net : r.2.nSizeChecked = fi.nSizeChecked + (ws.map WriteResult.net).sum
  all : r.1 = true → .failed ∉ ws ∧ r.2.status = fi.status ∧ (ws.map WriteResult.net).sum = size
  error : r.1 = false → .failed ∈ ws ∧ r.2.status = .dlError

theorem writeLoop_written {pos : Nat} {chunk : Bytes} {ws : List WriteResult} {r : Bool × FileItem}
    (h : fi.writeLoop pos chunk ws = some r) : Written fi chunk.length ws r := by
  induction ws generalizing fi pos chunk with
  | nil =>
    simp only [writeLoop] at h
    split at h
    · rename_i he
      obtain rfl := Option.some.inj h
      rw [List.isEmpty_iff.mp he]
      exact ⟨by simp, fun _ => by simp, fun hno => Bool.noConfusion hno⟩
    · cases h
  | cons w ws ih =>
    simp only [writeLoop] at h
    split at h
    · cases h
    · cases w with
      | wrote n =>
        simp only at h
        split at h
        · have hw := ih h
          refine ⟨?_, fun hok => ⟨?_, (hw.all hok).2.1, ?_⟩, fun hno => ⟨?_, (hw.error hno).2⟩⟩
          · rw [hw.net]
            simp only [writeChunk, List.length_take, List.map_cons, List.sum_cons, WriteResult.net]
            omega
          · simpa using (hw.all hok).1
          · have := (hw.all hok).2.2
            rw [List.length_drop] at this
            simp only [List.map_cons, List.sum_cons, WriteResult.net]
            omega
          · simpa using (hw.error hno).1
        · cases h
      | interrupted front =>
        have hw := ih h
        refine ⟨?_, fun hok => ⟨?_, (hw.all hok).2.1, ?_⟩, fun hno => ⟨?_, (hw.error hno).2⟩⟩
        · rw [hw.net]
          simp only [List.map_cons, List.sum_cons, WriteResult.net]
          omega
        · simpa using (hw.all hok).1
        · have := (hw.all hok).2.2
          rw [List.length_cons] at this
          simp only [List.map_cons, List.sum_cons, WriteResult.net]
          omega
        · simpa using (hw.error hno).1
      | failed =>
        simp only at h
        split at h
        · rename_i he
          obtain rfl := Option.some.inj h
          rw [List.isEmpty_iff.mp he]
          exact ⟨by simp [withError, dlSetError, WriteResult.net], fun hok => Bool.noConfusion hok,
            fun _ => ⟨by simp, rfl⟩⟩
        · cases h

/-- The item with the data accounted for. -/
def receives (fi : FileItem) (chunk : Bytes) : FileItem :=
  { fi with nIncommingCount := fi.nIncommingCount + chunk.length }

/-- The item when the loop is reached. -/
def readied (fi : FileItem) (chunk : Bytes) (io : StoreIo) : FileItem :=
  if fi.filefd.isNone then ((fi.receives chunk).safeOpenOutFile io).2 else fi.receives chunk

/-- Either the loop is reached, or the call fails before it writes. -/
theorem dlAddDataBy_readied {chunk : Bytes} {io : StoreIo} {ws : List WriteResult}
    {r : Bool × FileItem} (h : fi.dlAddDataBy chunk io ws = some r) :
    (ws = [] ∧ r.1 = false ∧
        (r.2 = fi.readied chunk io ∨ r.2 = (fi.readied chunk io).withError) ∧
        (fi.filefd = none → ((fi.receives chunk).safeOpenOutFile io).1 = false)) ∨
      ((fi.filefd = none → ((fi.receives chunk).safeOpenOutFile io).1 = true) ∧
        ∃ pos, (fi.readied chunk io).filefd = some pos ∧
          (fi.readied chunk io).writeLoop pos chunk ws = some r) := by
  have early (q : Bool × FileItem) (hq : (if ws.isEmpty = true then some q else none) = some r) :
      ws = [] ∧ q = r := by
    split at hq
    · rename_i he
      exact ⟨List.isEmpty_iff.mp he, Option.some.inj hq⟩
    · cases hq
  simp only [dlAddDataBy] at h
  cases hfd : fi.filefd with
  | none =>
    have hn : fi.filefd.isNone = true := by rw [hfd]; rfl
    have hopen : (if fi.filefd.isNone = true then safeOpenOutFile { fi with
        nIncommingCount := fi.nIncommingCount + chunk.length } io else (true, { fi with
        nIncommingCount := fi.nIncommingCount + chunk.length })) =
      (fi.receives chunk).safeOpenOutFile io := if_pos hn
    have hstatus := safeOpenOutFile_status (fi.receives chunk) io
    rw [hopen] at h
    rw [readied, if_pos hn]
    generalize (fi.receives chunk).safeOpenOutFile io = q at h hstatus ⊢
    obtain ⟨ok, f⟩ := q
    cases ok with
    | false =>
      obtain ⟨hws, rfl⟩ := early _ h
      exact .inl ⟨hws, rfl, .inl rfl, fun _ => rfl⟩
    | true =>
      obtain ⟨hs, hp, -⟩ := (hstatus.resolve_left (by simp)).opened rfl
      simp only [Bool.not_true, Bool.false_eq_true, if_false] at h hs hp
      simp only [hp, hs] at h
      rw [if_neg (by decide), if_neg (by decide)] at h
      exact .inr ⟨fun _ => rfl, _, hp, h⟩
  | some pos =>
    have hn : fi.filefd.isNone = false := by rw [hfd]; rfl
    have hready : fi.readied chunk io = { fi with
        nIncommingCount := fi.nIncommingCount + chunk.length, filefd := some pos } := by
      rw [readied, if_neg (by rw [hn]; decide), receives, hfd]
    simp only [hfd, Option.isNone_some, Bool.false_eq_true, if_false, Bool.not_true] at h
    rw [hready]
    split at h
    · obtain ⟨hws, rfl⟩ := early _ h
      exact .inl ⟨hws, rfl, .inr rfl, by simp⟩
    · split at h
      · obtain ⟨hws, rfl⟩ := early _ h
        exact .inl ⟨hws, rfl, .inl rfl, by simp⟩
      · exact .inr ⟨by simp, pos, rfl, h⟩

/-- The calls of `write` end in success, or with a failure that comes after no more interrupted
calls than bytes written. A file is not opened for an item that was finished already. -/
structure DataOk (fi : FileItem) (chunk : Bytes) (io : StoreIo) (writes : List WriteResult) :
    Prop where
  opening : fi.filefd = none → ((fi.receives chunk).safeOpenOutFile io).1 = true →
    fi.status ≤ .dlReceiving ∨ .failed ∈ writes
  writing : .failed ∈ writes → 0 ≤ fi.nSizeChecked → 0 ≤ (writes.map WriteResult.net).sum

/-- What `DlAddData` can do to status and size. -/
inductive AddCase (fi : FileItem) (chunk : Bytes) (io : StoreIo) :
    List WriteResult → Bool × FileItem → Prop
  | early {r : Bool × FileItem} (status : r.2.status = fi.status ∨ r.2.status = .dlError)
      (size : 0 ≤ fi.nSizeChecked → r.2.nSizeChecked = fi.nSizeChecked)
      (shut : fi.filefd = none → ((fi.receives chunk).safeOpenOutFile io).1 = false) :
      AddCase fi chunk io [] r
  | loop {ws : List WriteResult} {r : Bool × FileItem} {f : FileItem}
      (written : Written f chunk.length ws r)
      (size : 0 ≤ fi.nSizeChecked → f.nSizeChecked = fi.nSizeChecked)
      (status : f.status = if fi.filefd.isNone then .dlReceiving else fi.status)
      (opened : fi.filefd = none → ((fi.receives chunk).safeOpenOutFile io).1 = true) :
      AddCase fi chunk io ws r

theorem dlAddDataBy_cases {chunk : Bytes} {io : StoreIo} {ws : List WriteResult}
    {r : Bool × FileItem} (h : fi.dlAddDataBy chunk io ws = some r) : AddCase fi chunk io ws r := by
  have counted : SameSizes fi (fi.receives chunk) := ⟨rfl, fun _ => rfl⟩
  have sizes : SameSizes fi (fi.readied chunk io) := by
    unfold readied
    split
    · exact sameSizes_open.trans counted (safeOpenOutFile_rel sameSizes_open _ io)
    · exact counted
  rcases dlAddDataBy_readied h with ⟨rfl, -, hr, hshut⟩ | ⟨hopened, pos, -, hloop⟩
  · have hstatus : (fi.readied chunk io).status = fi.status ∨
        (fi.readied chunk io).status = .dlError := by
      unfold readied
      split
      · rename_i hn
        rcases safeOpenOutFile_status (fi.receives chunk) io with ⟨-, hs⟩ | hs
        · exact .inl hs
        · exact .inr (hs.failed (hshut (Option.isNone_iff_eq_none.mp hn)))
      · exact .inl rfl
    rcases hr with hr | hr
    · exact .early (hr ▸ hstatus) (hr ▸ sizes.checked) hshut
    · refine .early (.inr ?_) (fun h0 => ?_) hshut
      · rw [hr]
        rfl
      · rw [hr]
        exact sizes.checked h0
  · refine .loop (writeLoop_written hloop) sizes.checked ?_ hopened
    unfold readied
    split
    · rename_i hn
      have hok := hopened (Option.isNone_iff_eq_none.mp hn)
      rcases safeOpenOutFile_status (fi.receives chunk) io with ⟨hno, -⟩ | hs
      · rw [hok] at hno
        cases hno
      · exact (hs.opened hok).1
    · rfl

theorem dlAddDataBy_advances_iff {chunk : Bytes} {io : StoreIo} {ws : List WriteResult}
    {r : Bool × FileItem} (h : fi.dlAddDataBy chunk io ws = some r) (hs : fi.status ≤ .dlError) :
    fi.Advances r.2 ↔ fi.DataOk chunk io ws := by
  cases dlAddDataBy_cases h with
  | early status size shut =>
    refine ⟨fun _ => ⟨fun hn ho => ?_, by simp⟩, fun _ => ⟨?_, fun h0 => (size h0).ge⟩⟩
    · rw [shut hn] at ho
      cases ho
    · rcases status with he | he <;> rw [he]
      exact hs
  | loop written size status opened =>
    have net (h0 : 0 ≤ fi.nSizeChecked) :
        r.2.nSizeChecked = fi.nSizeChecked + (ws.map WriteResult.net).sum := by
      rw [written.net, size h0]
    cases hr : r.1 with
    | true =>
      obtain ⟨hno, hst, hsum⟩ := written.all hr
      rw [status] at hst
      constructor
      · intro ha
        refine ⟨fun hn _ => .inl ?_, fun hf => absurd hf hno⟩
        have := ha.status
        rwa [hst, hn] at this
      · intro hd
        refine ⟨?_, fun h0 => by have := net h0; omega⟩
        rw [hst]
        split
        · rename_i hn
          have hn := Option.isNone_iff_eq_none.mp hn
          exact (hd.opening hn (opened hn)).resolve_right hno
        · exact le_refl _
    | false =>
      obtain ⟨hyes, hst⟩ := written.error hr
      constructor
      · intro ha
        refine ⟨fun _ _ => .inr hyes, fun _ h0 => ?_⟩
        have := ha.size h0
        have := net h0
        omega
      · intro hd
        refine ⟨by rw [hst]; exact hs, fun h0 => ?_⟩
        have := hd.writing hyes h0
        have := net h0
        omega

section Start

variable {lib : DateLib} {raw : Nat} {modDate : HttpDate} {origin : Bytes} {status : RemoteStatus}
  {seek announced : Int}

/-- The state of the item lets a second head pass. -/
structure Sane (lib : DateLib) (fi : FileItem) (modDate : HttpDate) (seek announced : Int) :
    Prop where
  length : fi.nContentLength = announced ∨ fi.nContentLength = -1
  date : fi.responseModDate.eq lib modDate = true
  pos : seek ≤ fi.nSizeChecked

/-- A second head passes for an item that has got further already. -/
def HotRestart (lib : DateLib) (fi : FileItem) (modDate : HttpDate) (seek announced : Int) : Prop :=
  .dlGotHead < fi.status ∧ Sane lib fi modDate seek announced

/-- A first head is for a position that was passed already. -/
def Behind (fi : FileItem) (seek : Int) : Prop :=
  fi.status < .dlGotHead ∧ 0 ≤ seek ∧ seek < fi.nSizeChecked

/-- What `DlStarted` can do. -/
inductive StartCase (lib : DateLib) (fi : FileItem) (modDate : HttpDate) (seek announced : Int) :
    Bool × FileItem → Prop
  | insane {f : FileItem} (hot : .dlGotHead ≤ fi.status)
      (no : ¬ Sane lib fi modDate seek announced) (same : fi.Unmoved f) :
      StartCase lib fi modDate seek announced (false, f)
  | behind {f : FileItem} (sane : .dlGotHead ≤ fi.status → Sane lib fi modDate seek announced)
      (pos : 0 ≤ seek) (lt : seek < fi.nSizeChecked) (hs : f.status = .dlGotHead)
      (hl : .dlGotHead ≤ fi.status → f.nContentLength = fi.nContentLength)
      (hd : f.responseModDate = fi.responseModDate) (hz : f.nSizeChecked = fi.nSizeChecked) :
      StartCase lib fi modDate seek announced (false, f)
  | accepted {f : FileItem} (sane : .dlGotHead ≤ fi.status → Sane lib fi modDate seek announced)
      (ahead : 0 ≤ seek → fi.nSizeChecked ≤ seek) (hs : f.status = .dlGotHead)
      (hz : f.nSizeChecked = if 0 ≤ seek then seek else fi.nSizeChecked)
      (hn : f.spattr = fi.spattr) :
      StartCase lib fi modDate seek announced (true, f)

theorem dlStarted_cases (lib : DateLib) (fi : FileItem) (raw : Nat) (modDate : HttpDate)
    (origin : Bytes) (status : RemoteStatus) (seek announced : Int) :
    StartCase lib fi modDate seek announced
      (fi.dlStarted lib raw modDate origin status seek announced) := by
  unfold dlStarted
  simp only
  split
  · rename_i h
    simp only [ne_eq, decide_not, Bool.and_eq_true, Bool.or_eq_true, decide_eq_true_eq,
      Bool.not_eq_true', decide_eq_false_iff_not] at h
    refine .insane h.1 (fun hs => ?_) ⟨rfl, rfl, rfl, rfl⟩
    rcases h.2 with (h | h) | h
    · exact hs.length.elim h.1 h.2
    · rw [hs.date] at h
      cases h
    · exact absurd hs.pos (not_le.mpr h)
  · rename_i h
    have sane : .dlGotHead ≤ fi.status → Sane lib fi modDate seek announced := by
      intro hot
      simp only [ne_eq, decide_not, Bool.and_eq_true, Bool.or_eq_true, decide_eq_true_eq,
        Bool.not_eq_true', decide_eq_false_iff_not, hot, true_and, not_or, not_and, not_not] at h
      obtain ⟨⟨hl, hd⟩, hp⟩ := h
      refine ⟨?_, by simpa using hd, not_lt.mp hp⟩
      by_cases he : fi.nContentLength = announced
      · exact .inl he
      · exact .inr (hl he)
    have hz (f : FileItem) (hf : f = if .dlGotHead ≤ fi.status then
        { fi with nIncommingCount := fi.nIncommingCount + raw }
        else { fi with nIncommingCount := fi.nIncommingCount + raw, nContentLength := -1 }) :
        f.nSizeChecked = fi.nSizeChecked ∧ f.responseModDate = fi.responseModDate ∧
          f.spattr = fi.spattr ∧
          (.dlGotHead ≤ fi.status → f.nContentLength = fi.nContentLength) := by
      subst hf
      split
      · exact ⟨rfl, rfl, rfl, fun _ => rfl⟩
      · rename_i hc
        exact ⟨rfl, rfl, rfl, fun hot => absurd hot hc⟩
    generalize hf : (if .dlGotHead ≤ fi.status then
        { fi with nIncommingCount := fi.nIncommingCount + raw }
        else { fi with nIncommingCount := fi.nIncommingCount + raw, nContentLength := -1 }) = f
    obtain ⟨h1, h2, h3, h4⟩ := hz f hf.symm
    split
    · rename_i hb
      simp only [Bool.and_eq_true, decide_eq_true_eq] at hb
      exact .behind sane hb.1 (h1 ▸ hb.2.2) rfl h4 h2 h1
    · rename_i hb
      simp only [Bool.and_eq_true, decide_eq_true_eq, not_and, not_lt] at hb
      refine .accepted sane (fun h0 => ?_) rfl (by simp only [h1]) h3
      by_cases hs : 0 ≤ f.nSizeChecked
      · exact h1 ▸ hb h0 hs
      · omega

theorem dlStarted_ok_iff (lib : DateLib) (fi : FileItem) (raw : Nat) (modDate : HttpDate)
    (origin : Bytes) (status : RemoteStatus) (seek announced : Int) :
    (fi.Advances (fi.dlStarted lib raw modDate origin status seek announced).2 ∧
      ((!(fi.dlStarted lib raw modDate origin status seek announced).1) = true →
        fi.Unmoved (fi.dlStarted lib raw modDate origin status seek announced).2)) ↔
      ¬ HotRestart lib fi modDate seek announced ∧ ¬ fi.Behind seek := by
  have hc := dlStarted_cases lib fi raw modDate origin status seek announced
  generalize fi.dlStarted lib raw modDate origin status seek announced = r at hc ⊢
  cases hc with
  | insane hot no same =>
    exact ⟨fun _ => ⟨fun hr => no hr.2, fun hb => absurd hot (not_le.mpr hb.1)⟩,
      fun _ => ⟨⟨same.status.ge, fun _ => same.size.ge⟩, fun _ => same⟩⟩
  | behind sane pos lt hs hl hd hz =>
    constructor
    · rintro ⟨ha, hu⟩
      refine ⟨fun hr => absurd (hs ▸ ha.status) (not_le.mpr hr.1), fun hb => ?_⟩
      have := (hu rfl).status
      rw [hs] at this
      exact absurd hb.1 (by rw [← this]; decide)
    · rintro ⟨hr, hb⟩
      have hot : .dlGotHead ≤ fi.status := not_lt.mp (fun h => hb ⟨h, pos, lt⟩)
      have he : fi.status = .dlGotHead :=
        le_antisymm (not_lt.mp (fun h => hr ⟨h, sane hot⟩)) hot
      exact ⟨⟨by rw [hs, he], fun _ => hz.ge⟩, fun _ => ⟨hs.trans he.symm, hl hot, hd, hz⟩⟩
  | accepted sane ahead hs hz =>
    constructor
    · rintro ⟨ha, -⟩
      refine ⟨fun hr => absurd (hs ▸ ha.status) (not_le.mpr hr.1), fun hb => ?_⟩
      have := ahead hb.2.1
      have := hb.2.2
      omega
    · rintro ⟨hr, -⟩
      refine ⟨⟨?_, fun h0 => ?_⟩, nofun⟩
      · rw [hs]
        exact not_lt.mp (fun h => hr ⟨h, sane h.le⟩)
      · rw [hz]
        split
        · exact ahead ‹_›
        · exact le_refl _

/-- A head that passes for an item that has got further already is accepted and at once
followed by the end, since the job does not store the data. -/
structure StartOk (lib : DateLib) (fi : FileItem) (modDate : HttpDate) (seek announced : Int)
    (allowStoreData : Bool) : Prop where
  hot : HotRestart lib fi modDate seek announced →
    allowStoreData = false ∧ fi.spattr.bNoStore = false ∧ ¬ (0 ≤ seek ∧ seek < fi.nSizeChecked)
  cold : ¬ fi.Behind seek

theorem Unmoved.advances {f g : FileItem} (u : fi.Unmoved f) : f.Advances g ↔ fi.Advances g := by
  constructor <;> intro h
  · exact ⟨u.status ▸ h.status, u.size ▸ h.size⟩
  · exact ⟨u.status.symm ▸ h.status, u.size.symm ▸ h.size⟩

theorem Unmoved.unmoved {f g : FileItem} (u : fi.Unmoved f) : f.Unmoved g ↔ fi.Unmoved g := by
  constructor <;> intro h
  · exact ⟨u.status ▸ h.status, u.length ▸ h.length, u.date ▸ h.date, u.size ▸ h.size⟩
  · exact ⟨u.status.symm ▸ h.status, u.length.symm ▸ h.length, u.date.symm ▸ h.date,
      u.size.symm ▸ h.size⟩

theorem Unmoved.startOk {f : FileItem} (u : fi.Unmoved f) (hn : f.spattr = fi.spattr)
    (allow : Bool) :
    StartOk lib f modDate seek announced allow ↔ StartOk lib fi modDate seek announced allow := by
  have sane : Sane lib f modDate seek announced ↔ Sane lib fi modDate seek announced := by
    constructor <;> intro h
    · exact ⟨u.length ▸ h.length, u.date ▸ h.date, u.size ▸ h.pos⟩
    · exact ⟨u.length.symm ▸ h.length, u.date.symm ▸ h.date, u.size.symm ▸ h.pos⟩
  have hot : HotRestart lib f modDate seek announced ↔ HotRestart lib fi modDate seek announced := by
    unfold HotRestart
    rw [u.status, sane]
  have cold : f.Behind seek ↔ fi.Behind seek := by
    unfold Behind
    rw [u.status, u.size]
  constructor <;> intro h
  · exact ⟨fun hr => hn ▸ u.size ▸ h.hot (hot.mpr hr), fun hb => h.cold (cold.mpr hb)⟩
  · exact ⟨fun hr => hn.symm ▸ u.size.symm ▸ h.hot (hot.mp hr), fun hb => h.cold (cold.mp hb)⟩

theorem dlFinish_size (fi : FileItem) (force : Bool) (io : HeadIo) :
    (fi.dlFinish force io).nSizeChecked = fi.nSizeChecked := by
  obtain ⟨status, len, head, h⟩ := dlFinish_frame fi force io
  rw [h]

theorem dlFinish_advances (fi : FileItem) (force : Bool) (io : HeadIo) :
    fi.Advances (fi.dlFinish force io) := by
  refine ⟨?_, fun _ => (dlFinish_size fi force io).ge⟩
  cases hn : fi.spattr.bNoStore with
  | true => simp [dlFinish, hn]
  | false =>
    rw [dlFinish_status fi force io hn]
    exact le_max_left _ _

/-- The end of `CheckAndSaveHeader`: an accepted head without data is the end of the
download. -/
def startedThen (allowStoreData : Bool) (io : HeadIo) (r : Bool × FileItem) : FileItem :=
  if r.1 = true ∧ allowStoreData = false then r.2.dlFinish true io else r.2

theorem startedThen_ok_iff (lib : DateLib) (fi : FileItem) (raw : Nat) (modDate : HttpDate)
    (origin : Bytes) (status : RemoteStatus) (seek announced : Int) (allow : Bool) (io : HeadIo)
    (hlt : fi.status < .complete) :
    (fi.Advances (startedThen allow io (fi.dlStarted lib raw modDate origin status seek announced)) ∧
      ((!(fi.dlStarted lib raw modDate origin status seek announced).1) = true → fi.Unmoved
        (startedThen allow io (fi.dlStarted lib raw modDate origin status seek announced)))) ↔
      StartOk lib fi modDate seek announced allow := by
  have plain := dlStarted_ok_iff lib fi raw modDate origin status seek announced
  have hc := dlStarted_cases lib fi raw modDate origin status seek announced
  generalize fi.dlStarted lib raw modDate origin status seek announced = r at hc plain ⊢
  unfold startedThen
  split
  · rename_i hend
    obtain ⟨ok, f⟩ := r
    obtain ⟨rfl, rfl⟩ := hend
    cases hc with
    | accepted sane ahead hs hz hn =>
      have size (h0 : 0 ≤ fi.nSizeChecked) : fi.nSizeChecked ≤ (f.dlFinish true io).nSizeChecked := by
        rw [dlFinish_size, hz]
        split
        · exact ahead ‹_›
        · exact le_refl _
      cases hns : fi.spattr.bNoStore with
      | true =>
        have same : f.dlFinish true io = f := by simp [dlFinish, hn, hns]
        simp only [same] at size ⊢
        rw [plain]
        refine ⟨fun hr => ⟨fun hh => absurd hh hr.1, hr.2⟩, fun hok => ⟨fun hr => ?_, hok.cold⟩⟩
        have := (hok.hot hr).2.1
        rw [hns] at this
        cases this
      | false =>
        refine ⟨fun _ => ⟨fun _ => ⟨rfl, hns, fun hb => ?_⟩, fun hb => ?_⟩,
          fun _ => ⟨⟨?_, size⟩, nofun⟩⟩
        · have := ahead hb.1
          omega
        · have := ahead hb.2.1
          have := hb.2.2
          omega
        · rw [dlFinish_status f true io (hn ▸ hns)]
          exact hlt.le.trans (le_max_right _ _)
  · rename_i hend
    rw [plain]
    refine ⟨fun hr => ⟨fun hh => absurd hh hr.1, hr.2⟩, fun hok => ⟨fun hr => ?_, hok.cold⟩⟩
    obtain ⟨hallow, -, hb⟩ := hok.hot hr
    cases hc with
    | insane _ no => exact no hr.2
    | behind _ pos lt => exact hb ⟨pos, lt⟩
    | accepted => exact hend ⟨rfl, hallow⟩

end Start

end FileItem

namespace Dl

variable {env : Env} {io : Io} {d : Dl} {h : Header} {raw : Nat} {contLen : Int}

/-- The item as it was, but for counters that no reader looks at. -/
theorem counted_unmoved (d : Dl) (raw : Nat) :
    d.fi.Unmoved (d.counted raw).fi := ⟨rfl, rfl, rfl, rfl⟩

/-- The whole effect of a call on what readers see is in order. -/
def Publishes (d : Dl) (r : ResponseEval × Dl) : Prop :=
  d.fi.Advances r.2.fi ∧ (d.startRefused r = true → d.fi.Unmoved r.2.fi)

theorem Free.startRefused {r : ResponseEval × Dl} (hf : d.Free) :
    d.startRefused r = true ↔ r.1 = .busyOrError ∧ r.2.fi.status ≠ .dlError := by
  have ha : (d.job.bFileItemAssigned || decide (d.fi.status ≤ .dlPending)) = true := by
    simpa using hf.2
  simp only [Dl.startRefused, ha, hf.1, decide_true, Bool.and_true, Bool.and_eq_true, beq_iff_eq,
    bne_iff_ne]

theorem publishes_error (hf : d.Free) (msg : Bytes) (k : EDestroyMode) :
    d.Publishes ((d.counted raw).headError env msg k) := by
  have hs : ((d.counted raw).headError env msg k).2.fi.status = .dlError := rfl
  refine ⟨⟨?_, fun _ => le_refl _⟩, fun hr => absurd hs (hf.startRefused.mp hr).2⟩
  rw [hs]
  exact hf.1.le.trans (by decide)

theorem startDownload_publishes_iff {loc : Bytes} {d' : Dl} (hf : d.Free)
    (hu : d.fi.Unmoved d'.fi) (hn : d'.fi.spattr = d.fi.spattr) :
    d.Publishes (d'.startDownload env io h raw loc contLen) ↔
      FileItem.StartOk env.dates d.fi (HttpDate.ofCStr env.dates (h.h .lastModified))
        d'.job.nUsedRangeStartPos contLen d'.job.bAllowStoreData := by
  have hm : d.fi.Unmoved (d'.markAssigned env).fi := ⟨hu.status, hu.length, hu.date, hu.size⟩
  have key := FileItem.startedThen_ok_iff env.dates (d'.markAssigned env).fi raw
    (HttpDate.ofCStr env.dates (h.h .lastModified)) (d'.originOf loc) h.status
    d'.job.nUsedRangeStartPos contLen d'.job.bAllowStoreData io.head (hm.status ▸ hf.1)
  have hc := FileItem.dlStarted_cases env.dates (d'.markAssigned env).fi raw
    (HttpDate.ofCStr env.dates (h.h .lastModified)) (d'.originOf loc) h.status
    d'.job.nUsedRangeStartPos contLen
  rw [hm.advances, hm.unmoved, hm.startOk hn] at key
  rw [← key]
  cases hr : (d'.markAssigned env).fi.dlStarted env.dates raw
      (HttpDate.ofCStr env.dates (h.h .lastModified)) (d'.originOf loc) h.status
      d'.job.nUsedRangeStartPos contLen with
  | mk ok fi' =>
    rw [startDownload_of env io d' h raw loc contLen ok fi' hr]
    rw [hr] at hc
    cases ok with
    | false =>
      have noError : fi'.status ≠ .dlError := by
        cases hc with
        | insane _ _ same =>
          rw [same.status, hm.status]
          exact (hf.1.trans (by decide)).ne
        | behind _ _ _ hs =>
          rw [hs]
          decide
      have refused : d.startRefused (.busyOrError, { d'.markAssigned env with fi := fi' }) = true :=
        hf.startRefused.mpr ⟨rfl, noError⟩
      simp only [Publishes, Bool.false_eq_true, if_false, refused, FileItem.startedThen, false_and,
        Bool.not_false]
    | true =>
      have taken : ∀ d'', d.startRefused (.good, d'') = false := fun _ => rfl
      simp only [Publishes, if_true, taken, FileItem.startedThen, true_and, Bool.not_true,
        Bool.false_eq_true, false_implies, and_true]
      cases d'.job.bAllowStoreData <;> simp

/-- The heads that publish in order on an item of the job. -/
structure HeaderOk (env : Env) (d : Dl) (h : Header) (contLen : Int) : Prop where
  full : h.status.code = 200 → FileItem.StartOk env.dates d.fi
    (HttpDate.ofCStr env.dates (h.h .lastModified)) 0 contLen d.job.bAllowStoreData
  probe : h.status.code = 206 → ∀ value first total, h.h .contentRange = some value →
    rangeSearch value = some (first, total) → d.isProbe env h first total →
      d.fi.nSizeChecked ≤ d.fi.nSizeCachedInitial
  part : h.status.code = 206 → ∀ value first total, h.h .contentRange = some value →
    rangeSearch value = some (first, total) → ¬ d.isProbe env h first total →
      d.job.nUsedRangeStartPos = strtoll first → strtoll first ≠ -1 →
      d.fi.nSizeCachedInitial ≤ strtoll first →
      FileItem.StartOk env.dates d.fi (HttpDate.ofCStr env.dates (h.h .lastModified))
        d.job.nUsedRangeStartPos (strtoll total) d.job.bAllowStoreData
  other : h.status.code ≠ 200 → h.status.code ≠ 206 → h.status.code ≠ 416 →
    d.job.bFileItemAssigned = false →
    (h.status.isRedirect && ((h.h .location).getD []).isEmpty) = false →
      ¬ d.fi.Behind d.job.nUsedRangeStartPos

theorem HeaderOk.of_part (h206 : h.status.code = 206)
    (probe : ∀ value first total, h.h .contentRange = some value →
      rangeSearch value = some (first, total) → d.isProbe env h first total →
        d.fi.nSizeChecked ≤ d.fi.nSizeCachedInitial)
    (part : ∀ value first total, h.h .contentRange = some value →
      rangeSearch value = some (first, total) → ¬ d.isProbe env h first total →
        d.job.nUsedRangeStartPos = strtoll first → strtoll first ≠ -1 →
        d.fi.nSizeCachedInitial ≤ strtoll first →
        FileItem.StartOk env.dates d.fi (HttpDate.ofCStr env.dates (h.h .lastModified))
          d.job.nUsedRangeStartPos (strtoll total) d.job.bAllowStoreData) :
    HeaderOk env d h contLen where
  full hc := by
    rw [h206] at hc
    cases hc
  probe _ := probe
  part _ := part
  other _ hc := absurd h206 hc

/-- With a range that is understood there is one case to look at. -/
theorem headerOk_iff_part {value first total : Bytes} (h206 : h.status.code = 206)
    (hr : h.h .contentRange = some value) (hs : rangeSearch value = some (first, total)) :
    HeaderOk env d h contLen ↔
      (d.isProbe env h first total → d.fi.nSizeChecked ≤ d.fi.nSizeCachedInitial) ∧
        (¬ d.isProbe env h first total → d.job.nUsedRangeStartPos = strtoll first →
          strtoll first ≠ -1 → d.fi.nSizeCachedInitial ≤ strtoll first →
          FileItem.StartOk env.dates d.fi (HttpDate.ofCStr env.dates (h.h .lastModified))
            d.job.nUsedRangeStartPos (strtoll total) d.job.bAllowStoreData) := by
  constructor
  · intro ok
    exact ⟨ok.probe h206 value first total hr hs, ok.part h206 value first total hr hs⟩
  · rintro ⟨probe, part⟩
    refine .of_part h206 (fun v f t hv hs' => ?_) (fun v f t hv hs' => ?_)
    · obtain rfl := Option.some.inj (hr.symm.trans hv)
      cases hs.symm.trans hs'
      exact probe
    · obtain rfl := Option.some.inj (hr.symm.trans hv)
      cases hs.symm.trans hs'
      exact part

theorem publishes_unmoved {r : ResponseEval × Dl} (hu : d.fi.Unmoved r.2.fi) : d.Publishes r :=
  ⟨⟨hu.status.ge, fun _ => hu.size.ge⟩, fun _ => hu⟩

theorem publishes_probe {d' : Dl} {fi : FileItem} (hs : fi.status = d.fi.status) :
    d.Publishes (.good, { d' with fi := fi.dlFinish true io.head }) ↔
      (0 ≤ d.fi.nSizeChecked → d.fi.nSizeChecked ≤ fi.nSizeChecked) := by
  have fin := FileItem.dlFinish_advances fi true io.head
  have taken : d.startRefused (.good, { d' with fi := fi.dlFinish true io.head }) = false := rfl
  simp only [Publishes, taken, Bool.false_eq_true, false_implies, and_true]
  refine ⟨fun ha h0 => ?_, fun hz => ⟨hs ▸ fin.status, fun h0 => ?_⟩⟩
  · rw [← FileItem.dlFinish_size fi true io.head]
    exact ha.size h0
  · rw [FileItem.dlFinish_size]
    exact hz h0

theorem partialContent_publishes_iff (hf : d.Free) (h206 : h.status.code = 206) :
    d.Publishes ((d.counted raw).partialContent env io h raw) ↔ HeaderOk env d h contLen := by
  have hset : ∀ p, (h.setStatus 200 (lit "OK")).h p = h.h p := fun _ => rfl
  unfold partialContent
  simp only [hset]
  split
  · rename_i hr
    refine iff_of_true (publishes_error hf _ _)
      (.of_part h206 (fun _ _ _ hv => ?_) (fun _ _ _ hv => ?_)) <;> rw [hr] at hv <;> cases hv
  · rename_i value hr
    split
    · rename_i hs
      refine iff_of_true (publishes_error hf _ _)
        (.of_part h206 (fun v _ _ hv hs' => ?_) (fun v _ _ hv hs' => ?_)) <;>
        obtain rfl := Option.some.inj (hr.symm.trans hv) <;> rw [hs] at hs' <;> cases hs'
    · rename_i first total hs
      rw [headerOk_iff_part h206 hr hs]
      split
      · rename_i hp
        simp only [Bool.and_eq_true, decide_eq_true_eq] at hp
        have probe : d.isProbe env h first total :=
          ⟨hp.1.1.1.1, hp.1.1.1.2, hp.1.1.2, hp.1.2, hp.2⟩
        refine Iff.trans (publishes_probe rfl)
          ⟨fun hz => ⟨fun _ => ?_, fun hn => absurd probe hn⟩, fun ok _ => ok.1 probe⟩
        have := probe.2.1
        by_cases h0 : 0 ≤ d.fi.nSizeChecked
        · exact hz h0
        · omega
      · rename_i hp
        simp only [Bool.and_eq_true, decide_eq_true_eq] at hp
        have noProbe : ¬ d.isProbe env h first total := by
          rintro ⟨h1, h2, h3, h4, h5⟩
          exact hp ⟨⟨⟨⟨h1, h2⟩, h3⟩, h4⟩, h5⟩
        split
        · rename_i hn
          simp only [ne_eq, decide_not, Bool.or_eq_true, decide_eq_true_eq, Bool.not_eq_true',
            decide_eq_false_iff_not] at hn
          refine iff_of_true (publishes_error hf _ _)
            ⟨fun hp' => absurd hp' noProbe, fun _ h1 h2 h3 => ?_⟩
          rcases hn with (hn | hn) | hn
          · exact absurd hn h2
          · exact absurd h1 hn
          · exact absurd h3 (not_le.mpr hn)
        · rename_i hn
          simp only [ne_eq, decide_not, Bool.or_eq_true, decide_eq_true_eq, Bool.not_eq_true',
            decide_eq_false_iff_not, not_or, not_not, not_lt] at hn
          refine (startDownload_publishes_iff hf (counted_unmoved d raw) rfl).trans
            ⟨fun ok => ⟨fun hp' => absurd hp' noProbe, fun _ _ _ _ => ok⟩, fun ok => ?_⟩
          exact ok.2 noProbe hn.1.2 hn.1.1 hn.2

theorem rest_publishes_iff (hf : d.Free) (h200 : h.status.code ≠ 200) (h206 : h.status.code ≠ 206) :
    d.Publishes (d.checkAndSaveHeader env io h raw contLen) ↔ HeaderOk env d h contLen := by
  have ok_iff : HeaderOk env d h contLen ↔ (h.status.code ≠ 416 → d.job.bFileItemAssigned = false →
      (h.status.isRedirect && ((h.h .location).getD []).isEmpty) = false →
        ¬ d.fi.Behind d.job.nUsedRangeStartPos) :=
    ⟨fun ok => ok.other h200 h206, fun ho => ⟨fun hc => absurd hc h200, fun hc => absurd hc h206,
      fun hc => absurd hc h206, fun _ _ => ho⟩⟩
  rw [checkAndSaveHeader_rest env io d h raw contLen hf h200 h206, ok_iff]
  split
  · rename_i h416
    refine ⟨fun _ hc => absurd h416 hc, fun _ => ?_⟩
    split
    · exact publishes_unmoved ⟨rfl, rfl, rfl, rfl⟩
    · exact publishes_error hf _ _
  · rename_i h416
    split
    · rename_i ha
      exact ⟨fun _ _ hn => absurd (ha.symm.trans hn) (by decide), fun _ => publishes_error hf _ _⟩
    · rename_i ha
      split
      · rename_i hl
        exact ⟨fun _ _ _ hn => absurd (hl.symm.trans hn) (by decide), fun _ => publishes_error hf _ _⟩
      · rename_i hl
        have pending := hf.2.resolve_left ha
        refine Iff.trans (startDownload_publishes_iff hf ⟨rfl, rfl, rfl, rfl⟩ rfl)
          ⟨fun ok _ _ _ => ok.cold, fun ho => ⟨fun hr => ?_, ?_⟩⟩
        · exact absurd (hr.1.trans_le pending) (by decide)
        · exact ho h416 (by simpa using ha) (by simpa using hl)

theorem checkAndSaveHeader_publishes_iff (env : Env) (io : Io) (d : Dl) (h : Header) (raw : Nat)
    (contLen : Int) :
    d.Publishes (d.checkAndSaveHeader env io h raw contLen) ↔
      (d.Free → HeaderOk env d h contLen) := by
  by_cases hf : d.Free
  swap
  · refine ⟨fun _ h => absurd h hf, fun _ => ?_⟩
    have hc := checkAndSaveHeader_cases env io d h raw contLen
    generalize d.checkAndSaveHeader env io h raw contLen = r at hc ⊢
    cases hc with
    | busy => exact publishes_unmoved (counted_unmoved d raw)
    | _ => contradiction
  rw [forall_prop_of_true hf]
  by_cases h200 : h.status.code = 200
  · rw [checkAndSaveHeader_full env io d h raw contLen hf h200]
    refine Iff.trans (startDownload_publishes_iff hf ⟨rfl, rfl, rfl, rfl⟩ rfl)
      ⟨fun ok => ⟨fun _ => ok, fun hc => ?_, fun hc => ?_, fun hc => absurd h200 hc⟩,
        fun ok => ok.full h200⟩ <;>
      rw [h200] at hc <;> cases hc
  · by_cases h206 : h.status.code = 206
    · rw [checkAndSaveHeader_part env io d h raw contLen hf h206]
      exact partialContent_publishes_iff hf h206
    · exact rest_publishes_iff hf h200 h206

end Dl

namespace FileItem

variable {fi : FileItem}

/-- `DlAddData` without interrupted calls: one call that succeeds, or one that is followed by
a failure. -/
theorem dlAddData_eq_by (fi : FileItem) (chunk : Bytes) (io : StoreIo) (hne : chunk ≠ [])
    (hw : ∀ n, io.written = some n → n < chunk.length) :
    ∃ writes, (∀ front, .interrupted front ∉ writes) ∧
      fi.dlAddDataBy chunk io writes = some (fi.dlAddData chunk io) := by
  have he : chunk.isEmpty = false := by simpa using hne
  simp only [dlAddDataBy, dlAddData]
  generalize (if fi.filefd.isNone = true then
      safeOpenOutFile { fi with nIncommingCount := fi.nIncommingCount + chunk.length } io
      else (true, { fi with nIncommingCount := fi.nIncommingCount + chunk.length })) = r
  obtain ⟨ok, f⟩ := r
  cases ok with
  | false => exact ⟨[], by simp, rfl⟩
  | true =>
    simp only [Bool.not_true, Bool.false_eq_true, if_false]
    cases f.filefd with
    | none => exact ⟨[], by simp, rfl⟩
    | some pos =>
      simp only
      split
      · exact ⟨[], by simp, rfl⟩
      · split
        · exact ⟨[], by simp, rfl⟩
        · cases hn : io.written with
          | none => exact ⟨[.wrote chunk.length], by simp, by simp [writeLoop, he]⟩
          | some n =>
            have hlt := hw n hn
            refine ⟨[.wrote n, .failed], by simp, ?_⟩
            have hd : (chunk.drop n).isEmpty = false := by
              rw [List.isEmpty_eq_false_iff, ne_eq, List.drop_eq_nil_iff]
              omega
            simp [writeLoop, he, hd, hlt.le]

theorem dlStarted_running (lib : DateLib) (fi : FileItem) (raw : Nat) (modDate : HttpDate)
    (origin : Bytes) (status : RemoteStatus) (seek announced : Int)
    (hs : fi.status ≤ .dlError) :
    (fi.dlStarted lib raw modDate origin status seek announced).2.status ≤ .dlError := by
  have hc := dlStarted_cases lib fi raw modDate origin status seek announced
  generalize fi.dlStarted lib raw modDate origin status seek announced = r at hc ⊢
  cases hc with
  | insane _ _ same => exact same.status.le.trans hs
  | behind _ _ _ he => rw [he]; decide
  | accepted _ _ he => rw [he]; decide

theorem dlFinish_running {force : Bool} {io : HeadIo} (hs : fi.status ≤ .dlError) :
    (fi.dlFinish force io).status ≤ .dlError := by
  cases hn : fi.spattr.bNoStore with
  | true => simpa [dlFinish, hn] using hs
  | false =>
    rw [dlFinish_status fi force io hn]
    exact max_le hs (by decide)

theorem dlAddDataBy_running {chunk : Bytes} {io : StoreIo} {ws : List WriteResult}
    {r : Bool × FileItem} (h : fi.dlAddDataBy chunk io ws = some r) (hs : fi.status ≤ .dlError) :
    r.2.status ≤ .dlError := by
  cases dlAddDataBy_cases h with
  | early status =>
    rcases status with he | he <;> rw [he]
    exact hs
  | loop written _ status =>
    cases hr : r.1 with
    | true =>
      rw [(written.all hr).2.1, status]
      split
      · decide
      · exact hs
    | false => exact (written.error hr).2.le

theorem setup_running (h : fi.status = .fresh) : fi.setup.status ≤ .dlError := by
  have inited : FiStatus.inited ≤ .dlError := by decide
  have gotHead : FiStatus.dlGotHead ≤ .dlError := by decide
  have complete : FiStatus.complete ≤ .dlError := by decide
  unfold setup
  rw [if_neg (by rw [h]; decide)]
  simp only [parseHeadFromStorage]
  cases fi.disk.head with
  | none =>
    simp only [errorClean, isVolatile]
    split_ifs
    all_goals first | exact inited | exact gotHead | exact complete
  | some head =>
    cases head with
    | garbled => exact inited
    | fields =>
      simp only [errorClean, isVolatile]
      split_ifs
      all_goals first | exact inited | exact gotHead | exact complete

end FileItem

theorem Dl.checkAndSaveHeader_running {env : Env} {io : Io} {d : Dl} {h : Header} {raw : Nat}
    {contLen : Int} (hs : d.fi.status ≤ .dlError) :
    (d.checkAndSaveHeader env io h raw contLen).2.fi.status ≤ .dlError := by
  have start (d' : Dl) (loc : Bytes) (h : Header) (n : Int) (he : d'.fi.status = d.fi.status) :
      (d'.startDownload env io h raw loc n).2.fi.status ≤ .dlError := by
    have hr := FileItem.dlStarted_running env.dates (d'.markAssigned env).fi raw
      (HttpDate.ofCStr env.dates (h.h .lastModified)) (d'.originOf loc) h.status
      d'.job.nUsedRangeStartPos n (he ▸ hs)
    cases hq : (d'.markAssigned env).fi.dlStarted env.dates raw
        (HttpDate.ofCStr env.dates (h.h .lastModified)) (d'.originOf loc) h.status
        d'.job.nUsedRangeStartPos n with
    | mk ok fi' =>
      rw [startDownload_of env io d' h raw loc n ok fi' hq]
      rw [hq] at hr
      cases ok with
      | false => exact hr
      | true =>
        cases hb : d'.job.bAllowStoreData with
        | false => simpa [hb] using FileItem.dlFinish_running hr
        | true => simpa [hb] using hr
  have hc := checkAndSaveHeader_cases env io d h raw contLen
  generalize d.checkAndSaveHeader env io h raw contLen = r at hc ⊢
  cases hc with
  | busy => exact hs
  | error => exact le_refl _
  | restart => exact hs
  | probe => exact FileItem.dlFinish_running hs
  | full => exact start _ _ _ _ rfl
  | part => exact start _ _ _ _ rfl
  | other => exact start _ _ _ _ rfl

theorem FileItem.Advances.trans {a b c : FileItem} (h : a.Advances b) (g : b.Advances c) :
    a.Advances c :=
  ⟨h.status.trans g.status, fun h0 => (h.size h0).trans (g.size (h0.trans (h.size h0)))⟩

namespace Publish

variable {env : Env} {fi m n t : FileItem} {op : Publish} {ops : List Publish} {refused : Bool}

/-- Where a call publishes in order. -/
def Ok (env : Env) (fi : FileItem) : Publish → Prop
  | .checkAndSaveHeader now job _ h _ contLen =>
    Dl.Free ⟨job, fi, []⟩ → Dl.HeaderOk { env with now := now } ⟨job, fi, []⟩ h contLen
  | .dlStarted _ modDate _ _ bytes2seek bytesAnnounced =>
    ¬ FileItem.HotRestart env.dates fi modDate bytes2seek bytesAnnounced ∧ ¬ fi.Behind bytes2seek
  | .dlAddData chunk io writes => fi.DataOk chunk io writes
  | .dlFinish _ _ | .dlSetError _ _ => True

theorem apply_running (h : op.apply env fi = some (t, refused)) (hs : fi.status ≤ .dlError) :
    t.status ≤ .dlError := by
  cases op with
  | checkAndSaveHeader =>
    obtain ⟨rfl, -⟩ := Prod.mk.inj (Option.some.inj h)
    exact Dl.checkAndSaveHeader_running hs
  | dlStarted =>
    obtain ⟨rfl, -⟩ := Prod.mk.inj (Option.some.inj h)
    exact FileItem.dlStarted_running _ _ _ _ _ _ _ _ hs
  | dlAddData =>
    obtain ⟨r, hr, he⟩ := Option.map_eq_some_iff.mp h
    obtain ⟨rfl, -⟩ := Prod.mk.inj he
    exact FileItem.dlAddDataBy_running hr hs
  | dlFinish =>
    obtain ⟨rfl, -⟩ := Prod.mk.inj (Option.some.inj h)
    exact FileItem.dlFinish_running hs
  | dlSetError =>
    obtain ⟨rfl, -⟩ := Prod.mk.inj (Option.some.inj h)
    exact le_refl FiStatus.dlError

/-- One call publishes in order exactly under its condition. -/
theorem apply_ok_iff (h : op.apply env fi = some (t, refused)) (hs : fi.status ≤ .dlError) :
    (fi.Advances t ∧ (refused = true → fi.Unmoved t)) ↔ Ok env fi op := by
  cases op with
  | checkAndSaveHeader now job io head raw contLen =>
    obtain ⟨rfl, rfl⟩ := Prod.mk.inj (Option.some.inj h)
    exact Dl.checkAndSaveHeader_publishes_iff { env with now := now } io ⟨job, fi, []⟩ head raw contLen
  | dlStarted =>
    obtain ⟨rfl, rfl⟩ := Prod.mk.inj (Option.some.inj h)
    exact FileItem.dlStarted_ok_iff _ _ _ _ _ _ _ _
  | dlAddData =>
    obtain ⟨r, hr, he⟩ := Option.map_eq_some_iff.mp h
    obtain ⟨rfl, rfl⟩ := Prod.mk.inj he
    rw [and_iff_left (by simp)]
    exact FileItem.dlAddDataBy_advances_iff hr hs
  | dlFinish =>
    obtain ⟨rfl, rfl⟩ := Prod.mk.inj (Option.some.inj h)
    exact ⟨fun _ => trivial, fun _ => ⟨FileItem.dlFinish_advances _ _ _, by simp⟩⟩
  | dlSetError =>
    obtain ⟨rfl, rfl⟩ := Prod.mk.inj (Option.some.inj h)
    exact ⟨fun _ => trivial, fun _ => ⟨⟨hs, fun _ => le_refl _⟩, by simp⟩⟩

theorem run_running (h : run env fi ops = some t) (hs : fi.status ≤ .dlError) :
    t.status ≤ .dlError := by
  refine runs_induct (motive := fun _ t => t.status ≤ .dlError) hs ?_ h
  intro _ op m t _ ih ha
  obtain ⟨⟨n, refused⟩, hn, rfl⟩ := Option.map_eq_some_iff.mp ha
  exact apply_running hn ih

/-- The steps of a run all meet their conditions. -/
def AllOk (env : Env) (fi : FileItem) (ops : List Publish) : Prop :=
  ∀ pre op post m, ops = pre ++ op :: post → run env fi pre = some m → Ok env m op

theorem run_advances (h : run env fi ops = some t) (hs : fi.status ≤ .dlError)
    (ok : AllOk env fi ops) : fi.Advances t := by
  refine runs_induct (motive := fun as t => as <+: ops → fi.Advances t)
    (fun _ => ⟨le_refl _, fun _ => le_refl _⟩) ?_ h (List.prefix_refl _)
  intro as op m t hm ih ha hp
  obtain ⟨post, rfl⟩ := hp
  obtain ⟨⟨n, refused⟩, hn, rfl⟩ := Option.map_eq_some_iff.mp ha
  have step := (apply_ok_iff hn (run_running hm hs)).mpr (ok as op post m (by simp) hm)
  exact (ih ⟨op :: post, by simp⟩).trans step.1

theorem monotone_of_ok (hs : fi.status ≤ .dlError) (ok : AllOk env fi ops) :
    MonotonePublication env fi ops where
  advances pre mid post m n hops hm hn := by
    refine run_advances hn (run_running hm hs) (fun pre' op post' k hmid hk => ?_)
    exact ok (pre ++ pre') op (post' ++ post) k (by rw [hops, hmid]; simp)
      (runs_split.mpr ⟨m, hm, hk⟩)
  refused pre op post m n hops hm hn :=
    ((apply_ok_iff hn (run_running hm hs)).mpr (ok pre op post m hops hm)).2 rfl

theorem ok_of_monotone (h : run env fi ops = some t) (hs : fi.status ≤ .dlError)
    (mono : MonotonePublication env fi ops) : AllOk env fi ops := by
  rintro pre op post m rfl hm
  obtain ⟨m', hm', hrest⟩ := runs_split.mp h
  obtain rfl := Option.some.inj (hm.symm.trans hm')
  obtain ⟨n, hn, -⟩ := runs_cons.mp hrest
  obtain ⟨⟨n', refused⟩, happ, rfl⟩ := Option.map_eq_some_iff.mp hn
  refine (apply_ok_iff happ (run_running hm hs)).mp ⟨?_, fun hr => ?_⟩
  · exact mono.advances pre [op] post m n' (by simp) hm (runs_cons.mpr ⟨n', hn, rfl⟩)
  · subst hr
    exact mono.refused pre op post m n' rfl hm happ

/-- A run publishes in order exactly if no call of it is a restart of an item that has got
further, a probe answer or a failed write that takes back what was counted, or the opening
of a finished item. -/
theorem publication_monotone_iff (env : Env) (fi : FileItem) (fresh : fi.status = .fresh)
    (ops : List Publish) (t : FileItem) (h : run env fi.setup ops = some t) :
    MonotonePublication env fi.setup ops ↔ AllOk env fi.setup ops :=
  ⟨ok_of_monotone h (FileItem.setup_running fresh), monotone_of_ok (FileItem.setup_running fresh)⟩

/-- A response is received in two pieces and finished. -/
theorem publication_monotone_iff_two_writes : ∃ t,
    run plainEnv (FileItem.setup {}) [.checkAndSaveHeader 0 {} {} { status := ⟨200, lit "OK"⟩ } 19 2,
      .dlAddData [1, 2] {} [.wrote 1, .wrote 1], .dlFinish false .stored] = some t ∧
    t.status = .complete ∧
    (MonotonePublication plainEnv (FileItem.setup {})
        [.checkAndSaveHeader 0 {} {} { status := ⟨200, lit "OK"⟩ } 19 2,
          .dlAddData [1, 2] {} [.wrote 1, .wrote 1], .dlFinish false .stored] ↔
      AllOk plainEnv (FileItem.setup {})
        [.checkAndSaveHeader 0 {} {} { status := ⟨200, lit "OK"⟩ } 19 2,
          .dlAddData [1, 2] {} [.wrote 1, .wrote 1], .dlFinish false .stored]) :=
  ⟨_, rfl, rfl, publication_monotone_iff plainEnv {} rfl _ _ rfl⟩

/-- The connection is lost after two of four bytes, and the next answer is the whole file
again. `DlStarted` refuses it, but only after it has put the status back. -/
theorem refused_restart_lowers : ∃ ops t, run plainEnv (FileItem.setup {}) ops = some t ∧
    t.status = .dlGotHead ∧ ¬ MonotonePublication plainEnv (FileItem.setup {}) ops := by
  refine ⟨[.checkAndSaveHeader 0 {} {} { status := ⟨200, lit "OK"⟩ } 19 4,
    .dlAddData [1, 2] {} [.wrote 2], .checkAndSaveHeader 0 { bFileItemAssigned := true } {}
      { status := ⟨200, lit "OK"⟩ } 19 4], _, rfl, rfl, fun mono => ?_⟩
  have back := mono.advances [.checkAndSaveHeader 0 {} {} { status := ⟨200, lit "OK"⟩ } 19 4,
    .dlAddData [1, 2] {} [.wrote 2]] [.checkAndSaveHeader 0 { bFileItemAssigned := true } {}
      { status := ⟨200, lit "OK"⟩ } 19 4] [] _ _ rfl rfl rfl
  exact absurd back.status (by decide)

end Publish

end Acng
