import Acng.Inject
import Acng.Proofs.Storage

namespace Acng
open Lib

namespace FileItem

theorem setup_filefd (fi : FileItem) : fi.setup.filefd = fi.filefd := by
  unfold setup
  split
  · rfl
  · simp only [parseHeadFromStorage]
    cases fi.disk.head with
    | none =>
      simp only [errorClean]
      split_ifs <;> rfl
    | some h =>
      cases h with
      | garbled => rfl
      | fields contLen lastModified origSrc =>
        simp only [errorClean]
        split_ifs <;> rfl

/-- An item with this file open, or about to be opened, whose lengths are those of another one. -/
structure Holds (fi : FileItem) (f : Bytes) (fi' : FileItem) : Prop where
  file : fi'.disk.file = some f
  checked : fi'.nSizeChecked = fi.nSizeChecked
  length : fi'.nContentLength = fi.nContentLength

theorem replaceFile_true (fi : FileItem) (io : ReplaceIo) (h : (fi.replaceFile io).1 = true) :
    Holds fi [] (fi.replaceFile io).2 ∧ (fi.replaceFile io).2.filefd.isNone = false := by
  unfold replaceFile at h ⊢
  simp only at h ⊢
  split_ifs at h ⊢
  exact ⟨⟨rfl, rfl, rfl⟩, rfl⟩

theorem obtainFd_true (fi : FileItem) (io : StoreIo) (hfd : fi.filefd = none)
    (h : (fi.obtainFd io).1 = true) :
    ∃ f, Holds fi f (fi.obtainFd io).2 ∧ (fi.bWriterMustReplaceFile = true → f = []) := by
  unfold obtainFd at h ⊢
  by_cases hmust : (fi.bWriterMustReplaceFile || decide (fi.nContentLength < 0)) = true
  · rw [if_pos hmust] at h ⊢
    cases hreplace : (fi.replaceFile io.replaceOrdered).1 with
    | false =>
      simp only [hreplace, Bool.not_false, if_true] at h
      cases h
    | true =>
      obtain ⟨hholds, hopen⟩ := replaceFile_true _ _ hreplace
      simp only [hreplace, hopen, Bool.not_true, Bool.false_eq_true, if_false]
      exact ⟨[], hholds, fun _ => rfl⟩
  · have hkept : fi.bWriterMustReplaceFile = false := by
      rw [Bool.or_eq_true, not_or] at hmust
      exact Bool.not_eq_true _ ▸ hmust.1
    rw [if_neg hmust] at h ⊢
    simp only [hfd, Bool.not_true, Bool.false_eq_true, if_false, Option.isNone_none, if_true,
      openFile] at h ⊢
    cases hopen : io.openFile with
    | true =>
      simp only [if_true, Option.isNone_some, Bool.false_eq_true, if_false]
      exact ⟨fi.disk.file.getD [], ⟨rfl, rfl, rfl⟩, fun hyes => by rw [hkept] at hyes; cases hyes⟩
    | false =>
      simp only [hopen, Bool.false_eq_true, if_false, hfd, Option.isNone_none, if_true] at h ⊢
      exact ⟨[], (replaceFile_true _ _ h).1, fun _ => rfl⟩

theorem saveHeader_file (fi : FileItem) (onlyOrigin : Bool) (io : HeadIo) :
    (fi.saveHeader onlyOrigin io).1 = true ∧
      (fi.saveHeader onlyOrigin io).2.disk.file = fi.disk.file ∧
      (fi.saveHeader onlyOrigin io).2.filefd = fi.filefd := by
  unfold saveHeader
  cases onlyOrigin <;> cases io <;> exact ⟨rfl, rfl, rfl⟩

/-- An item whose writer stands in front of the first byte. -/
structure AtStart (f : Bytes) (fi : FileItem) : Prop where
  file : fi.disk.file = some f
  position : fi.filefd = some 0
  status : fi.status = .dlReceiving

theorem startWriting_true {fi fi' : FileItem} {f : Bytes} {io : StoreIo} {size : Int}
    (hholds : Holds fi f fi') (hseek : fi.nSizeChecked = 0)
    (h : (fi'.startWriting io size).1 = true) : AtStart f (fi'.startWriting io size).2 := by
  have hzero := hholds.checked.trans hseek
  have hpos : ¬ fi'.nSizeChecked < 0 := by omega
  unfold startWriting at h ⊢
  simp only [if_neg hpos, saveHeader_file, Bool.not_true, Bool.false_eq_true, if_false] at h ⊢
  split at h
  · cases h
  · next hsize =>
    rw [if_neg hsize]
    refine ⟨(saveHeader_file _ false io.head).2.1.trans hholds.file, ?_, rfl⟩
    simp only [hzero]
    rfl

/-- A file that was opened for the first byte is not longer than announced. -/
theorem safeOpenOutFile_true (fi : FileItem) (io : StoreIo) (hseek : fi.nSizeChecked = 0)
    (hlen : 0 ≤ fi.nContentLength) (h : (fi.safeOpenOutFile io).1 = true) :
    ∃ f, (f.length : Int) ≤ fi.nContentLength ∧ AtStart f (fi.safeOpenOutFile io).2 := by
  unfold safeOpenOutFile at h ⊢
  simp only at h ⊢
  split at h
  · cases h
  · next hstore =>
    rw [if_neg hstore]
    have hobtain := fun h => obtainFd_true { fi with filefd := none } io rfl h
    generalize obtainFd { fi with filefd := none } io = r at h hobtain ⊢
    split at h
    · next hfd => rw [h] at hfd; cases hfd
    · next hfd =>
      rw [if_neg hfd]
      obtain ⟨f, hholds, -⟩ := hobtain (by simpa using hfd)
      have hsize : fileSize r.2.disk = f.length := by rw [fileSize, hholds.file]
      have hlength : r.2.nContentLength = fi.nContentLength := hholds.length
      rw [hsize, hlength] at h ⊢
      split at h
      · cases h
      · next hseekEnd =>
        rw [if_neg hseekEnd]
        split at h
        · next hlonger =>
          rw [if_pos hlonger]
          have hreplace := fun h => replaceFile_true r.2 io.replaceLonger h
          generalize r.2.replaceFile io.replaceLonger = q at h hreplace ⊢
          split at h
          · next hfail => rw [h] at hfail; cases hfail
          · next hdone =>
            rw [if_neg hdone]
            obtain ⟨hempty, -⟩ := hreplace (by simpa using hdone)
            exact ⟨[], hlen, startWriting_true hempty (hholds.checked.trans hseek) h⟩
        · next hlonger =>
          rw [if_neg hlonger]
          exact ⟨f, by omega, startWriting_true hholds hseek h⟩

/-- What is written from the first byte on is the whole file if it has the announced length. -/
theorem dlAddData_whole (fi : FileItem) (io : StoreIo) (data : Bytes) (hfd : fi.filefd = none)
    (hseek : fi.nSizeChecked = 0) (hlen : (data.length : Int) ≤ fi.nContentLength)
    (h : (fi.dlAddData data io).1 = true) :
    (fi.dlAddData data io).2.status = .dlReceiving ∧ (fi.nContentLength = data.length →
      (fi.dlAddData data io).2.disk.file = some data) := by
  unfold dlAddData at h ⊢
  simp only [hfd, Option.isNone_none, if_true] at h ⊢
  have hopen := fun h => safeOpenOutFile_true
    { fi with nIncommingCount := fi.nIncommingCount + data.length } io hseek
    (Int.le_trans (Int.natCast_nonneg _) hlen) h
  rw [hfd] at hopen
  generalize safeOpenOutFile _ io = r at h hopen ⊢
  split at h
  · next hfail => rw [h] at hfail; cases hfail
  · next hdone =>
    rw [if_neg hdone]
    obtain ⟨f, hshort, hfile, hpos, hstatus⟩ := hopen (by simpa using hdone)
    simp only [hpos, hstatus] at h ⊢
    rw [if_neg (by decide), if_neg (by decide)] at h ⊢
    cases hwritten : io.written with
    | some n =>
      rw [hwritten] at h
      cases h
    | none =>
      refine ⟨hstatus, fun heq => ?_⟩
      have hdrop : f.drop data.length = [] := List.drop_eq_nil_of_le (by simp only at hshort; omega)
      simp only [writeChunk, hfile, Option.map_some, writeAt, List.take_zero, List.nil_append,
        Nat.zero_add, hdrop, List.append_nil]

/-- An item that took the download starts at the first byte and expects what was announced. -/
theorem dlStarted_true {lib : DateLib} {fi : FileItem} {raw : Nat} {modDate : HttpDate}
    {origin : Bytes} {status : RemoteStatus} {announced : Int} (hstatus : fi.status ≤ .inited)
    (h : (fi.dlStarted lib raw modDate origin status 0 announced).1 = true) :
    (fi.dlStarted lib raw modDate origin status 0 announced).2 =
      fi.started raw modDate origin status 0 announced := by
  have hlt : ¬ FiStatus.dlGotHead ≤ fi.status := not_le.mpr (lt_of_le_of_lt hstatus (by decide))
  unfold dlStarted at h ⊢
  simp only [hlt, decide_false, Bool.false_and, Bool.false_eq_true, if_false] at h ⊢
  split at h
  · cases h
  · next hseek =>
    rw [if_neg hseek]
    rfl

theorem setup_status {fi : FileItem} (h : fi.setup.status ≤ .inited) : fi.status ≤ .inited := by
  by_cases hfresh : .fresh < fi.status
  · rwa [setup_begun fi hfresh] at h
  · exact le_trans (not_lt.mp hfresh) (by decide)

/-- What was taken as a complete file is the data, with the length that was announced. -/
theorem inject_true (lib : DateLib) (io : InjectIo) (fi : FileItem) {data : Bytes} {contLen : Int}
    (lastModified : HttpDate) (forceOrig : Option Bytes)
    (hclosed : fi.status ≤ .inited → fi.filefd = none) (hlen : (data.length : Int) ≤ contLen)
    (h : (fi.inject lib io data contLen lastModified forceOrig).1 = true) :
    (data.length : Int) = contLen ∧
      (fi.inject lib io data contLen lastModified forceOrig).2.disk.file = some data := by
  unfold inject at h ⊢
  simp only at h ⊢
  split at h
  · cases h
  · next hbusy =>
    rw [if_neg hbusy]
    have hstatus := not_lt.mp hbusy
    have hfd : fi.setup.filefd = none := (setup_filefd fi).trans (hclosed (setup_status hstatus))
    have hstarted : (fi.setup.dlStarted lib 0 lastModified (forceOrig.getD fi.setup.responseOrigin)
        ⟨200, lit "OK"⟩ 0 contLen).1 = true → _ = _ := dlStarted_true hstatus
    generalize fi.setup.dlStarted lib 0 lastModified (forceOrig.getD fi.setup.responseOrigin)
      ⟨200, lit "OK"⟩ 0 contLen = r at h hstarted ⊢
    split at h
    · next hfail => rw [h] at hfail; cases hfail
    · next hdone =>
      rw [if_neg hdone]
      have hr := hstarted (by simpa using hdone)
      have hadded := fun h => dlAddData_whole r.2 io.store data
        (by rw [hr]; exact hfd) (by rw [hr]; rfl) (by rw [hr]; exact hlen) h
      have hlength : r.2.nContentLength = contLen := by rw [hr]; rfl
      rw [hlength] at hadded
      generalize r.2.dlAddData data io.store = q at h hadded ⊢
      split at h
      · next hfail => rw [h] at hfail; cases hfail
      · next hwritten =>
        rw [if_neg hwritten]
        obtain ⟨hreceiving, hwhole⟩ := hadded (by simpa using hwritten)
        by_cases hfull : (data.length : Int) = contLen
        · rw [if_pos hfull]
          obtain ⟨status, len, head, hfinish⟩ := dlFinish_frame q.2 true io.head
          rw [hfinish]
          exact ⟨hfull, hwhole hfull.symm⟩
        · rw [if_neg hfull, hreceiving] at h
          cases h

end FileItem

namespace CacheState

@[simp] theorem setFlags_disk (st : CacheState) (sPathRel : Bytes)
    (change : IfileAttribs → IfileAttribs) : (st.setFlags sPathRel change).disk = st.disk := by
  unfold setFlags
  split <;> rfl

theorem setFlags_flags (st : CacheState) (sPathRel : Bytes)
    (change : IfileAttribs → IfileAttribs) (path : Bytes) :
    (st.setFlags sPathRel change).flags path = st.flags path ∨
      (st.setFlags sPathRel change).flags path = change (st.flags path) := by
  unfold setFlags
  split
  · exact .inl rfl
  · by_cases hpath : path = sPathRel
    · subst hpath
      exact .inr (Function.update_self ..)
    · exact .inl (Function.update_of_ne hpath ..)

/-- Only the file at the target changes. -/
theorem injectFile_disk {lib : DateLib} {io : InjectIo} {st : CacheState} {file : Option Bytes}
    {toRel : Bytes} {bSetIfileFlags : Bool} {contLen : Int} {lastModified : HttpDate}
    {forceOrig : Option Bytes} {path : Bytes} (h : path ≠ toRel) :
    (st.injectFile lib io file toRel bSetIfileFlags contLen lastModified forceOrig).2.disk path =
      st.disk path := by
  have hset : ∀ disk, (st.setDisk toRel disk).disk path = st.disk path := by
    intro disk
    simp only [setDisk, Function.update_of_ne h]
  unfold injectFile
  split
  · rfl
  · cases file with
    | none => rfl
    | some data =>
      simp only
      split
      · rfl
      · cases io.item with
        | none => rfl
        | some fi =>
          simp only
          generalize FileItem.inject lib io _ data _ lastModified forceOrig = r
          split
          · rw [setFlags_disk, hset]
          · exact hset _

/-- A file that `Inject` really installs is the file it was made from. -/
theorem injectFile_true {lib : DateLib} {io : InjectIo} {st : CacheState} {file : Option Bytes}
    {toRel : Bytes} {bSetIfileFlags : Bool} {contLen : Int} {lastModified : HttpDate}
    {forceOrig : Option Bytes} (hold : (st.flags toRel).uptodate = false)
    (h : (st.injectFile lib io file toRel bSetIfileFlags contLen lastModified forceOrig).1 = true) :
    ∃ data disk, file = some data ∧ disk.file = some data ∧
      (0 ≤ contLen → (data.length : Int) = contLen) ∧
      (st.injectFile lib io file toRel bSetIfileFlags contLen lastModified forceOrig).2 =
        if bSetIfileFlags then
          (st.setDisk toRel disk).setFlags toRel (fun atts =>
            { atts with uptodate := true, vfile_ondisk := true })
        else st.setDisk toRel disk := by
  unfold injectFile at h ⊢
  rw [hold] at h ⊢
  simp only [Bool.false_eq_true, if_false] at h ⊢
  cases file with
  | none => cases h
  | some data =>
    simp only at h ⊢
    split at h
    · cases h
    · next hfits =>
      rw [if_neg hfits]
      cases hitem : io.item with
      | none =>
        rw [hitem] at h
        cases h
      | some fi =>
        simp only [hitem] at h ⊢
        have hlen : (data.length : Int) ≤ (if contLen < 0 then (data.length : Int) else contLen) := by
          simp only [Bool.and_eq_true, decide_eq_true_eq, not_and, not_lt] at hfits
          split
          · exact Int.le_refl _
          · next hneg => exact hfits (by omega)
        have htaken := fun h => FileItem.inject_true lib io { fi with
            disk := if io.moved then { st.disk toRel with file := none } else st.disk toRel }
          lastModified forceOrig (io.closed fi hitem) hlen h
        generalize FileItem.inject lib io _ data _ lastModified forceOrig = r at h htaken ⊢
        have hr : r.1 = true := by
          cases hr : r.1 with
          | true => rfl
          | false =>
            rw [hr] at h
            cases h
        obtain ⟨hfull, hfile⟩ := htaken hr
        refine ⟨data, r.2.disk, rfl, hfile, fun hpos => ?_, ?_⟩
        · rwa [if_neg (by omega)] at hfull
        · rw [hr]
          cases bSetIfileFlags <;> rfl

end CacheState

end Acng
