import Acng.Setup
import Acng.Proofs.HeadStorage
import Acng.Proofs.Inject

namespace Acng
open Lib

/-- What the head file at a path is for the items. -/
def headFileOf (lib : DateLib) (buf : Bytes) : HeadFile :=
  match slices crlf 0 buf with
  | [] => .garbled
  | first :: ls =>
    if (lit "HTTP/1.1 200").isPrefixOf first then
      .fields ((firstField contLenPfx ls).map lengthOf) ((firstField laMoPfx ls).map (dateOf lib))
        ((firstField origSrcPfx ls).map originOf)
    else .garbled

namespace FileItem

variable {lib : DateLib} {fi : FileItem} {head : Option Bytes} {io : ReadIo}

theorem parseHead_eq (lib : DateLib) (v : HeadValues) (buf : Bytes) :
    parseHead lib v {} buf =
      match headFileOf lib buf with
      | .garbled => (false, v)
      | .fields contLen lastModified origSrc =>
        (true, ⟨contLen.getD v.contLen, lastModified.getD v.lastModified, origSrc.getD v.origSrc⟩) := by
  unfold parseHead headFileOf
  cases buf with
  | nil => rfl
  | cons c buf =>
    simp only [List.isEmpty_cons, Bool.false_eq_true, if_false]
    cases slices crlf 0 (c :: buf) with
    | nil => rfl
    | cons first ls =>
      simp only
      cases (lit "HTTP/1.1 200").isPrefixOf first with
      | false => rfl
      | true =>
        simp only [Bool.not_true, Bool.false_eq_true, if_false, if_true, parseHeadLines_eq]

theorem adoptHead_disk (fi : FileItem) (disk : Disk) :
    { ({ fi with disk } : FileItem).adoptHead with disk := fi.disk } = fi.adoptHead := by
  unfold adoptHead isVolatile errorClean
  simp only
  split_ifs <;> rfl

/-- For an item, a head file is what is found in it. -/
theorem setupBy_eq {read : Option Bytes} (hread : initFromFile head io = some read) :
    fi.setupBy lib head io = some
      { ({ fi with disk := { fi.disk with head := read.map (headFileOf lib) } } : FileItem).setup with
        disk := fi.disk } := by
  have hsize (h : Option HeadFile) : fileSize { fi.disk with head := h } = fileSize fi.disk := rfl
  unfold setupBy setup
  simp only
  split
  · rfl
  · simp only [Acng.parseHeadFromStorage, hread, Option.map_some, hsize]
    cases read with
    | none =>
      refine congrArg some ?_
      exact (adoptHead_disk { fi with
        status := .inited, nSizeCachedInitial := fileSize fi.disk, nSizeChecked := -1 } _).symm
    | some buf =>
      simp only [parseHead_eq]
      cases hkind : headFileOf lib buf with
      | garbled =>
        simp only [FileItem.parseHeadFromStorage, Option.map_some, hkind]
        rfl
      | fields contLen lastModified origSrc =>
        simp only [FileItem.parseHeadFromStorage, Option.map_some, hkind]
        refine congrArg some ?_
        exact (adoptHead_disk { fi with
          status := .inited, nSizeCachedInitial := fileSize fi.disk, nSizeChecked := -1
          nContentLength := contLen.getD fi.nContentLength
          responseModDate := lastModified.getD fi.responseModDate
          responseOrigin := origSrc.getD fi.responseOrigin } _).symm

/-- The fields of the head, if it can be read. -/
def readHead (lib : DateLib) (head : Option Bytes) (io : ReadIo) : Option HeadFile :=
  ((initFromFile head io).getD none).map (headFileOf lib)

/-- Nothing is known about the old data: they are neither resumed nor overwritten in place. -/
structure Discarded (t : FileItem) : Prop where
  status : t.status = .inited
  cached : t.nSizeCachedInitial = -1
  checked : t.nSizeChecked = -1
  length : t.nContentLength = -1
  replace : t.bWriterMustReplaceFile = true
  notResumed : ∀ cfg (j : DlJob), j.rangeStart cfg t = -1
  notOverwritten : ∀ io, (t.safeOpenOutFile io).1 = true →
    (t.safeOpenOutFile io).2.disk.file = some []

/-- The data file is too short for the length in the head, or there is no length in it. -/
def Unfinished (file : Option Bytes) (contLen : Option Int) : Prop :=
  contLen.getD (-1) < 0 ∨ fileSize { file } < contLen.getD (-1)

/-- What `Setup` is to make of the two files of an item. -/
structure DecidesByHead (lib : DateLib) (fi : FileItem) (head : Option Bytes) (io : ReadIo)
    (t : FileItem) : Prop where
  discards : (∀ contLen date origin, readHead lib head io ≠ some (.fields contLen date origin)) →
    t.Discarded
  complete : t.status = .complete → ∃ contLen date origin f,
    readHead lib head io = some (.fields (some contLen) date origin) ∧ fi.disk.file = some f ∧
      contLen = f.length
  revalidates : fi.spattr.bVolatile = false → ∀ contLen date origin,
    readHead lib head io = some (.fields contLen date origin) → Unfinished fi.disk.file contLen →
      t.spattr.bVolatile = true ∧ t.responseModDate = date.getD {}

theorem startWriting_file (fi : FileItem) (io : StoreIo) (size : Int) :
    (fi.startWriting io size).2.disk.file = fi.disk.file := by
  unfold startWriting
  simp only
  have hdisk : (if fi.nSizeChecked < 0 then { fi with nSizeChecked := 0 } else fi).disk = fi.disk := by
    split
    · rfl
    · rfl
  generalize (if fi.nSizeChecked < 0 then { fi with nSizeChecked := 0 } else fi) = f at hdisk ⊢
  have hsaved := (saveHeader_file { f with filefd := some f.nSizeChecked.toNat } false io.head).2.1
  split
  · exact congrArg Disk.file hdisk
  · split
    · exact hsaved.trans (congrArg Disk.file hdisk)
    · exact hsaved.trans (congrArg Disk.file hdisk)

/-- A file that must be replaced is empty when it is written. -/
theorem safeOpenOutFile_replaced {t : FileItem} {io : StoreIo} (hmust : t.bWriterMustReplaceFile = true)
    (h : (t.safeOpenOutFile io).1 = true) : (t.safeOpenOutFile io).2.disk.file = some [] := by
  unfold safeOpenOutFile at h ⊢
  simp only at h ⊢
  split at h
  · cases h
  · rename_i hstore
    rw [if_neg hstore]
    have hobtain := fun h => obtainFd_true { t with filefd := none } io rfl h
    generalize obtainFd { t with filefd := none } io = r at h hobtain ⊢
    split at h
    · rename_i hfail
      rw [h] at hfail
      cases hfail
    · rename_i hok
      rw [if_neg hok]
      obtain ⟨f, hholds, hempty⟩ := hobtain (by simpa using hok)
      obtain rfl := hempty hmust
      split at h
      · cases h
      · rename_i hseek
        rw [if_neg hseek]
        split at h
        · rename_i hlonger
          rw [if_pos hlonger]
          have hreplace := fun h => replaceFile_true r.2 io.replaceLonger h
          generalize r.2.replaceFile io.replaceLonger = q at h hreplace ⊢
          split at h
          · rename_i hfail
            rw [h] at hfail
            cases hfail
          · rename_i hdone
            rw [if_neg hdone, startWriting_file]
            exact (hreplace (by simpa using hdone)).1.file
        · rename_i hlonger
          rw [if_neg hlonger, startWriting_file]
          exact hholds.file

theorem errorClean_discarded (fi : FileItem) : fi.errorClean.Discarded := by
  refine ⟨rfl, rfl, rfl, rfl, rfl, fun cfg j => ?_, fun io h => safeOpenOutFile_replaced rfl h⟩
  simp [DlJob.rangeStart, errorClean]

/-- A head that cannot be read is taken for one without a length. -/
theorem unread_kept (fi : FileItem) (h : fi.nContentLength < 0) :
    fi.adoptHead.bWriterMustReplaceFile = fi.bWriterMustReplaceFile := by
  unfold adoptHead
  simp only [if_neg (not_le.mpr h)]
  split_ifs <;> rfl

/-- The item before its head is looked at. -/
def inited (path : Bytes) (spattr : SpecialPurposeAttr) (file : Option Bytes) : FileItem :=
  { created path spattr file with status := .inited, nSizeCachedInitial := fileSize { file } }

/-- The item with the values of a head. -/
def withHead (fi : FileItem) (contLen : Option Int) (date : Option HttpDate) (origin : Option Bytes) :
    FileItem :=
  { fi with
    nContentLength := contLen.getD (-1), responseModDate := date.getD {}, responseOrigin := origin.getD [] }

theorem created_fresh (path : Bytes) (spattr : SpecialPurposeAttr) (file : Option Bytes) :
    ¬ (created path spattr file).status > .fresh := lt_irrefl FiStatus.fresh

theorem created_setupBy (lib : DateLib) (path : Bytes) (spattr : SpecialPurposeAttr)
    (file : Option Bytes) {read : Option Bytes} (hread : initFromFile head io = some read) :
    (created path spattr file).setupBy lib head io = some
      (match read.map (headFileOf lib) with
        | none => (inited path spattr file).adoptHead
        | some .garbled => (inited path spattr file).errorClean
        | some (.fields contLen date origin) =>
          ((inited path spattr file).withHead contLen date origin).adoptHead) := by
  rw [setupBy, if_neg (created_fresh path spattr file)]
  simp only [Acng.parseHeadFromStorage, hread, Option.map_some]
  cases read with
  | none => rfl
  | some buf =>
    simp only [parseHead_eq]
    cases hkind : headFileOf lib buf with
    | garbled => simp only [Option.map_some, hkind]; rfl
    | fields contLen date origin => simp only [Option.map_some, hkind]; rfl

theorem adoptHead_complete (hs : fi.status ≠ .complete) (h : fi.adoptHead.status = .complete) :
    0 ≤ fi.nContentLength ∧ fi.nSizeCachedInitial = fi.nContentLength := by
  unfold adoptHead at h
  simp only at h
  split at h
  · exact absurd h hs
  · split at h
    · cases h
    · split at h
      · rename_i hlen
        split at h
        · cases h
        · split at h
          · rename_i heq
            exact ⟨hlen, heq⟩
          · exact absurd h hs
      · exact absurd h hs

theorem adoptHead_unfinished (hv : fi.spattr.bVolatile = false) (hh : fi.spattr.bHeadOnly = false)
    (hu : fi.nContentLength < 0 ∨ fi.nSizeCachedInitial < fi.nContentLength) :
    fi.adoptHead.spattr.bVolatile = true ∧ fi.adoptHead.responseModDate = fi.responseModDate := by
  unfold adoptHead isVolatile
  simp only [hv, hh, Bool.false_eq_true, if_false]
  split
  · rw [if_neg (by omega), if_neg (by omega)]
    exact ⟨rfl, rfl⟩
  · exact ⟨rfl, rfl⟩

theorem adoptHead_headOnly (hv : fi.spattr.bVolatile = false) (hh : fi.spattr.bHeadOnly = true) :
    fi.adoptHead.spattr.bVolatile = false := by
  unfold adoptHead isVolatile
  simp only [hv, hh, Bool.false_eq_true, if_false, if_true]

/-- Without a head, an item that keeps its file is not decided about. -/
theorem unread_undecided (lib : DateLib) (path : Bytes) (spattr : SpecialPurposeAttr)
    (file : Option Bytes) (hnone : readHead lib head io = none) :
    ¬ DecidesByHead lib (created path spattr file) head io (inited path spattr file).adoptHead := by
  intro hdecides
  have hmust := (hdecides.discards (by simp [hnone])).replace
  have hlen : (inited path spattr file).nContentLength < 0 := show (-1 : Int) < 0 by decide
  rw [unread_kept _ hlen] at hmust
  cases hmust

theorem garbled_decided (path : Bytes) (spattr : SpecialPurposeAttr) (file : Option Bytes)
    {lib : DateLib} (hhead : readHead lib head io = some .garbled) :
    DecidesByHead lib (created path spattr file) head io (inited path spattr file).errorClean := by
  refine ⟨fun _ => errorClean_discarded _, fun hcomplete => ?_, fun _ _ _ _ hgood => ?_⟩
  · cases hcomplete
  · rw [hhead] at hgood
    cases hgood

/-- A good head decides about all items but those that need no more than their head. -/
theorem fields_decided_iff (path : Bytes) (spattr : SpecialPurposeAttr) (file : Option Bytes)
    {lib : DateLib} {contLen : Option Int} {date : Option HttpDate} {origin : Option Bytes}
    (hhead : readHead lib head io = some (.fields contLen date origin)) :
    DecidesByHead lib (created path spattr file) head io
        ((inited path spattr file).withHead contLen date origin).adoptHead ↔
      ¬ (spattr.bHeadOnly = true ∧ spattr.bVolatile = false ∧ Unfinished file contLen) := by
  constructor
  · rintro hdecides ⟨hheadOnly, hvolatile, hu⟩
    have hbecomes := (hdecides.revalidates hvolatile contLen date origin hhead hu).1
    rw [adoptHead_headOnly hvolatile hheadOnly] at hbecomes
    cases hbecomes
  · intro hno
    refine ⟨fun hnone => absurd hhead (hnone _ _ _), fun hcomplete => ?_,
      fun hvolatile contLen' date' origin' hsame hu => ?_⟩
    · obtain ⟨hlen, heq⟩ := adoptHead_complete (FiStatus.noConfusion ·) hcomplete
      change 0 ≤ contLen.getD (-1) at hlen
      change fileSize { file } = contLen.getD (-1) at heq
      cases contLen with
      | none => exact absurd hlen (by decide)
      | some n =>
        cases file with
        | none =>
          rw [← heq] at hlen
          exact absurd hlen (by decide)
        | some f => exact ⟨n, date, origin, f, hhead, rfl, heq.symm⟩
    · rw [hhead] at hsame
      cases hsame
      apply @adoptHead_unfinished ((inited path spattr file).withHead contLen date origin) hvolatile
      · rw [← Bool.not_eq_true]
        exact fun hheadOnly => hno ⟨hheadOnly, hvolatile, hu⟩
      · exact hu

/-- `Setup` decides by the stored head if and only if that can be read, apart from items that
need no more than their head. -/
theorem setupBy_decides_iff (lib : DateLib) (path : Bytes) (spattr : SpecialPurposeAttr)
    (file head : Option Bytes) (io : ReadIo) :
    (∃ t, (created path spattr file).setupBy lib head io = some t ∧
        DecidesByHead lib (created path spattr file) head io t) ↔
      ∃ buf, initFromFile head io = some (some buf) ∧
        ¬ (spattr.bHeadOnly = true ∧ spattr.bVolatile = false ∧ ∃ contLen date origin,
          headFileOf lib buf = .fields contLen date origin ∧ Unfinished file contLen) := by
  cases hread : initFromFile head io with
  | none =>
    refine iff_of_false ?_ ?_
    · rintro ⟨t, ht, -⟩
      rw [setupBy, if_neg (created_fresh path spattr file)] at ht
      simp only [Acng.parseHeadFromStorage, hread] at ht
      cases ht
    · rintro ⟨buf, hbuf, -⟩
      cases hbuf
  | some read =>
    have hhead : readHead lib head io = read.map (headFileOf lib) := by
      rw [readHead, hread]
      rfl
    rw [created_setupBy lib path spattr file hread]
    simp only [Option.some.injEq, exists_eq_left']
    cases read with
    | none =>
      refine iff_of_false (unread_undecided lib path spattr file hhead) ?_
      rintro ⟨buf, hbuf, -⟩
      cases hbuf
    | some buf =>
      simp only [Option.map_some, Option.some.injEq, exists_eq_left'] at hhead ⊢
      cases hkind : headFileOf lib buf with
      | garbled =>
        refine iff_of_true (garbled_decided path spattr file (hkind ▸ hhead)) ?_
        rintro ⟨-, -, contLen, date, origin, hno, -⟩
        cases hno
      | fields contLen date origin =>
        refine (fields_decided_iff path spattr file (hkind ▸ hhead)).trans (not_congr ?_)
        simp only [HeadFile.fields.injEq]
        constructor
        · rintro ⟨hheadOnly, hvolatile, hu⟩
          exact ⟨hheadOnly, hvolatile, contLen, date, origin, ⟨rfl, rfl, rfl⟩, hu⟩
        · rintro ⟨hheadOnly, hvolatile, contLen', date', origin', ⟨rfl, -, -⟩, hu⟩
          exact ⟨hheadOnly, hvolatile, hu⟩

theorem missing_head_kept :
    let t := (created (lit "a.deb") {} (some (lit "old"))).setupBy ⟨fun _ => none, id⟩ none
      ⟨true, true, 0, []⟩
    (t.map (·.status)) = some .inited ∧ (t.map (·.nSizeCachedInitial)) = some 3 ∧
      (t.map (·.bWriterMustReplaceFile)) = some false := by decide

end FileItem

end Acng
