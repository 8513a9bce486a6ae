import Acng.FileItem
import Mathlib.Tactic.Linarith

namespace Acng.FileItem
open Lib

/-- The contents that a successful `SafeOpenOutFile` starts from: those of the
present file, unless it has to make way for an empty one. -/
def keptFile (fi : FileItem) : Bytes :=
  if fi.bWriterMustReplaceFile || fi.nContentLength < 0 ||
      fi.nContentLength < (fi.disk.file.getD []).length then []
  else fi.disk.file.getD []

/-- The item after a successful `SafeOpenOutFile`. -/
def opened (fi : FileItem) : FileItem :=
  { fi with
    disk := {
      file := some fi.keptFile
      head := some (.fields (if 0 ≤ fi.nContentLength then some fi.nContentLength else none)
        ((some fi.responseModDate).filter HttpDate.isSet)
        (if fi.responseOrigin.isEmpty then none else some fi.responseOrigin)) }
    filefd := some fi.nSizeChecked.toNat
    nSizeChecked := max 0 fi.nSizeChecked
    bWriterMustReplaceFile := false
    status := .dlReceiving }

theorem startWriting_ok (fi : FileItem) (io : StoreIo) (size : Int) (hio : io.head = .stored)
    (h : max 0 fi.nSizeChecked ≤ size) :
    fi.startWriting io size =
      (true, { fi with
        disk := { fi.disk with
          head := some (.fields (if 0 ≤ fi.nContentLength then some fi.nContentLength else none)
            ((some fi.responseModDate).filter HttpDate.isSet)
            (if fi.responseOrigin.isEmpty then none else some fi.responseOrigin)) }
        filefd := some fi.nSizeChecked.toNat
        nSizeChecked := max 0 fi.nSizeChecked
        status := .dlReceiving }) := by
  unfold startWriting
  by_cases hn : fi.nSizeChecked < 0
  · have hm : max 0 fi.nSizeChecked = 0 := by omega
    have ht : fi.nSizeChecked.toNat = 0 := by omega
    have hs : ¬ (0 : Int) > size := by omega
    simp [hn, hm, ht, hs, hio, saveHeader, storeHead]
  · have hm : max 0 fi.nSizeChecked = fi.nSizeChecked := by omega
    have hs : ¬ fi.nSizeChecked > size := by omega
    simp [hn, hm, hs, hio, saveHeader, storeHead]

theorem safeOpenOutFile_opened (fi : FileItem) (hns : fi.spattr.bNoStore = false)
    (h : max 0 fi.nSizeChecked ≤ fi.keptFile.length) :
    fi.safeOpenOutFile {} = (true, fi.opened) := by
  unfold safeOpenOutFile
  simp only [hns, Bool.false_eq_true, if_false, Bool.not_true]
  by_cases ho : (fi.bWriterMustReplaceFile || decide (fi.nContentLength < 0)) = true
  · have hk : fi.keptFile = [] := by simp [keptFile, ho]
    rw [hk] at h
    simp only [obtainFd, ho, if_true, replaceFile, Bool.not_true, Bool.false_eq_true, if_false,
      Option.isNone_some, fileSize, List.length_nil]
    by_cases hl : (0 : Int) > fi.nContentLength
    · rw [if_pos (by simpa using hl), startWriting_ok _ _ _ rfl (by simpa using h)]
      simp [opened, hk]
    · rw [if_neg (by simpa using hl), startWriting_ok _ _ _ rfl (by simpa using h)]
      simp [opened, hk]
  · simp only [obtainFd, ho, if_false, openFile, if_true, Bool.not_true, Bool.false_eq_true,
      Option.isNone_some, Option.isNone_none, fileSize]
    have hr : fi.bWriterMustReplaceFile = false := by
      simp only [Bool.or_eq_true, not_or, Bool.not_eq_true] at ho
      exact ho.1
    by_cases hl : fi.nContentLength < (fi.disk.file.getD []).length
    · have hk : fi.keptFile = [] := by simp [keptFile, hl]
      rw [hk] at h
      simp only [gt_iff_lt, hl, if_true, replaceFile, Bool.not_true, Bool.false_eq_true, if_false]
      rw [startWriting_ok _ _ _ rfl (by simpa using h)]
      simp [opened, hk]
    · have hk : fi.keptFile = fi.disk.file.getD [] := by
        simp only [keptFile, ho, hl, Bool.false_or, decide_false, Bool.false_eq_true, if_false]
      rw [hk] at h
      simp only [gt_iff_lt, hl, if_false]
      rw [startWriting_ok _ _ _ rfl (by simpa using h)]
      simp [opened, hk, hr]

/-- The item takes data: its file is open at a position inside it, or will be
opened at one. -/
def Ready (fi : FileItem) : Prop :=
  .dlGotHead ≤ fi.status ∧ fi.status ≤ .complete ∧
    match fi.filefd with
    | some pos => ∃ f, fi.disk.file = some f ∧ pos ≤ f.length
    | none => fi.spattr.bNoStore = false ∧ max 0 fi.nSizeChecked ≤ fi.keptFile.length

/-- The item with its data file open. -/
def ensureOpen (fi : FileItem) : FileItem := if fi.filefd.isNone then fi.opened else fi

theorem ensureOpen_file (fi : FileItem) (h : fi.Ready) :
    ∃ f pos, fi.ensureOpen.disk.file = some f ∧ fi.ensureOpen.filefd = some pos ∧
      pos ≤ f.length ∧ .dlGotHead ≤ fi.ensureOpen.status ∧ fi.ensureOpen.status ≤ .complete := by
  obtain ⟨h1, h2, h3⟩ := h
  cases hf : fi.filefd with
  | some pos =>
    rw [hf] at h3
    obtain ⟨f, hd, hp⟩ := h3
    have he : fi.ensureOpen = fi := by simp [ensureOpen, hf]
    rw [he]
    exact ⟨f, pos, hd, hf, hp, h1, h2⟩
  | none =>
    rw [hf] at h3
    have he : fi.ensureOpen = fi.opened := by simp [ensureOpen, hf]
    have hs : fi.opened.status = .dlReceiving := rfl
    rw [he, hs]
    exact ⟨fi.keptFile, fi.nSizeChecked.toNat, rfl, rfl, by omega, by decide, by decide⟩

theorem dlAddData_ready (fi : FileItem) (chunk : Bytes) (h : fi.Ready) (pos : Nat)
    (hp : fi.ensureOpen.filefd = some pos) :
    fi.dlAddData chunk =
      (true, { fi.ensureOpen.writeChunk pos chunk with
        nIncommingCount := fi.nIncommingCount + chunk.length }) := by
  obtain ⟨h1, h2, h3⟩ := h
  cases hf : fi.filefd with
  | some q =>
    have he : fi.ensureOpen = fi := by simp [ensureOpen, hf]
    obtain rfl : q = pos := by rw [he, hf] at hp; exact Option.some.inj hp
    unfold dlAddData
    simp only [hf, Option.isNone_some, Bool.false_eq_true, if_false, Bool.not_true, he]
    rw [if_neg (not_lt.mpr h1), if_neg (not_lt.mpr h2)]
    rfl
  | none =>
    rw [hf] at h3
    have he : fi.ensureOpen = fi.opened := by simp [ensureOpen, hf]
    obtain rfl : fi.nSizeChecked.toNat = pos := by rw [he] at hp; exact Option.some.inj hp
    have ho := safeOpenOutFile_opened
      { fi with nIncommingCount := fi.nIncommingCount + chunk.length } h3.1 h3.2
    simp only [hf] at ho
    unfold dlAddData
    simp only [hf, Option.isNone_none, if_true, ho, Bool.not_true, Bool.false_eq_true, if_false, he]
    rfl

theorem writeAt_append (f : Bytes) (pos : Nat) (a b : Bytes) (h : pos ≤ f.length) :
    writeAt (writeAt f pos a) (pos + a.length) b = writeAt f pos (a ++ b) := by
  unfold writeAt
  have hl : (f.take pos ++ a).length = pos + a.length := by simp [h]
  have ht : (f.take pos ++ a ++ f.drop (pos + a.length)).take (pos + a.length) = f.take pos ++ a := by
    rw [← hl, List.take_left]
  have hd : (f.take pos ++ a ++ f.drop (pos + a.length)).drop (pos + a.length + b.length) =
      f.drop (pos + (a ++ b).length) := by
    rw [List.drop_append, List.drop_eq_nil_of_le (by omega), List.nil_append, List.drop_drop]
    congr 1
    simp only [List.length_append] at hl ⊢
    omega
  rw [ht, hd]
  simp

theorem dlAddData_keeps_ready (fi : FileItem) (chunk : Bytes) (h : fi.Ready) :
    (fi.dlAddData chunk).2.Ready := by
  obtain ⟨f, pos, hd, hp, hl, h1, h2⟩ := ensureOpen_file fi h
  rw [dlAddData_ready fi chunk h pos hp]
  refine ⟨h1, h2, ?_⟩
  simp only [writeChunk, hd, Option.map_some]
  refine ⟨writeAt f pos chunk, rfl, ?_⟩
  simp only [writeAt, List.length_append, List.length_take]
  omega

/-- Data delivered in pieces is data delivered at once. -/
theorem dlAddData_append (fi : FileItem) (a b : Bytes) (h : fi.Ready) :
    (fi.dlAddData a).2.dlAddData b = fi.dlAddData (a ++ b) := by
  obtain ⟨f, pos, hd, hp, hl, -, -⟩ := ensureOpen_file fi h
  have hr := dlAddData_keeps_ready fi a h
  have hab := dlAddData_ready fi (a ++ b) h pos hp
  have ha := dlAddData_ready fi a h pos hp
  rw [ha] at hr ⊢
  rw [hab, dlAddData_ready _ b hr (pos + a.length) rfl]
  have he : ∀ g : FileItem, g.filefd = some (pos + a.length) → g.ensureOpen = g := by
    intro g hg
    simp [ensureOpen, hg]
  rw [he _ rfl]
  simp only [writeChunk, hd, Option.map_some, writeAt_append f pos a b hl, List.length_append,
    Nat.add_assoc, Int.natCast_add, Int.add_assoc]

theorem saveHeader_frame (fi : FileItem) (onlyOrigin : Bool) (io : HeadIo) :
    ∃ head, (fi.saveHeader onlyOrigin io).2 = { fi with disk := { fi.disk with head := head } } := by
  unfold saveHeader
  cases onlyOrigin <;> cases io <;> exact ⟨_, rfl⟩

/-- `DlFinish` touches the status, the length and the head file only. -/
theorem dlFinish_frame (fi : FileItem) (force : Bool) (io : HeadIo) :
    ∃ status len head, fi.dlFinish force io =
      { fi with status := status, nContentLength := len, disk := { fi.disk with head := head } } := by
  unfold dlFinish
  split
  · exact ⟨_, _, _, rfl⟩
  · split
    · exact ⟨_, _, _, rfl⟩
    · simp only
      split
      · split
        · obtain ⟨head, hh⟩ := saveHeader_frame (fixLength { fi with status := .complete }) false io
          exact ⟨_, _, head, hh⟩
        · exact ⟨_, _, _, rfl⟩
      · exact ⟨_, _, _, rfl⟩

theorem dlFinish_status (fi : FileItem) (force : Bool) (io : HeadIo)
    (hn : fi.spattr.bNoStore = false) :
    (fi.dlFinish force io).status = max fi.status .complete := by
  have hsave : ∀ g : FileItem, (g.saveHeader false io).2.status = g.status := by
    intro g
    obtain ⟨head, he⟩ := g.saveHeader_frame false io
    rw [he]
  unfold dlFinish
  simp only [hn, Bool.false_eq_true, if_false]
  split
  · rename_i h
    exact (max_eq_left h.le).symm
  · rename_i h
    rw [max_eq_right (not_lt.mp h)]
    split
    · split
      · exact hsave _
      · rfl
    · rfl

theorem dlAddData_ok (fi : FileItem) (chunk : Bytes) (h : fi.Ready) :
    (fi.dlAddData chunk).1 = true := by
  obtain ⟨f, pos, -, hp, -⟩ := ensureOpen_file fi h
  rw [dlAddData_ready fi chunk h pos hp]

/-- What `DlStarted` records on an item that nobody works on. -/
def started (fi : FileItem) (raw : Nat) (modDate : HttpDate) (origin : Bytes)
    (status : RemoteStatus) (seek announced : Int) : FileItem :=
  { fi with
    nIncommingCount := fi.nIncommingCount + raw, status := .dlGotHead
    nSizeChecked := if 0 ≤ seek then seek else fi.nSizeChecked
    responseStatus := status, responseOrigin := origin, responseModDate := modDate
    nContentLength := announced }

theorem dlStarted_free (lib : DateLib) (fi : FileItem) (raw : Nat) (modDate : HttpDate)
    (origin : Bytes) (status : RemoteStatus) (seek announced : Int) (hs : fi.status ≤ .dlPending)
    (hn : fi.nSizeChecked ≤ 0) :
    fi.dlStarted lib raw modDate origin status seek announced =
      (true, fi.started raw modDate origin status seek announced) := by
  have hlt : ¬ FiStatus.dlGotHead ≤ fi.status := not_le.mpr (lt_of_le_of_lt hs (by decide))
  have hseek : (decide (0 ≤ seek) && (decide (0 ≤ fi.nSizeChecked) && decide (seek < fi.nSizeChecked)))
      = false := by
    rw [Bool.eq_false_iff]
    simp only [ne_eq, Bool.and_eq_true, decide_eq_true_eq]
    omega
  unfold dlStarted started
  simp only [hlt, decide_false, Bool.false_and, Bool.false_eq_true, if_false, hseek]

/-- What a call of `Setup` leaves alone, whatever it finds in the storage. -/
structure SetUp (fi fi' : FileItem) : Prop where
  refs : fi'.nDlRefsCount = fi.nDlRefsCount
  started : fi'.nTimeDlStarted = fi.nTimeDlStarted
  attr : fi'.spattr = fi.spattr ∨
    fi.spattr.bVolatile = false ∧ fi'.spattr = { fi.spattr with bVolatile := true }

theorem setup_setUp (fi : FileItem) : SetUp fi fi.setup := by
  have hturned : ∀ b : Bool, ¬ b = true → b = false := fun _ => Bool.eq_false_of_not_eq_true
  unfold setup
  split
  · exact ⟨rfl, rfl, .inl rfl⟩
  · simp only [parseHeadFromStorage]
    cases fi.disk.head with
    | none =>
      simp only [errorClean, isVolatile]
      split_ifs with hv
      all_goals first
        | exact ⟨rfl, rfl, .inl rfl⟩
        | exact ⟨rfl, rfl, .inr ⟨hturned _ hv, rfl⟩⟩
    | some h =>
      cases h with
      | garbled => exact ⟨rfl, rfl, .inl rfl⟩
      | fields contLen lastModified origSrc =>
        simp only [errorClean, isVolatile]
        split_ifs with hv
        all_goals first
          | exact ⟨rfl, rfl, .inl rfl⟩
          | exact ⟨rfl, rfl, .inr ⟨hturned _ hv, rfl⟩⟩

theorem setup_begun (fi : FileItem) (h : .fresh < fi.status) : fi.setup = fi := by
  unfold setup
  rw [if_pos h]

theorem setup_attr (fi : FileItem) : fi.setup.spattr.bHeadOnly = fi.spattr.bHeadOnly ∧
    fi.setup.spattr.bNoStore = fi.spattr.bNoStore := by
  obtain ha | ⟨-, ha⟩ := (setup_setUp fi).attr
  · rw [ha]
    exact ⟨rfl, rfl⟩
  · rw [ha]
    exact ⟨rfl, rfl⟩

end Acng.FileItem
