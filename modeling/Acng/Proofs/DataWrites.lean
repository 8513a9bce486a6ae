import Acng.Proofs.Publication

namespace Acng
open Lib

/-- Writes that follow each other in a file. -/
def Consecutive (pos : Int) : List (Nat × Bytes) → Prop
  | [] => True
  | w :: ws => (w.1 : Int) = pos ∧ Consecutive (pos + w.2.length) ws

def WriteResult.isInterrupted : WriteResult → Bool
  | .interrupted _ => true
  | _ => false

/-- How many of the calls were interrupted. -/
def interruptions (ws : List WriteResult) : Nat := ws.countP WriteResult.isInterrupted

@[simp] theorem interruptions_wrote (n : Nat) (ws : List WriteResult) :
    interruptions (.wrote n :: ws) = interruptions ws := by
  simp [interruptions, WriteResult.isInterrupted]

@[simp] theorem interruptions_interrupted (front : UInt8) (ws : List WriteResult) :
    interruptions (.interrupted front :: ws) = interruptions ws + 1 := List.countP_cons_of_pos rfl

theorem interruptions_eq_zero {ws : List WriteResult} :
    interruptions ws = 0 ↔ ∀ w ∈ ws, w.isInterrupted = false := by
  simp only [interruptions, List.countP_eq_zero, Bool.not_eq_true]

/-- What the calls of `write` in the loop have put where. -/
def writeLog (pos : Nat) (chunk : Bytes) : List WriteResult → List (Nat × Bytes)
  | [] => []
  | .wrote n :: ws => (pos, chunk.take n) :: writeLog (pos + n) (chunk.drop n) ws
  | .interrupted front :: ws => writeLog pos (front :: chunk) ws
  | .failed :: ws => writeLog pos chunk ws

namespace FileItem

variable {fi t : FileItem} {chunk : Bytes} {io : StoreIo} {ws : List WriteResult}

/-- The size that the data are added to: none is known before the file is opened. -/
def sizeBefore (fi : FileItem) : Int :=
  if fi.filefd.isNone then max 0 fi.nSizeChecked else fi.nSizeChecked

/-- The open descriptor stands where the checked data end. -/
def AtSize (fi : FileItem) : Prop := ∀ pos ∈ fi.filefd, (pos : Int) = fi.nSizeChecked

/-- `SafeOpenOutFile` does not change a known size. -/
def SizeFrom (fi fi' : FileItem) : Prop :=
  fi'.nSizeChecked = fi.nSizeChecked ∨ fi.nSizeChecked < 0 ∧ fi'.nSizeChecked = 0

theorem sizeFrom_open : OpenRel SizeFrom where
  refl _ := .inl rfl
  trans h g := by
    unfold SizeFrom at *
    omega
  files _ _ _ _ := .inl rfl
  zero _ h := .inr ⟨h, rfl⟩
  receiving _ := .inl rfl
  error _ _ _ := .inl rfl

theorem safeOpenOutFile_stands (h : (fi.safeOpenOutFile io).1 = true) :
    (fi.safeOpenOutFile io).2.filefd = some (max 0 fi.nSizeChecked).toNat ∧
      (fi.safeOpenOutFile io).2.nSizeChecked = max 0 fi.nSizeChecked := by
  rcases safeOpenOutFile_status fi io with ⟨hno, -⟩ | hopened
  · rw [h] at hno
    cases hno
  · obtain ⟨-, hfd, hpos⟩ := hopened.opened h
    have hsize : (fi.safeOpenOutFile io).2.nSizeChecked = max 0 fi.nSizeChecked := by
      rcases safeOpenOutFile_rel sizeFrom_open fi io with heq | ⟨hneg, hzero⟩
      · omega
      · omega
    rw [hfd, hsize]
    exact ⟨rfl, rfl⟩

theorem dlAddDataBy_reached {r : Bool × FileItem} (h : fi.dlAddDataBy chunk io ws = some r) :
    (r.1 = false ∧ ws = []) ∨
      ∃ pos, (fi.readied chunk io).filefd = some pos ∧
        (fi.readied chunk io).nSizeChecked = fi.sizeBefore ∧
        (pos = fi.sizeBefore ↔ fi.AtSize) ∧
        (fi.readied chunk io).writeLoop pos chunk ws = some r := by
  rcases dlAddDataBy_readied h with ⟨hws, hfail, -, -⟩ | ⟨hopened, pos, hfd, hloop⟩
  · exact .inl ⟨hfail, hws⟩
  · cases hn : fi.filefd with
    | none =>
      obtain ⟨hstands, hsize⟩ := safeOpenOutFile_stands (hopened hn)
      have hbefore : fi.sizeBefore = max 0 fi.nSizeChecked := by rw [sizeBefore, hn]; rfl
      have hready : fi.readied chunk io = ((fi.receives chunk).safeOpenOutFile io).2 := by
        rw [readied, hn]
        rfl
      rw [← hready] at hstands hsize
      obtain rfl := Option.some.inj (hfd.symm.trans hstands)
      refine .inr ⟨_, hfd, hsize.trans hbefore.symm, iff_of_true ?_ ?_, hloop⟩
      · rw [hbefore]
        exact Int.toNat_of_nonneg (le_max_left 0 _)
      · rw [AtSize, hn]
        simp
    | some p =>
      have hbefore : fi.sizeBefore = fi.nSizeChecked := by rw [sizeBefore, hn]; rfl
      have hready : fi.readied chunk io = fi.receives chunk := by rw [readied, hn]; rfl
      obtain rfl : pos = p := by
        rw [hready] at hfd
        exact Option.some.inj (hfd.symm.trans hn)
      refine .inr ⟨pos, hfd, by rw [hready, hbefore]; rfl, ?_, hloop⟩
      rw [hbefore, AtSize, hn]
      simp only [Option.mem_some_iff, forall_eq']

/-- What the loop leaves is what its calls have written, one behind the other. -/
structure Logged (fi : FileItem) (pos : Nat) (chunk : Bytes) (ws : List WriteResult)
    (r : Bool × FileItem) : Prop where
  file : r.2.disk.file = fi.disk.file.map
    (fun f => (writeLog pos chunk ws).foldl (fun f w => writeAt f w.1 w.2) f)
  place : Consecutive pos (writeLog pos chunk ws)
  size : r.2.nSizeChecked = fi.nSizeChecked + ((writeLog pos chunk ws).flatMap Prod.snd).length -
    interruptions ws
  all : r.1 = true → ((writeLog pos chunk ws).flatMap Prod.snd).length =
    chunk.length + interruptions ws
  once : r.1 = true → interruptions ws = 0 →
    (writeLog pos chunk ws).flatMap Prod.snd = chunk
  stands : fi.filefd = some pos →
    r.2.filefd = some (pos + ((writeLog pos chunk ws).flatMap Prod.snd).length)

theorem writeLoop_logged {pos : Nat} {r : Bool × FileItem} (h : fi.writeLoop pos chunk ws = some r) :
    Logged fi pos chunk ws r := by
  induction ws generalizing fi pos chunk with
  | nil =>
    rw [writeLoop] at h
    split at h
    · rename_i he
      obtain rfl := Option.some.inj h
      rw [List.isEmpty_iff.mp he]
      exact ⟨by simp [writeLog], trivial, by simp [writeLog, interruptions], fun _ => rfl,
        fun _ _ => rfl, id⟩
    · cases h
  | cons w ws ih =>
    rw [writeLoop.eq_def] at h
    simp only at h
    split at h
    · cases h
    · cases w with
      | wrote n =>
        simp only at h
        split at h
        · rename_i hn
          have htake : (chunk.take n).length = n := List.length_take_of_le hn
          obtain ⟨hfile, hplace, hsize, hall, honce, hstands⟩ := ih h
          refine ⟨?_, ⟨rfl, ?_⟩, ?_, fun hok => ?_, fun hok hno => ?_, fun _ => ?_⟩
          · rw [hfile, writeChunk, writeLog, Option.map_map]
            rfl
          · rw [htake]
            exact_mod_cast hplace
          · rw [hsize, writeChunk, writeLog, List.flatMap_cons, List.length_append, htake,
              interruptions_wrote]
            push_cast
            omega
          · rw [writeLog, List.flatMap_cons, List.length_append, htake, hall hok, List.length_drop,
              interruptions_wrote]
            omega
          · rw [interruptions_wrote] at hno
            rw [writeLog, List.flatMap_cons, honce hok hno, List.take_append_drop]
          · rw [hstands (by rw [writeChunk, htake]), writeLog, List.flatMap_cons, List.length_append,
              htake, Nat.add_assoc]
        · cases h
      | interrupted front =>
        obtain ⟨hfile, hplace, hsize, hall, -, hstands⟩ := ih h
        refine ⟨hfile, hplace, ?_, fun hok => ?_, fun _ hno => ?_, hstands⟩
        · rw [hsize, writeLog, interruptions_interrupted]
          push_cast
          omega
        · rw [writeLog, hall hok, List.length_cons, interruptions_interrupted]
          omega
        · rw [interruptions_interrupted] at hno
          cases hno
      | failed =>
        simp only at h
        split at h
        · rename_i he
          obtain rfl := Option.some.inj h
          rw [List.isEmpty_iff.mp he]
          refine ⟨?_, trivial, ?_, fun hok => Bool.noConfusion hok, fun hok => Bool.noConfusion hok, id⟩
          · simp [writeLog, withError, dlSetError]
          · simp [writeLog, withError, dlSetError, interruptions, WriteResult.isInterrupted]
        · cases h

/-- A call of `DlAddData` that succeeds. -/
def added (fi : FileItem) (call : Bytes × StoreIo × List WriteResult) : Option FileItem :=
  (fi.dlAddDataBy call.1 call.2.1 call.2.2).bind (fun r => if r.1 then some r.2 else none)

theorem added_atSize {call : Bytes × StoreIo × List WriteResult} (h : fi.added call = some t)
    (hat : fi.AtSize) (hno : ∀ w ∈ call.2.2, w.isInterrupted = false) : t.AtSize := by
  obtain ⟨r, hr, hok⟩ := Option.bind_eq_some_iff.mp h
  split at hok
  · rename_i hsuccess
    obtain rfl := Option.some.inj hok
    rcases dlAddDataBy_reached hr with ⟨hfail, -⟩ | ⟨pos, hfd, hsize, hpos, hloop⟩
    · rw [hsuccess] at hfail
      cases hfail
    · obtain ⟨-, -, hchecked, -, -, hstands⟩ := writeLoop_logged hloop
      rw [hsize, ← hpos.mpr hat, interruptions_eq_zero.mpr hno] at hchecked
      intro p hp
      rw [hstands hfd] at hp
      obtain rfl := Option.some.inj hp
      omega
  · cases hok

/-- Along a stream of chunks the position does not get lost, unless a `write` is interrupted. -/
theorem stream_atSize {calls : List (Bytes × StoreIo × List WriteResult)}
    (h : runs added fi calls = some t) (hat : fi.AtSize)
    (hno : ∀ call ∈ calls, ∀ w ∈ call.2.2, w.isInterrupted = false) : t.AtSize := by
  induction calls generalizing fi with
  | nil =>
    obtain rfl := Option.some.inj h
    exact hat
  | cons call calls ih =>
    obtain ⟨m, hcall, hrest⟩ := runs_cons.mp h
    apply ih hrest
    · exact added_atSize hcall hat (hno call List.mem_cons_self)
    · exact fun c hc => hno c (List.mem_cons_of_mem call hc)

end FileItem

end Acng
