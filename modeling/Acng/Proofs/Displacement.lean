import Acng.Proofs.Decimal
import Acng.Displacement
import Acng.Lib.Paths
import Acng.Lib.Scan

namespace Acng
open Lib

theorem cstr_of_not_mem (x : Bytes) (h : (0 : UInt8) ∉ x) : cstr x = x := by
  simpa [cstr] using cstr_append x [] h

theorem resolve_slash (d x : Bytes) (hd : (0 : UInt8) ∉ d) (hx : (0 : UInt8) ∉ x) :
    resolve (d ++ 47 :: x) = resolve d ++ resolve x := by
  have h : (0 : UInt8) ∉ d ++ 47 :: x := by simp [hd, hx]
  simp only [resolve, cstr_of_not_mem _ h, cstr_of_not_mem _ hd, cstr_of_not_mem _ hx,
    List.splitOn_append_cons_self, List.filter_append]

/-- Without a slash there is one component, if any. -/
theorem mem_resolve_name (x w : Bytes) (h0 : (0 : UInt8) ∉ x) (h : (47 : UInt8) ∉ x) (hw : w ∈ resolve x) :
    w = x := by
  rw [resolve, cstr_of_not_mem x h0, List.splitOn_eq_singleton h] at hw
  exact List.mem_singleton.mp (List.mem_of_mem_filter hw)

theorem resolve_name (x : Bytes) (h0 : (0 : UInt8) ∉ x) (h : (47 : UInt8) ∉ x) (hne : x ≠ [])
    (hdot : x ≠ [46]) : resolve x = [x] := by
  rw [resolve, cstr_of_not_mem x h0, List.splitOn_eq_singleton h]
  simp [hne, hdot]

theorem dirPart_slash (d b : Bytes) (hb : (47 : UInt8) ∉ b) : dirPart (d ++ 47 :: b) = d ++ [47] := by
  have hidx : (d ++ 47 :: b).reverse.idxOf? 47 = some b.length := by
    have hnone : b.reverse.findIdx? (· == 47) = none := by
      rw [List.findIdx?_eq_none_iff]
      intro c hc
      rw [beq_eq_false_iff_ne]
      rintro rfl
      exact hb (List.mem_reverse.mp hc)
    rw [List.reverse_append, List.reverse_cons, List.append_assoc, List.singleton_append, List.idxOf?,
      List.findIdx?_append, hnone, List.findIdx?_cons]
    simp
  rw [dirPart, rfind, hidx]
  have hlen : (d ++ 47 :: b).length - 1 - b.length = d.length := by
    simp only [List.length_append, List.length_cons]
    omega
  simp only [Option.map_some, hlen]
  rw [show d ++ 47 :: b = (d ++ [47]) ++ b by simp]
  exact List.take_left' (by simp)

theorem dirPart_name (b : Bytes) (hb : (47 : UInt8) ∉ b) : dirPart b = [] := by
  have hidx : b.reverse.idxOf? 47 = none := by
    rw [List.idxOf?_eq_none_iff]
    simpa using hb
  rw [dirPart, rfind, hidx]
  rfl

/-- A path in the components of its directory and a last name. -/
theorem resolve_parts (p : Bytes) (h0 : (0 : UInt8) ∉ p) :
    ∃ c b, (0 : UInt8) ∉ b ∧ (47 : UInt8) ∉ b ∧
      (∀ x, (0 : UInt8) ∉ x → resolve (p ++ x) = c ++ resolve (b ++ x)) ∧
      (∀ y, (0 : UInt8) ∉ y → resolve (dirPart p ++ y) = c ++ resolve y) := by
  by_cases hs : (47 : UInt8) ∈ p
  · obtain ⟨d, b, rfl, hb⟩ := eq_append_cons_last hs
    simp only [List.mem_append, List.mem_cons, not_or] at h0
    obtain ⟨hd, -, hb0⟩ := h0
    refine ⟨resolve d, b, hb0, hb, ?_, ?_⟩
    · intro x hx
      rw [List.append_assoc, List.cons_append, resolve_slash d _ hd (by simp [hb0, hx])]
    · intro y hy
      rw [dirPart_slash d b hb, List.append_assoc, List.singleton_append, resolve_slash d y hd hy]
  · refine ⟨[], p, h0, hs, fun x _ => rfl, fun y _ => ?_⟩
    rw [dirPart_name p hs]
    rfl

/-- The names that an item uses: its data, its head, and temporary files next to them. -/
inductive Own (base rel : Bytes) : List Bytes → Prop
  | data : Own base rel (resolve (base ++ rel))
  | head : Own base rel (resolve (base ++ rel ++ lit ".head"))
  | tmp (rand : Nat → Nat) (k : Nat) : Own base rel (resolve (tmpName (base ++ rel) rand k))

theorem digit_ne (c : UInt8) (h : isdigit c = true) : c ≠ 0 ∧ c ≠ 45 ∧ c ≠ 46 ∧ c ≠ 47 ∧ c ≠ 104 := by
  refine ⟨?_, ?_, ?_, ?_, ?_⟩ <;> rintro rfl <;> cases h

theorem stamp_bytes (now : Int) (z : UInt8) (hz : z ∈ lit "." ++ dec now) : z ≠ 0 ∧ z ≠ 47 ∧ z ≠ 104 := by
  rcases List.mem_append.mp hz with hz | hz
  · obtain rfl : z = 46 := by simpa [lit] using hz
    decide
  · rcases dec_bytes now z hz with rfl | hz
    · decide
    · have := digit_ne z hz
      exact ⟨this.1, this.2.2.2.1, this.2.2.2.2⟩

section
variable {b : Bytes} (now : Int) (hb0 : (0 : UInt8) ∉ b) (hb : (47 : UInt8) ∉ b)
include hb0 hb

theorem resolve_stamped : resolve (b ++ (lit "." ++ dec now)) = [b ++ (lit "." ++ dec now)] := by
  have hz0 : (0 : UInt8) ∉ lit "." ++ dec now := fun h => (stamp_bytes now 0 h).1 rfl
  have hz47 : (47 : UInt8) ∉ lit "." ++ dec now := fun h => (stamp_bytes now 47 h).2.1 rfl
  refine resolve_name _ (by simp [hb0, hz0]) (by simp [hb, hz47]) (by simp [lit]) ?_
  intro hdot
  have hlen := congrArg List.length hdot
  have hpos := List.length_pos_iff.mpr (dec_ne_nil now)
  have h1 : (lit ".").length = 1 := rfl
  simp only [List.length_append, List.length_singleton, h1] at hlen
  omega

theorem stamped_not_data : b ++ (lit "." ++ dec now) ∉ resolve b := by
  intro hmem
  have := mem_resolve_name b _ hb0 hb hmem
  simp [lit] at this

theorem stamped_not_head : b ++ (lit "." ++ dec now) ∉ resolve (b ++ lit ".head") := by
  intro hmem
  have he := mem_resolve_name (b ++ lit ".head") _ (by simp [hb0]; decide) (by simp [hb]; decide) hmem
  have hhead : lit "." ++ dec now = lit ".head" := List.append_cancel_left he
  exact (stamp_bytes now 104 (by rw [hhead]; decide)).2.2 rfl

end

theorem stamped_not_tmp (b : Bytes) (now : Int) (ds : Bytes) (hds : ∀ z ∈ ds, isdigit z = true) :
    b ++ (lit "." ++ dec now) ∉ resolve ([46] ++ 47 :: ds) := by
  have hd0 : (0 : UInt8) ∉ ds := fun h => (digit_ne 0 (hds 0 h)).1 rfl
  have hd47 : (47 : UInt8) ∉ ds := fun h => (digit_ne 47 (hds 47 h)).2.2.2.1 rfl
  have hdir : resolve [46] = [] := by decide
  rw [resolve_slash [46] ds (by decide) hd0, hdir, List.nil_append]
  intro hmem
  have he := mem_resolve_name ds _ hd0 hd47 hmem
  have hdot : (46 : UInt8) ∈ ds := by
    rw [← he]
    simp [lit]
  exact (digit_ne 46 (hds 46 hdot)).2.2.1 rfl

/-- The name of a temporary file has digits only. -/
theorem tmpName_digits (p : Bytes) (rand : Nat → Nat) (k : Nat) :
    ∃ ds, (∀ z ∈ ds, isdigit z = true) ∧ tmpName p rand k = dirPart p ++ ([46] ++ 47 :: ds) := by
  refine ⟨dec (rand k) ++ dec (rand (k + 1)) ++ dec (rand (k + 2)), ?_, ?_⟩
  · intro z hz
    simp only [List.mem_append] at hz
    rcases hz with (hz | hz) | hz
    · exact dec_digits _ z hz
    · exact dec_digits _ z hz
    · exact dec_digits _ z hz
  · simp only [tmpName, List.append_assoc]
    rfl

/-- The new name of a displaced file is none that the item in its place uses. -/
theorem moved_not_own (base rel : Bytes) (now : Int) (h0 : (0 : UInt8) ∉ base ++ rel) :
    ¬ Own base rel (resolve (base ++ (rel ++ lit "." ++ dec now))) := by
  obtain ⟨c, b, hb0, hb, hx, hy⟩ := resolve_parts (base ++ rel) h0
  have hmoved : resolve (base ++ (rel ++ lit "." ++ dec now)) = c ++ [b ++ (lit "." ++ dec now)] := by
    have he : base ++ (rel ++ lit "." ++ dec now) = base ++ rel ++ (lit "." ++ dec now) := by
      simp only [List.append_assoc]
    rw [he, hx _ (fun h => (stamp_bytes now 0 h).1 rfl), resolve_stamped now hb0 hb]
  -- all names of the item are in the same directory, so the last components differ
  have hlast : ∀ r, c ++ [b ++ (lit "." ++ dec now)] = c ++ r → b ++ (lit "." ++ dec now) ∈ r := by
    intro r he
    rw [← List.append_cancel_left he]
    exact List.mem_singleton_self _
  rw [hmoved]
  generalize hq : c ++ [b ++ (lit "." ++ dec now)] = q
  intro hown
  cases hown with
  | data =>
    have h := hx [] (by simp)
    rw [List.append_nil, List.append_nil] at h
    rw [h] at hq
    exact stamped_not_data now hb0 hb (hlast _ hq)
  | head =>
    rw [hx _ (by decide)] at hq
    exact stamped_not_head now hb0 hb (hlast _ hq)
  | tmp rand k =>
    obtain ⟨ds, hds, htmp⟩ := tmpName_digits (base ++ rel) rand k
    have hd0 : (0 : UInt8) ∉ ds := fun h => (digit_ne 0 (hds 0 h)).1 rfl
    rw [htmp, hy _ (by simp [hd0])] at hq
    exact stamped_not_tmp b now ds hds (hlast _ hq)

/-- An item at its path leaves a name and a file alone: none of its names is this one, and none
of its files. -/
structure Spares (base rel : Bytes) (r : List Bytes) (x : Option Nat) (m : Nat) (v : Bytes) (fs : Cache)
    (it : StoredItem) : Prop where
  path : it.fi.sPathRel = rel
  files : fs.Apart (Own base rel) r x m v
  fd : ∀ i pos, it.filefd = some (i, pos) → i ≠ m

section
variable {base rel : Bytes} {r : List Bytes} {x : Option Nat} {m : Nat} {v : Bytes}
variable {fs : Cache} {it : StoredItem}

namespace Spares

theorem own_data (h : Spares base rel r x m v fs it) : Own base rel (resolve (it.pathAbs base)) := by
  rw [StoredItem.pathAbs, h.path]
  exact .data

theorem own_head (h : Spares base rel r x m v fs it) : Own base rel (resolve (it.pathHead base)) := by
  rw [StoredItem.pathHead, h.path]
  exact .head

theorem own_tmp (h : Spares base rel r x m v fs it) (rand : Nat → Nat) (k : Nat) :
    Own base rel (resolve (tmpName (it.pathAbs base) rand k)) := by
  rw [StoredItem.pathAbs, h.path]
  exact .tmp rand k

theorem withError (h : Spares base rel r x m v fs it) : Spares base rel r x m v fs it.withError :=
  ⟨h.path, h.files, h.fd⟩

theorem storeHead (hf : fs.Apart (Own base rel) r x m v) (hr : ¬ Own base rel r) {p : List Bytes}
    (hp : Own base rel p) (text : Bytes) (io : HeadIo) :
    (StoredItem.storeHead fs p text io).Apart (Own base rel) r x m v := by
  obtain ⟨ho, hne⟩ := hf.openFile [] hp hr
  cases io with
  | lost => exact hf
  | torn => exact ho.write _ hne
  | stored => exact ho.write _ hne

theorem saveHeader (h : Spares base rel r x m v fs it) (hr : ¬ Own base rel r) (keep : Bool) (io : HeadIo) :
    (it.saveHeader base fs keep io).Apart (Own base rel) r x m v :=
  storeHead h.files hr h.own_head _ io

theorem replaceFile (h : Spares base rel r x m v fs it) (hr : ¬ Own base rel r) (rand : Nat → Nat)
    (io : ReplaceIo) :
    Spares base rel r x m v (it.replaceFile base rand fs io).2.1 (it.replaceFile base rand fs io).2.2 := by
  have hnone : ∀ (i pos : Nat), (none : Option (Nat × Nat)) = some (i, pos) → i ≠ m := by
    intro i pos he
    cases he
  obtain ⟨ho, hne⟩ := h.files.openFile [] (h.own_tmp rand 0) hr
  have hold := ho.rename h.own_data (h.own_tmp rand 3) hr
  have hnew := hold.rename (h.own_tmp rand 0) h.own_data hr
  unfold StoredItem.replaceFile
  simp only
  split
  · exact ⟨h.path, h.files, hnone⟩
  split
  · exact ⟨h.path, ho, hnone⟩
  split
  · exact ⟨h.path, hold, hnone⟩
  refine ⟨h.path, ?_, ?_⟩
  · split
    · exact hnew
    · exact hnew.unlink (h.own_tmp rand 3) hr
  · intro i pos he
    cases he
    exact hne

theorem openFile (h : Spares base rel r x m v fs it) (hr : ¬ Own base rel r) (ok : Bool) :
    Spares base rel r x m v (it.openFile base fs ok).1 (it.openFile base fs ok).2 := by
  unfold StoredItem.openFile
  split
  · obtain ⟨ho, hne⟩ := h.files.openFile [] h.own_data hr
    refine ⟨h.path, ho, ?_⟩
    intro i pos he
    cases he
    exact hne
  · exact h

theorem obtainFd (h : Spares base rel r x m v fs it) (hr : ¬ Own base rel r) (rand : Nat → Nat)
    (io : StoreIo) :
    Spares base rel r x m v (it.obtainFd base rand fs io).2.1 (it.obtainFd base rand fs io).2.2 := by
  have hfirst : ∀ b : Bool, Spares base rel r x m v
      (if b then it.replaceFile base rand fs io.replaceOrdered else (true, fs, it)).2.1
      (if b then it.replaceFile base rand fs io.replaceOrdered else (true, fs, it)).2.2 := by
    intro b
    cases b with
    | false => exact h
    | true => exact h.replaceFile hr rand _
  unfold StoredItem.obtainFd
  simp only
  have h1 := hfirst (it.fi.bWriterMustReplaceFile || decide (it.fi.nContentLength < 0))
  revert h1
  generalize (if (it.fi.bWriterMustReplaceFile || decide (it.fi.nContentLength < 0)) = true then
    it.replaceFile base rand fs io.replaceOrdered else (true, fs, it)) = w
  intro h1
  split
  · exact h1
  have h2 : Spares base rel r x m v
      (if w.2.2.filefd.isNone then StoredItem.openFile base w.2.1 w.2.2 io.openFile else w.2).1
      (if w.2.2.filefd.isNone then StoredItem.openFile base w.2.1 w.2.2 io.openFile else w.2).2 := by
    split
    · exact h1.openFile hr _
    · exact h1
  revert h2
  generalize (if w.2.2.filefd.isNone = true then StoredItem.openFile base w.2.1 w.2.2 io.openFile
    else w.2) = w'
  intro h2
  split
  · exact h2.replaceFile hr _ _
  · exact h2

theorem startWriting (h : Spares base rel r x m v fs it) (hr : ¬ Own base rel r) (io : StoreIo)
    (size : Int) :
    Spares base rel r x m v (it.startWriting base fs io size).2.1 (it.startWriting base fs io size).2.2 := by
  have hstart : Spares base rel r x m v fs
      (if it.fi.nSizeChecked < 0 then { it with fi := { it.fi with nSizeChecked := 0 } } else it) := by
    split
    · exact ⟨h.path, h.files, h.fd⟩
    · exact h
  unfold StoredItem.startWriting
  simp only
  revert hstart
  generalize (if it.fi.nSizeChecked < 0 then { it with fi := { it.fi with nSizeChecked := 0 } } else it) = it'
  intro h'
  have hseek : Spares base rel r x m v fs
      { it' with filefd := it'.filefd.map (fun (fd : Nat × Nat) => (fd.1, it'.fi.nSizeChecked.toNat)) } := by
    refine ⟨h'.path, h'.files, ?_⟩
    intro i pos he
    obtain ⟨⟨j, q⟩, hj, he⟩ := Option.map_eq_some_iff.mp he
    cases he
    exact h'.fd _ _ hj
  split
  · exact hseek.withError
  · exact ⟨h'.path, hseek.saveHeader hr false io.head, hseek.fd⟩

theorem safeOpenOutFile (h : Spares base rel r x m v fs it) (hr : ¬ Own base rel r) (rand : Nat → Nat)
    (io : StoreIo) :
    Spares base rel r x m v (it.safeOpenOutFile base rand fs io).2.1
      (it.safeOpenOutFile base rand fs io).2.2 := by
  have hclosed : Spares base rel r x m v fs { it with filefd := none } :=
    ⟨h.path, h.files, fun _ _ he => by cases he⟩
  unfold StoredItem.safeOpenOutFile
  simp only
  split
  · exact hclosed
  have ho := hclosed.obtainFd hr rand io
  revert ho
  generalize StoredItem.obtainFd base rand fs { it with filefd := none } io = w
  intro ho
  split
  · exact ho
  split
  · exact ho.withError
  split
  · have hre := ho.replaceFile hr (fun k => rand (k + 12)) io.replaceLonger
    split
    · exact hre
    · exact hre.startWriting hr io 0
  · exact ho.startWriting hr io _

theorem writeChunk (h : Spares base rel r x m v fs it) {fd : Nat} (hfd : fd ≠ m) (pos : Nat)
    (chunk : Bytes) :
    Spares base rel r x m v (it.writeChunk fs fd pos chunk).1 (it.writeChunk fs fd pos chunk).2 := by
  refine ⟨h.path, h.files.write _ hfd, ?_⟩
  intro i q he
  cases he
  exact hfd

theorem dlAddData (h : Spares base rel r x m v fs it) (hr : ¬ Own base rel r) (rand : Nat → Nat)
    (chunk : Bytes) (io : StoreIo) :
    Spares base rel r x m v (it.dlAddData base rand fs chunk io).1
      (it.dlAddData base rand fs chunk io).2 := by
  have ho : Spares base rel r x m v
      (if it.filefd.isNone then it.safeOpenOutFile base rand fs io else (true, fs, it)).2.1
      (if it.filefd.isNone then it.safeOpenOutFile base rand fs io else (true, fs, it)).2.2 := by
    split
    · exact h.safeOpenOutFile hr rand io
    · exact h
  unfold StoredItem.dlAddData
  simp only
  revert ho
  generalize (if it.filefd.isNone = true then it.safeOpenOutFile base rand fs io else (true, fs, it)) = w
  intro ho
  split
  · exact ho
  split
  · exact ho.withError
  rename_i fd pos hfd
  have hne := ho.fd fd pos hfd
  split
  · exact ho.withError
  split
  · exact ho
  split
  · exact ho.writeChunk hne pos chunk
  · exact (ho.writeChunk hne pos _).withError

theorem dlFinish (h : Spares base rel r x m v fs it) (hr : ¬ Own base rel r) (force : Bool) (io : HeadIo) :
    Spares base rel r x m v (it.dlFinish base fs force io).1 (it.dlFinish base fs force io).2 := by
  unfold StoredItem.dlFinish
  split
  · exact h
  split
  · exact h
  simp only
  split
  · have hfix : Spares base rel r x m v fs
        { it with fi := ({ it.fi with status := .complete } : FileItem).fixLength } :=
      ⟨h.path, h.files, h.fd⟩
    split
    · exact ⟨h.path, hfix.saveHeader hr false io, h.fd⟩
    · exact hfix
  · exact ⟨h.path, h.files, h.fd⟩

theorem destroy (h : Spares base rel r x m v fs it) (hr : ¬ Own base rel r) :
    (it.destroy base fs).Apart (Own base rel) r x m v := by
  have hgone : Spares base rel r x m v (fs.unlink (resolve (it.pathAbs base))) it :=
    ⟨h.path, h.files.unlink h.own_data hr, h.fd⟩
  unfold StoredItem.destroy
  simp only
  split
  · exact h.files
  split
  · exact h.files
  · refine saveHeader ⟨h.path, ?_, h.fd⟩ hr true .stored
    split
    · rename_i i hi
      refine h.files.write [] ?_
      rintro rfl
      exact h.files.apart _ h.own_data hi
    · exact h.files
  · exact hgone.files
  · exact hgone.files.unlink h.own_head hr
  · exact hgone.saveHeader hr true .stored

end Spares

end

namespace Sides

/-- The invariant of all runs whose steps are direct. -/
structure Divided (base rel sPathRel : Bytes) (m : Nat) (s : Sides) : Prop where
  files : ∃ v, s.fs.Apart (Own base rel) (resolve sPathRel) (s.old.map fun _ => m) m v
  old : ∀ it, s.old = some it → it.fi.sPathRel = sPathRel ∧ ∀ i pos, it.filefd = some (i, pos) → i = m
  new : ∀ it, s.new = some it → it.fi.sPathRel = rel ∧ ∀ i pos, it.filefd = some (i, pos) → i ≠ m
  readers : ∀ fd ∈ s.readers, fd = some m

variable {base rel sPathRel : Bytes} {m : Nat}

theorem Divided.spares {s : Sides} (h : s.Divided base rel sPathRel m) {it : StoredItem}
    (hit : s.new = some it) :
    Spares base rel (resolve sPathRel) (s.old.map fun _ => m) m (s.fs.data m) s.fs it := by
  obtain ⟨v, hv⟩ := h.files
  obtain ⟨hp, hfd⟩ := h.new it hit
  exact ⟨hp, ⟨hv.name, rfl, hv.allocated, hv.apart⟩, hfd⟩

/-- The new item's operations leave the moved copy alone. -/
theorem operate_spares {fs : Cache} {it : StoredItem} {r : List Bytes} {x : Option Nat} {v : Bytes}
    (h : Spares base rel r x m v fs it) (hr : ¬ Own base rel r) (op : ItemOp) :
    (operate base fs it op).1.Apart (Own base rel) r x m v ∧
      ∀ it', (operate base fs it op).2 = some it' → it'.fi.sPathRel = rel ∧
        ∀ i pos, it'.filefd = some (i, pos) → i ≠ m := by
  cases op with
  | addData rand chunk io =>
    have hs := h.dlAddData hr rand chunk io
    refine ⟨hs.files, ?_⟩
    intro it' he
    cases he
    exact ⟨hs.path, hs.fd⟩
  | finish force io =>
    have hs := h.dlFinish hr force io
    refine ⟨hs.files, ?_⟩
    intro it' he
    cases he
    exact ⟨hs.path, hs.fd⟩
  | setError errState kmode =>
    refine ⟨h.files, ?_⟩
    intro it' he
    cases he
    exact ⟨h.path, h.fd⟩
  | openFd =>
    refine ⟨h.files, ?_⟩
    intro it' he
    cases he
    exact ⟨h.path, h.fd⟩
  | destroy =>
    refine ⟨h.destroy hr, ?_⟩
    intro it' he
    cases he

theorem Divided.there {s : Sides} (h : s.Divided base rel sPathRel m) (ho : s.old.isSome = true) :
    s.fs.names (resolve sPathRel) = some m := by
  obtain ⟨v, hv⟩ := h.files
  obtain ⟨it, hit⟩ := Option.isSome_iff_exists.mp ho
  rw [hv.name, hit]
  rfl

/-- An item that is gone does nothing. -/
theorem step_gone {s : Sides} (h : s.Divided base rel sPathRel m) (displaced : Bool) (op : ItemOp)
    (hn : (if displaced then s.old else s.new) = none) :
    (s.step base displaced op).Divided base rel sPathRel m ∧
      s.Isolated base rel (resolve sPathRel) m displaced op := by
  have he : s.step base displaced op = s := by simp only [step, hn]
  refine ⟨by rwa [he], ⟨?_, ?_, ?_, ?_, ?_⟩⟩
  · intro _ p _
    rw [he]
  · intro _
    rw [he]
    exact ⟨rfl, rfl⟩
  · rw [he]
    exact h.readers
  · rw [he]
    exact h.there
  · rintro rfl _ ho
    rw [if_pos rfl] at hn
    rw [hn] at ho
    cases ho

theorem step_new {s : Sides} (h : s.Divided base rel sPathRel m) (hr : ¬ Own base rel (resolve sPathRel))
    (op : ItemOp) :
    (s.step base false op).Divided base rel sPathRel m ∧
      s.Isolated base rel (resolve sPathRel) m false op := by
  cases hn : s.new with
  | none => exact step_gone h false op hn
  | some it =>
    have hs := h.spares hn
    obtain ⟨hf, hit⟩ := operate_spares hs hr op
    have he : s.step base false op =
        { s with fs := (operate base s.fs it op).1, new := (operate base s.fs it op).2 } := by
      simp [step, hn]
    have hd : (s.step base false op).Divided base rel sPathRel m := by
      rw [he]
      exact ⟨⟨_, hf⟩, h.old, hit, h.readers⟩
    refine ⟨hd, ⟨(fun hc => nomatch hc), fun _ => ?_, hd.readers, hd.there, (fun hc => nomatch hc)⟩⟩
    rw [he]
    exact ⟨hf.name.trans hs.files.name.symm, hf.data⟩

/-- Nothing but the file behind the descriptor changes. -/
theorem dlAddData_open (rand : Nat → Nat) (fs : Cache) (it : StoredItem) (chunk : Bytes) (io : StoreIo)
    (fd pos : Nat) (hfd : it.filefd = some (fd, pos)) :
    ((it.dlAddData base rand fs chunk io).1 = fs ∨
        ∃ b, (it.dlAddData base rand fs chunk io).1 = fs.write fd b) ∧
      (it.dlAddData base rand fs chunk io).2.fi.sPathRel = it.fi.sPathRel ∧
      ∀ i q, (it.dlAddData base rand fs chunk io).2.filefd = some (i, q) → i = fd := by
  have hsame : ∀ i q, it.filefd = some (i, q) → i = fd := by
    intro i q h
    rw [hfd] at h
    cases h
    rfl
  have hwritten : ∀ (b : Bytes) i q, (it.writeChunk fs fd pos b).2.filefd = some (i, q) → i = fd := by
    intro b i q h
    cases h
    rfl
  unfold StoredItem.dlAddData
  simp only [hfd, Option.isNone_some, Bool.false_eq_true, if_false, Bool.not_true]
  split
  · exact ⟨.inl rfl, rfl, hsame⟩
  split
  · exact ⟨.inl rfl, rfl, hsame⟩
  split
  · exact ⟨.inr ⟨_, rfl⟩, rfl, hwritten chunk⟩
  · rename_i n _
    exact ⟨.inr ⟨_, rfl⟩, rfl, hwritten (chunk.take n)⟩

theorem dlFinish_direct (fs : Cache) (it : StoredItem) (force : Bool) (io : HeadIo)
    (h : Direct base it (.finish force io)) :
    (it.dlFinish base fs force io).1 = fs ∧
      (it.dlFinish base fs force io).2.fi.sPathRel = it.fi.sPathRel ∧
      (it.dlFinish base fs force io).2.filefd = it.filefd := by
  unfold StoredItem.dlFinish
  split
  · exact ⟨rfl, rfl, rfl⟩
  split
  · exact ⟨rfl, rfl, rfl⟩
  rename_i hns hst
  simp only
  split
  · rename_i hlen
    split
    · rename_i hk
      exfalso
      rcases h with h | h | ⟨h1, h2⟩ | h
      · exact hns h
      · exact hst h
      · simp only [Bool.or_eq_true, decide_eq_true_eq, h2, Bool.false_eq_true, or_false] at hlen
        omega
      · exact h hk
    · exact ⟨rfl, rfl, rfl⟩
  · exact ⟨rfl, rfl, rfl⟩

/-- A direct operation of the displaced item writes at most to the moved copy. -/
theorem operate_direct (fs : Cache) (it : StoredItem) (op : ItemOp) (h : Direct base it op)
    (hop : op ≠ .destroy) (hfd : ∀ i pos, it.filefd = some (i, pos) → i = m) :
    ((operate base fs it op).1 = fs ∨ ∃ b, (operate base fs it op).1 = fs.write m b) ∧
      ∃ it', (operate base fs it op).2 = some it' ∧ it'.fi.sPathRel = it.fi.sPathRel ∧
        ∀ i pos, it'.filefd = some (i, pos) → i = m := by
  cases op with
  | addData rand chunk io =>
    cases hf : it.filefd with
    | none =>
      have hno : it.fi.spattr.bNoStore = true := by simpa [Direct, hf] using h
      have he : it.dlAddData base rand fs chunk io = (fs, it) := by
        have hit : { it with filefd := none } = it := by
          cases it
          cases hf
          rfl
        simp [StoredItem.dlAddData, StoredItem.safeOpenOutFile, hf, hno, hit]
      refine ⟨.inl (by simp only [operate, he]), it, by simp only [operate, he], rfl, hfd⟩
    | some p =>
      obtain ⟨fd, pos⟩ := p
      obtain rfl := hfd fd pos hf
      obtain ⟨hfs, hp, hd⟩ := @dlAddData_open base rand fs it chunk io fd pos hf
      exact ⟨hfs, _, rfl, hp, hd⟩
  | finish force io =>
    obtain ⟨hfs, hp, hd⟩ := dlFinish_direct fs it force io h
    exact ⟨.inl hfs, _, rfl, hp, fun i pos he => hfd i pos (hd ▸ he)⟩
  | setError errState kmode => exact ⟨.inl rfl, _, rfl, rfl, hfd⟩
  | openFd => exact ⟨.inl rfl, _, rfl, rfl, hfd⟩
  | destroy => exact absurd rfl hop

theorem destroy_direct (fs : Cache) (it : StoredItem) (h : Direct base it .destroy)
    (hne : it.fi.sPathRel ≠ []) : it.destroy base fs = fs.unlink (resolve it.fi.sPathRel) := by
  obtain ⟨hres, hmode, hstore⟩ := h
  have he : it.fi.sPathRel.isEmpty = false := by simpa using hne
  unfold StoredItem.destroy
  simp only [hmode, hstore, he, StoredItem.pathAbs, hres]
  rfl

/-- The destructor removes the moved copy and nothing else. -/
theorem step_old_destroy {s : Sides} (h : s.Divided base rel sPathRel m) (hr : ¬ Own base rel (resolve sPathRel))
    (hne : sPathRel ≠ []) {it : StoredItem} (ho : s.old = some it) (hd : Direct base it .destroy) :
    (s.step base true .destroy).Divided base rel sPathRel m ∧
      s.Isolated base rel (resolve sPathRel) m true .destroy := by
  obtain ⟨hp, -⟩ := h.old it ho
  obtain ⟨v, hv⟩ := h.files
  have he : s.step base true .destroy = { s with fs := s.fs.unlink (resolve sPathRel), old := none } := by
    rw [← hp] at hne ⊢
    simp only [step, ho, operate, destroy_direct s.fs it hd hne, if_true]
  have hdiv : (s.step base true .destroy).Divided base rel sPathRel m := by
    rw [he]
    refine ⟨⟨v, Function.update_self _ _ _, hv.data, hv.allocated, ?_⟩, (fun _ hc => nomatch hc), h.new,
      h.readers⟩
    intro p hown
    have hpne : p ≠ resolve sPathRel := by
      rintro rfl
      exact hr hown
    change Function.update s.fs.names _ none p ≠ some m
    rw [Function.update_of_ne hpne]
    exact hv.apart p hown
  refine ⟨hdiv, ⟨?_, (fun hc => nomatch hc), hdiv.readers, hdiv.there, ?_⟩⟩
  · intro _ p hown
    rw [he]
    refine s.fs.get_unlink ?_
    rintro rfl
    rcases hown with hown | hown
    · exact hr (hown ▸ .data)
    · exact hr (hown ▸ .head)
  · intro _ _ _
    rw [he]
    rfl

/-- Clients that come to the displaced item in a direct step get its moved copy. -/
theorem step_old_readers {s : Sides} (h : s.Divided base rel sPathRel m) {it : StoredItem}
    (ho : s.old = some it) (op : ItemOp) (hd : Direct base it op) :
    ∀ fd ∈ (s.step base true op).readers, fd = some m := by
  have hread : (s.step base true op).readers = s.readers ∨
      (op = .openFd ∧ (s.step base true op).readers = it.getFileFd base s.fs :: s.readers) := by
    cases op <;> simp [step, ho]
  rcases hread with hread | ⟨rfl, hread⟩
  · rw [hread]
    exact h.readers
  · rw [hread]
    intro fd hmem
    rcases List.mem_cons.mp hmem with rfl | hmem
    · have hres : resolve (base ++ it.fi.sPathRel) = resolve it.fi.sPathRel := hd
      rw [StoredItem.getFileFd, StoredItem.pathAbs, hres, (h.old it ho).1]
      exact h.there (by rw [ho]; rfl)
    · exact h.readers fd hmem

theorem step_old_work {s : Sides} (h : s.Divided base rel sPathRel m) {it : StoredItem} (ho : s.old = some it)
    (op : ItemOp) (hd : Direct base it op) (hop : op ≠ .destroy) :
    (s.step base true op).Divided base rel sPathRel m ∧
      s.Isolated base rel (resolve sPathRel) m true op := by
  obtain ⟨hp, hfd⟩ := h.old it ho
  obtain ⟨v, hv⟩ := h.files
  obtain ⟨hfs, it', hit, hp', hfd'⟩ := operate_direct s.fs it op hd hop hfd
  have hnew : (s.step base true op).new = s.new := by simp only [step, ho, if_true]
  have hold : (s.step base true op).old = some it' := by simp only [step, ho, hit, if_true]
  have hfs' : (s.step base true op).fs = (operate base s.fs it op).1 := by
    simp only [step, ho, if_true]
  have hfiles : (∃ v, (s.step base true op).fs.Apart (Own base rel) (resolve sPathRel) (some m) m v) ∧
      ∀ p, Own base rel p → (s.step base true op).fs.get p = s.fs.get p := by
    rw [ho] at hv
    rw [hfs']
    rcases hfs with hfs | ⟨b, hfs⟩
    · rw [hfs]
      exact ⟨⟨v, hv⟩, fun _ _ => rfl⟩
    · rw [hfs]
      refine ⟨⟨b, hv.name, Function.update_self _ _ _, hv.allocated, hv.apart⟩, ?_⟩
      exact fun p hown => s.fs.get_write b (hv.apart p hown)
  have hdiv : (s.step base true op).Divided base rel sPathRel m := by
    refine ⟨by rw [hold]; exact hfiles.1, ?_, by rw [hnew]; exact h.new, step_old_readers h ho op hd⟩
    intro it'' he
    rw [hold] at he
    cases he
    exact ⟨hp'.trans hp, hfd'⟩
  refine ⟨hdiv, ⟨?_, (fun hc => nomatch hc), hdiv.readers, hdiv.there, fun _ hc => absurd hc hop⟩⟩
  rintro - p (rfl | rfl)
  · exact hfiles.2 _ .data
  · exact hfiles.2 _ .head

theorem step_old {s : Sides} (h : s.Divided base rel sPathRel m) (hr : ¬ Own base rel (resolve sPathRel))
    (hne : sPathRel ≠ []) (op : ItemOp) (hdir : ∀ it, s.old = some it → Direct base it op) :
    (s.step base true op).Divided base rel sPathRel m ∧
      s.Isolated base rel (resolve sPathRel) m true op := by
  cases ho : s.old with
  | none => exact step_gone h true op ho
  | some it =>
    by_cases hop : op = .destroy
    · subst hop
      exact step_old_destroy h hr hne ho (hdir it ho)
    · exact step_old_work h ho op (hdir it ho) hop

/-- The run lemma. -/
theorem always_isolated (ops : List (Bool × ItemOp)) (s : Sides) (h : s.Divided base rel sPathRel m)
    (hr : ¬ Own base rel (resolve sPathRel)) (hne : sPathRel ≠ [])
    (hdir : Always base (fun s displaced op => displaced = true → ∀ it, s.old = some it → Direct base it op)
      s ops) :
    Always base (fun s displaced op => s.Isolated base rel (resolve sPathRel) m displaced op) s ops := by
  induction ops generalizing s with
  | nil => trivial
  | cons p ops ih =>
    obtain ⟨displaced, op⟩ := p
    obtain ⟨hd, hrest⟩ := hdir
    have hstep : (s.step base displaced op).Divided base rel sPathRel m ∧
        s.Isolated base rel (resolve sPathRel) m displaced op := by
      cases displaced with
      | false => exact step_new h hr op
      | true => exact step_old h hr hne op (hd rfl)
    exact ⟨hstep.2, ih _ hstep.1 hrest⟩

/-- A file that was moved has another name than its item had. -/
theorem displace_cases {now : Int} {fs fs' : Cache} {it it' : StoredItem}
    (hm : fs.names (resolve (it.pathAbs base)) = some m) (hd : displace base now {} fs it = some (fs', it')) :
    (0 : UInt8) ∉ base ++ it.fi.sPathRel ∧
      fs' = (fs.link (resolve (it.pathAbs base)) (resolve (replPathAbs base it now))).unlink
        (resolve (it.pathAbs base)) ∧
      it'.fi.sPathRel = replPathAbs base it now ∧ it'.filefd = it.filefd := by
  unfold displace at hd
  simp only [hm, Option.isNone_some, Bool.not_true, Bool.false_or, Bool.false_eq_true, if_false] at hd
  split at hd
  · cases hd
  split at hd
  · cases hd
  rename_i hfree
  cases hd
  refine ⟨?_, rfl, rfl, rfl⟩
  intro h0
  have hsame : resolve (replPathAbs base it now) = resolve (it.pathAbs base) := by
    have he : replPathAbs base it now = base ++ it.fi.sPathRel ++ (lit "." ++ dec now) := by
      simp only [replPathAbs, List.append_assoc]
    rw [he, resolve, cstr_append_nul _ _ h0]
    rfl
  rw [hsame, hm] at hfree
  exact hfree rfl

theorem displaced_divided {now : Int} {fs fs' : Cache} {it it' new : StoredItem} {readers : List (Option Nat)}
    (hm : fs.names (resolve (it.pathAbs base)) = some m) (hd : displace base now {} fs it = some (fs', it'))
    (hone : ∀ p, Own base it.fi.sPathRel p → fs.names p = some m → p = resolve (it.pathAbs base))
    (hfd : ∀ i pos, it.filefd = some (i, pos) → i = m) (hnew : new.fi.sPathRel = it.fi.sPathRel)
    (hnewfd : new.filefd = none) (hread : ∀ fd ∈ readers, fd = some m) :
    Divided base it.fi.sPathRel (replPathAbs base it now) m
      { fs := fs', old := some it', new := some new, readers } := by
  obtain ⟨h0, rfl, hp, hfd'⟩ := displace_cases hm hd
  have hr : ¬ Own base it.fi.sPathRel (resolve (replPathAbs base it now)) :=
    moved_not_own base it.fi.sPathRel now h0
  have hne : resolve (replPathAbs base it now) ≠ resolve (it.pathAbs base) := by
    intro he
    rw [he] at hr
    exact hr .data
  refine ⟨⟨fs.data m, ?_, rfl, fs.bound _ _ hm, ?_⟩, ?_, ?_, hread⟩
  · change Function.update (Function.update fs.names _ (fs.names _)) _ none _ = some m
    rw [Function.update_of_ne hne, Function.update_self, hm]
  · intro p hown
    change Function.update (Function.update fs.names _ (fs.names _)) _ none _ ≠ some m
    by_cases hpd : p = resolve (it.pathAbs base)
    · rw [hpd, Function.update_self]
      simp
    · have hpr : p ≠ resolve (replPathAbs base it now) := by
        rintro rfl
        exact hr hown
      rw [Function.update_of_ne hpd, Function.update_of_ne hpr]
      exact fun h => hpd (hone p hown h)
  · intro it'' he
    cases he
    exact ⟨hp, fun i pos h => hfd i pos (hfd' ▸ h)⟩
  · intro it'' he
    cases he
    refine ⟨hnew, ?_⟩
    rw [hnewfd]
    exact fun _ _ h => nomatch h

/-- After an item was displaced, in every interleaving of its operations with those of the new
one, both sides stay apart, as long as the displaced item does not use its path, which has
`CACHE_BASE` in front of it twice. -/
theorem displaced_isolated (base : Bytes) (now : Int) (fs fs' : Cache) (it it' new : StoredItem) (m : Nat)
    (readers : List (Option Nat)) (hm : fs.names (resolve (it.pathAbs base)) = some m)
    (hd : displace base now {} fs it = some (fs', it'))
    (hone : ∀ p, Own base it.fi.sPathRel p → fs.names p = some m → p = resolve (it.pathAbs base))
    (hfd : ∀ i pos, it.filefd = some (i, pos) → i = m) (hnew : new.fi.sPathRel = it.fi.sPathRel)
    (hnewfd : new.filefd = none) (hread : ∀ fd ∈ readers, fd = some m) (ops : List (Bool × ItemOp))
    (hdir : Always base (fun s displaced op => displaced = true → ∀ it, s.old = some it → Direct base it op)
      { fs := fs', old := some it', new := some new, readers } ops) :
    Always base
      (fun s displaced op =>
        s.Isolated base it.fi.sPathRel (resolve (replPathAbs base it now)) m displaced op)
      { fs := fs', old := some it', new := some new, readers } ops := by
  have hdiv := displaced_divided hm hd hone hfd hnew hnewfd hread
  obtain ⟨h0, -, -, -⟩ := displace_cases hm hd
  refine always_isolated ops _ hdiv (moved_not_own base it.fi.sPathRel now h0) ?_ hdir
  simp [replPathAbs, lit]

/-- One file in the cache `/c`, and an item that is writing to it. -/
def oneFile : Cache :=
  Files.create { names := fun _ => none, data := fun _ => [], next := 0, bound := fun _ _ h => nomatch h }
    (resolve (lit "/c/d/x")) (lit "abc")

def writing : StoredItem where
  fi := { sPathRel := lit "d/x", status := .dlReceiving, nContentLength := 9, nSizeChecked := 3 }
  filefd := some (0, 3)

def freshItem : StoredItem where
  fi := { sPathRel := lit "d/x", status := .dlGotHead, nContentLength := 2 }

theorem displaced_isolated_writing :
    ∃ fs' it', displace (lit "/c/") 1000 {} oneFile writing = some (fs', it') ∧
      Always (lit "/c/")
        (fun s displaced op =>
          s.Isolated (lit "/c/") (lit "d/x") (resolve (lit "/c/d/x.1000")) 0 displaced op)
        { fs := fs', old := some it', new := some freshItem, readers := [some 0] }
        [(true, .addData id (lit "de") {}), (false, .addData id (lit "z") {})] := by
  refine ⟨_, _, rfl, displaced_isolated (lit "/c/") 1000 oneFile _ writing _ freshItem 0 [some 0]
    (by decide +kernel) rfl ?_ ?_ rfl rfl (by simp) _ ⟨?_, (fun h => nomatch h), trivial⟩⟩
  · intro p _ hp
    by_contra hne
    change Function.update (fun _ => none) (resolve (lit "/c/d/x")) (some 0) p = some 0 at hp
    rw [Function.update_of_ne (show p ≠ resolve (lit "/c/d/x") from hne)] at hp
    cases hp
  · intro i pos h
    cases h
    rfl
  · intro _ it h
    cases h
    exact .inl rfl

/-- The destructor looks for the copy in the cache of the cache, and the copy stays. -/
theorem moved_copy_stays :
    ∃ fs' it', displace (lit "/c/") 1000 {} oneFile writing = some (fs', it') ∧
      ¬ Isolated (lit "/c/") (lit "d/x") (resolve (lit "/c/d/x.1000")) 0
        { fs := fs', old := some it', new := some freshItem } true .destroy := by
  refine ⟨_, _, rfl, fun h => ?_⟩
  have hnames := congrFun (h.removed rfl rfl rfl) (resolve (lit "/c/d/x.1000"))
  rw [Function.update_self] at hnames
  revert hnames
  decide +kernel

end Sides

end Acng
