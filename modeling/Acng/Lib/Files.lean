import Mathlib.Logic.Function.Basic
import Mathlib.Order.Basic
import Mathlib.Data.Nat.Basic

namespace Acng.Lib

/-- A file system without directories: names for files that are told apart by numbers. A file
can have several names, and it exists without any name as long as it is open. -/
structure Files (ν α : Type) where
  names : ν → Option Nat
  data : Nat → α
  next : Nat
  bound : ∀ p i, names p = some i → i < next

namespace Files

variable {ν α : Type} [DecidableEq ν]

def get (fs : Files ν α) (p : ν) : Option α := (fs.names p).map fs.data

def unlink (fs : Files ν α) (p : ν) : Files ν α where
  names := Function.update fs.names p none
  data := fs.data
  next := fs.next
  bound := by
    intro q i h
    rw [Function.update_apply] at h
    split at h
    · cases h
    · exact fs.bound q i h

/-- One more name for a file. -/
def link (fs : Files ν α) (p q : ν) : Files ν α where
  names := Function.update fs.names q (fs.names p)
  data := fs.data
  next := fs.next
  bound := by
    intro r i h
    rw [Function.update_apply] at h
    split at h
    · exact fs.bound p i h
    · exact fs.bound r i h

/-- Nothing happens if there is no such file, or if both are names of the same one. -/
def rename (fs : Files ν α) (p q : ν) : Files ν α :=
  if (fs.names p).isNone || fs.names p = fs.names q then fs else (fs.link p q).unlink p

/-- A new file. -/
def create (fs : Files ν α) (p : ν) (v : α) : Files ν α where
  names := Function.update fs.names p (some fs.next)
  data := Function.update fs.data fs.next v
  next := fs.next + 1
  bound := by
    intro q i h
    rw [Function.update_apply] at h
    split at h
    · cases h
      exact Nat.lt_succ_self _
    · exact Nat.lt_succ_of_lt (fs.bound q i h)

/-- The file with this name, which is created if there is none. -/
def openFile (fs : Files ν α) (p : ν) (v : α) : Nat × Files ν α :=
  match fs.names p with
  | some i => (i, fs)
  | none => (fs.next, fs.create p v)

def write (fs : Files ν α) (i : Nat) (v : α) : Files ν α := { fs with data := Function.update fs.data i v }

/-- A file with its contents, and a name that is left alone: nothing that is done with other
names and other files reaches them. -/
structure Apart (own : ν → Prop) (r : ν) (x : Option Nat) (m : Nat) (v : α) (fs : Files ν α) : Prop where
  name : fs.names r = x
  data : fs.data m = v
  allocated : m < fs.next
  apart : ∀ p, own p → fs.names p ≠ some m

variable {own : ν → Prop} {r : ν} {x : Option Nat} {m : Nat} {v : α} {fs : Files ν α}

theorem Apart.unlink (h : Apart own r x m v fs) {p : ν} (hp : own p) (hr : ¬ own r) :
    Apart own r x m v (fs.unlink p) := by
  have hne : r ≠ p := fun he => hr (he ▸ hp)
  refine ⟨?_, h.data, h.allocated, ?_⟩
  · rw [← h.name]
    exact Function.update_of_ne hne _ _
  · intro q hq
    change Function.update fs.names p none q ≠ some m
    rw [Function.update_apply]
    split
    · simp
    · exact h.apart q hq

theorem Apart.link (h : Apart own r x m v fs) {p q : ν} (hp : own p) (hq : own q) (hr : ¬ own r) :
    Apart own r x m v (fs.link p q) := by
  have hne : r ≠ q := fun he => hr (he ▸ hq)
  refine ⟨?_, h.data, h.allocated, ?_⟩
  · rw [← h.name]
    exact Function.update_of_ne hne _ _
  · intro s hs
    change Function.update fs.names q (fs.names p) s ≠ some m
    rw [Function.update_apply]
    split
    · exact h.apart p hp
    · exact h.apart s hs

theorem Apart.rename (h : Apart own r x m v fs) {p q : ν} (hp : own p) (hq : own q) (hr : ¬ own r) :
    Apart own r x m v (fs.rename p q) := by
  unfold Files.rename
  split
  · exact h
  · exact (h.link hp hq hr).unlink hp hr

theorem Apart.create (h : Apart own r x m v fs) {p : ν} (w : α) (hp : own p) (hr : ¬ own r) :
    Apart own r x m v (fs.create p w) := by
  have hne : r ≠ p := fun he => hr (he ▸ hp)
  have hm : m ≠ fs.next := Nat.ne_of_lt h.allocated
  refine ⟨?_, ?_, Nat.lt_succ_of_lt h.allocated, ?_⟩
  · rw [← h.name]
    exact Function.update_of_ne hne _ _
  · rw [← h.data]
    exact Function.update_of_ne hm _ _
  · intro q hq
    change Function.update fs.names p (some fs.next) q ≠ some m
    rw [Function.update_apply]
    split
    · simpa using hm.symm
    · exact h.apart q hq

/-- What is opened under an own name is another file. -/
theorem Apart.openFile (h : Apart own r x m v fs) {p : ν} (w : α) (hp : own p) (hr : ¬ own r) :
    Apart own r x m v (fs.openFile p w).2 ∧ (fs.openFile p w).1 ≠ m := by
  unfold Files.openFile
  cases hn : fs.names p with
  | none => exact ⟨h.create w hp hr, (Nat.ne_of_lt h.allocated).symm⟩
  | some i =>
    refine ⟨h, ?_⟩
    rintro rfl
    exact h.apart p hp hn

omit [DecidableEq ν] in
theorem Apart.write (h : Apart own r x m v fs) {i : Nat} (w : α) (hi : i ≠ m) :
    Apart own r x m v (fs.write i w) :=
  ⟨h.name, (Function.update_of_ne hi.symm _ _).trans h.data, h.allocated, h.apart⟩

omit [DecidableEq ν] in
/-- A file that is written shows under its own names only. -/
theorem get_write (fs : Files ν α) {p : ν} {i : Nat} (w : α) (h : fs.names p ≠ some i) :
    (fs.write i w).get p = fs.get p := by
  unfold get write
  cases hn : fs.names p with
  | none => rfl
  | some k =>
    have hne : k ≠ i := by
      rintro rfl
      exact h hn
    simp only [Option.map_some, Function.update_of_ne hne]

theorem get_unlink (fs : Files ν α) {p q : ν} (h : p ≠ q) : (fs.unlink q).get p = fs.get p := by
  change (Function.update fs.names q none p).map fs.data = (fs.names p).map fs.data
  rw [Function.update_of_ne h]

end Files

end Acng.Lib
