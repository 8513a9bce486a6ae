import Acng.Lib.Separators

namespace Acng.Lib

/-- A text in the memory, and what lies behind it. -/
structure Mapped where
  text : Bytes
  behind : Nat → UInt8

namespace Mapped

variable (m : Mapped)

def get (p : Nat) : UInt8 := (m.text[p]?).getD (m.behind (p - m.text.length))

def memchr (c : UInt8) : Nat → Nat → Option Nat
  | _, 0 => none
  | p, len + 1 => if m.get p = c then some p else memchr c (p + 1) len

def string (p len : Nat) : Bytes := (List.range' p len).map m.get

variable {m} {pre y z : Bytes} {c : UInt8}

theorem get_mid {s : Bytes} (h : m.text = pre ++ c :: s) : m.get pre.length = c := by
  rw [get, h]
  simp

theorem string_mid (h : m.text = pre ++ y ++ z) : m.string pre.length y.length = y := by
  induction y generalizing pre with
  | nil => rfl
  | cons d y ih =>
    have hhead : m.get pre.length = d := get_mid (s := y ++ z) (by rw [h, List.append_assoc]; rfl)
    have htail := @ih (pre ++ [d]) (by rw [h]; simp)
    rw [string, List.length_append] at htail
    rw [string, List.length_cons, List.range'_succ, List.map_cons, hhead]
    exact congrArg (List.cons d) htail

theorem memchr_mid (h : m.text = pre ++ y ++ z) :
    m.memchr c pre.length y.length = (y.idxOf? c).map (pre.length + ·) := by
  induction y generalizing pre with
  | nil => rfl
  | cons d y ih =>
    have hhead : m.get pre.length = d := get_mid (s := y ++ z) (by rw [h, List.append_assoc]; rfl)
    have htail := @ih (pre ++ [d]) (by rw [h]; simp)
    rw [List.length_append] at htail
    rw [List.length_cons, memchr, hhead, List.idxOf?_cons]
    by_cases hd : d = c
    · rw [if_pos hd, if_pos (beq_iff_eq.mpr hd)]
      rfl
    · rw [if_neg hd, if_neg (by simpa using hd)]
      rw [List.length_singleton] at htail
      rw [htail, Option.map_map]
      congr 1
      funext k
      exact Nat.add_right_comm ..

theorem memchr_add (p a b : Nat) : m.memchr c p (a + b) = (m.memchr c p a).or (m.memchr c (p + a) b) := by
  induction a generalizing p with
  | zero => simp [memchr]
  | succ a ih =>
    rw [Nat.succ_add, memchr, memchr]
    split
    · rfl
    · rw [ih, Nat.add_assoc, Nat.add_comm 1]

theorem memchr_bounds {p len i : Nat} (h : m.memchr c p len = some i) : p ≤ i ∧ i < p + len := by
  induction len generalizing p with
  | zero => cases h
  | succ len ih =>
    rw [memchr] at h
    split at h
    · cases h
      omega
    · have := ih h
      omega

end Mapped

end Acng.Lib
