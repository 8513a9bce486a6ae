import Acng.Lib.Bytes

namespace Acng.Lib

/-- The `k` lowest bytes of a number, the lowest one first. -/
def littleEndian : Nat → Nat → Bytes
  | 0, _ => []
  | k + 1, n => UInt8.ofNat n :: littleEndian k (n / 256)

def readLittleEndian : Bytes → Nat
  | [] => 0
  | b :: s => b.toNat + 256 * readLittleEndian s

/-- Reading `n` bytes from a buffer; `none` if there are less of them. -/
def readBytes (n : Nat) (s : Bytes) : Option (Bytes × Bytes) :=
  if n ≤ s.length then some (s.take n, s.drop n) else none

@[simp] theorem length_littleEndian (k n : Nat) : (littleEndian k n).length = k := by
  induction k generalizing n with
  | zero => rfl
  | succ k ih => simp [littleEndian, ih]

theorem readLittleEndian_littleEndian (k n : Nat) :
    readLittleEndian (littleEndian k n) = n % 256 ^ k := by
  induction k generalizing n with
  | zero => simp [littleEndian, readLittleEndian, Nat.mod_one]
  | succ k ih =>
    have hpow : 256 ^ (k + 1) = 256 * 256 ^ k := Nat.pow_succ'
    rw [littleEndian, readLittleEndian, ih, UInt8.toNat_ofNat', hpow, Nat.mod_mul]

theorem littleEndian_readLittleEndian (s : Bytes) :
    littleEndian s.length (readLittleEndian s) = s := by
  induction s with
  | nil => rfl
  | cons b s ih =>
    have hb := b.toNat_lt
    have hrest : (b.toNat + 256 * readLittleEndian s) / 256 = readLittleEndian s := by omega
    rw [List.length_cons, readLittleEndian, littleEndian, hrest, ih]
    congr 1
    rw [← UInt8.toNat_inj, UInt8.toNat_ofNat']
    omega

theorem readLittleEndian_lt (s : Bytes) : readLittleEndian s < 256 ^ s.length := by
  induction s with
  | nil => exact Nat.one_pos
  | cons b s ih =>
    have hb := b.toNat_lt
    rw [readLittleEndian, List.length_cons, Nat.pow_succ']
    omega

theorem readBytes_append (a b : Bytes) : readBytes a.length (a ++ b) = some (a, b) := by
  simp [readBytes]

end Acng.Lib
