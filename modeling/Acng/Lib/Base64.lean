import Acng.Lib.Bytes
import Mathlib.Tactic.IntervalCases
import Mathlib.Tactic.Ring

namespace Acng.Lib

/-! Base 64 by the bits of the data: groups of six, and padding to groups of four digits. -/

namespace Base64

/-- The lowest bits of a number, from the highest of them on. -/
def bits : Nat → Nat → List Bool
  | 0, _ => []
  | w + 1, n => n.testBit w :: bits w n

def number (l : List Bool) : Nat := l.foldl (fun n b => 2 * n + b.toNat) 0

/-- Zeros are put behind a group that is too short. -/
def sextets : List Bool → List Nat
  | a :: b :: c :: d :: e :: f :: l => number [a, b, c, d, e, f] :: sextets l
  | [] => []
  | l => [number (l ++ List.replicate (6 - l.length) false)]

def encode {β : Type u} (digit : Nat → β) (padding : β) (data : Bytes) : List β :=
  (sextets (data.flatMap (fun c => bits 8 c.toNat))).map digit ++
    List.replicate ((3 - data.length % 3) % 3) padding

theorem bits_add (v w n : Nat) : bits (v + w) n = bits v (n / 2 ^ w) ++ bits w n := by
  induction v with
  | zero => rw [Nat.zero_add, bits, List.nil_append]
  | succ v ih =>
    rw [Nat.succ_add, bits, bits, ih, Nat.testBit_div_two_pow, List.cons_append]

theorem foldl_bits (w n m : Nat) :
    (bits w n).foldl (fun n b => 2 * n + b.toNat) m = m * 2 ^ w + n % 2 ^ w := by
  induction w generalizing m with
  | zero => simp [bits, Nat.mod_one]
  | succ w ih =>
    rw [bits, List.foldl_cons, ih, Nat.toNat_testBit, Nat.mod_pow_succ, Nat.pow_succ]
    ring

theorem number_bits (w n : Nat) : number (bits w n) = n % 2 ^ w := by
  rw [number, foldl_bits, Nat.zero_mul, Nat.zero_add]

theorem bits_mod {v w : Nat} (h : v ≤ w) (n : Nat) : bits v (n % 2 ^ w) = bits v n := by
  induction v with
  | zero => rfl
  | succ v ih =>
    rw [bits, bits, ih (by omega), Nat.testBit_mod_two_pow, decide_eq_true (show v < w by omega), Bool.true_and]

/-- The digits of a number are those of its upper and of its lower part. -/
theorem bits_append (v : Nat) {w y : Nat} (x : Nat) (hy : y < 2 ^ w) :
    bits v x ++ bits w y = bits (v + w) (x * 2 ^ w + y) := by
  have hdiv : (x * 2 ^ w + y) / 2 ^ w = x := by
    rw [Nat.mul_comm, Nat.mul_add_div (by positivity), Nat.div_eq_of_lt hy, Nat.add_zero]
  have hmod : (x * 2 ^ w + y) % 2 ^ w = y := by
    rw [Nat.mul_add_mod', Nat.mod_eq_of_lt hy]
  rw [bits_add, hdiv, ← bits_mod (le_refl w) (x * 2 ^ w + y), hmod]

theorem sextets_bits (n : Nat) (l : List Bool) : sextets (bits 6 n ++ l) = n % 64 :: sextets l := by
  have hnumber : number (bits 6 n) = n % 64 := number_bits 6 n
  rw [← hnumber]
  rfl

theorem bits_zero (w : Nat) : bits w 0 = List.replicate w false := by
  induction w with
  | zero => rfl
  | succ w ih => rw [bits, ih, Nat.zero_testBit, List.replicate_succ]

theorem sextets_short {w : Nat} (n : Nat) (hpos : 0 < w) (hshort : w < 6) :
    sextets (bits w n) = [n * 2 ^ (6 - w) % 64] := by
  have hfill : bits w n ++ List.replicate (6 - w) false = bits 6 (n * 2 ^ (6 - w)) := by
    rw [← bits_zero, bits_append w n (by positivity), Nat.add_zero, Nat.add_sub_cancel' hshort.le]
  have hgroup : sextets (bits w n) = [number (bits w n ++ List.replicate (6 - w) false)] := by
    interval_cases w <;> rfl
  rw [hgroup, hfill, number_bits]
  rfl

theorem encode_three {β : Type u} (digit : Nat → β) (padding : β) (a b c : UInt8) (data : Bytes) :
    encode digit padding (a :: b :: c :: data) =
      let n := a.toNat * 65536 + b.toNat * 256 + c.toNat
      digit (n / 262144 % 64) :: digit (n / 4096 % 64) :: digit (n / 64 % 64) :: digit (n % 64) ::
        encode digit padding data := by
  have hab : bits 8 a.toNat ++ bits 8 b.toNat = bits 16 (a.toNat * 2 ^ 8 + b.toNat) :=
    bits_append 8 _ b.toNat_lt
  have habc (x : Nat) : bits 16 x ++ bits 8 c.toNat = bits 24 (x * 2 ^ 8 + c.toNat) :=
    bits_append 16 x c.toNat_lt
  have hfour (n : Nat) :
      bits 24 n = bits 6 (n / 2 ^ 18) ++ (bits 6 (n / 2 ^ 12) ++ (bits 6 (n / 2 ^ 6) ++ bits 6 n)) := by
    rw [← bits_add 6 6 n]
    rw [← bits_add 6 12 n]
    exact bits_add 6 18 n
  have hn : (a.toNat * 2 ^ 8 + b.toNat) * 2 ^ 8 + c.toNat = a.toNat * 65536 + b.toNat * 256 + c.toNat := by ring
  have hpadding : (3 - (data.length + 3) % 3) % 3 = (3 - data.length % 3) % 3 := by omega
  simp only [encode, List.flatMap_cons, List.length_cons, hpadding]
  rw [← List.append_assoc, ← List.append_assoc, hab, habc, hn, hfour]
  simp only [List.append_assoc, sextets_bits, List.map_cons, List.cons_append]
  rfl

theorem encode_two {β : Type u} (digit : Nat → β) (padding : β) (a b : UInt8) :
    encode digit padding [a, b] =
      let n := a.toNat * 256 + b.toNat
      [digit (n / 1024 % 64), digit (n / 16 % 64), digit (n * 4 % 64), padding] := by
  have hab : bits 8 a.toNat ++ bits 8 b.toNat = bits 16 (a.toNat * 2 ^ 8 + b.toNat) :=
    bits_append 8 _ b.toNat_lt
  have hthree (n : Nat) : bits 16 n = bits 6 (n / 2 ^ 10) ++ (bits 6 (n / 2 ^ 4) ++ bits 4 n) := by
    rw [← bits_add 6 4 n]
    exact bits_add 6 10 n
  simp only [encode, List.flatMap_cons, List.flatMap_nil, List.append_nil, hab, hthree, sextets_bits]
  rw [sextets_short _ (by decide) (by decide)]
  rfl

theorem encode_one {β : Type u} (digit : Nat → β) (padding : β) (a : UInt8) :
    encode digit padding [a] =
      [digit (a.toNat / 4 % 64), digit (a.toNat * 16 % 64), padding, padding] := by
  have hbits : bits 8 a.toNat = bits 6 (a.toNat / 2 ^ 2) ++ bits 2 a.toNat := bits_add 6 2 _
  rw [encode, List.flatMap_cons, List.flatMap_nil, List.append_nil, hbits, sextets_bits,
    sextets_short _ (by decide) (by decide)]
  rfl

end Base64

end Acng.Lib
