import Acng.EncodeBase64
import Acng.Lib.Base64
import Acng.Proofs.Credentials

namespace Acng
open Lib

namespace EncodeBase64

theorem alphabet_mask (n : Nat) : alphabet (n &&& 0x3f) = base64Digit n := by
  have hmask : n &&& 0x3f = n % 64 := Nat.and_two_pow_sub_one_eq_mod n 6
  rw [alphabet, base64Digit, hmask]

theorem alphabet_top {n : Nat} (h : n < 2 ^ 24) : alphabet (n >>> 18) = base64Digit (n / 262144) := by
  rw [alphabet, base64Digit, Nat.shiftRight_eq_div_pow, Nat.mod_eq_of_lt (by omega)]

theorem step_first (a : UInt8) (out : Bytes) :
    step { out } a = { bits := a.toNat * 256, char_count := 1, out } := by
  have ha := a.toNat_lt
  have hbits : (((0 + a.toNat) % 2 ^ 32) <<< 8) % 2 ^ 32 = a.toNat * 256 := by
    rw [Nat.shiftLeft_eq]
    omega
  simp only [step, hbits]
  rw [if_neg (by decide)]

theorem step_second (a b : UInt8) (out : Bytes) :
    step { bits := a.toNat * 256, char_count := 1, out } b =
      { bits := (a.toNat * 256 + b.toNat) * 256, char_count := 2, out } := by
  have ha := a.toNat_lt
  have hb := b.toNat_lt
  have hbits : (((a.toNat * 256 + b.toNat) % 2 ^ 32) <<< 8) % 2 ^ 32 = (a.toNat * 256 + b.toNat) * 256 := by
    rw [Nat.shiftLeft_eq]
    omega
  simp only [step, hbits]
  rw [if_neg (by decide)]

/-- The third byte completes a group, and the bits are used up. -/
theorem step_third (a b c : UInt8) (out : Bytes) :
    step { bits := (a.toNat * 256 + b.toNat) * 256, char_count := 2, out } c =
      { out := out ++ encodeBase64 [a, b, c] } := by
  have ha := a.toNat_lt
  have hb := b.toNat_lt
  have hc := c.toNat_lt
  have hbits : ((a.toNat * 256 + b.toNat) * 256 + c.toNat) % 2 ^ 32 =
      a.toNat * 65536 + b.toNat * 256 + c.toNat := by
    omega
  have htop := alphabet_top (n := a.toNat * 65536 + b.toNat * 256 + c.toNat) (by omega)
  simp only [step, hbits, encodeBase64, alphabet_mask, htop]
  simp [Nat.shiftRight_eq_div_pow]

theorem tail_one (a : UInt8) (out : Bytes) :
    tail { bits := a.toNat * 256, char_count := 1, out } = out ++ encodeBase64 [a] := by
  have ha := a.toNat_lt
  have hbits : ((a.toNat * 256) <<< 8) % 2 ^ 32 = a.toNat * 65536 := by
    rw [Nat.shiftLeft_eq]
    omega
  have htop := alphabet_top (n := a.toNat * 65536) (by omega)
  simp only [tail, hbits, encodeBase64, alphabet_mask, htop]
  simp [Nat.shiftRight_eq_div_pow]

theorem tail_two (a b : UInt8) (out : Bytes) :
    tail { bits := (a.toNat * 256 + b.toNat) * 256, char_count := 2, out } = out ++ encodeBase64 [a, b] := by
  have ha := a.toNat_lt
  have hb := b.toNat_lt
  have hbits : (((a.toNat * 256 + b.toNat) * 256) <<< 0) % 2 ^ 32 = a.toNat * 65536 + b.toNat * 256 := by
    rw [Nat.shiftLeft_eq]
    omega
  have htop := alphabet_top (n := a.toNat * 65536 + b.toNat * 256) (by omega)
  simp only [tail, hbits, encodeBase64, alphabet_mask, htop]
  simp [Nat.shiftRight_eq_div_pow]

theorem foldl_step (data out : Bytes) : (data.foldl step { out }).tail = out ++ encodeBase64 data := by
  induction data using encodeBase64.induct generalizing out with
  | case1 a b c data ih =>
    rw [List.foldl_cons, List.foldl_cons, List.foldl_cons, step_first, step_second, step_third, ih]
    simp [encodeBase64]
  | case2 a b => rw [List.foldl_cons, List.foldl_cons, List.foldl_nil, step_first, step_second, tail_two]
  | case3 a => rw [List.foldl_cons, List.foldl_nil, step_first, tail_one]
  | case4 => simp [tail, encodeBase64]

theorem run_eq (data : Bytes) (len : Nat) : run data len = encodeBase64 (data.take len) :=
  foldl_step _ []

end EncodeBase64

theorem encodeBase64_bits (data : Bytes) :
    encodeBase64 data = Base64.encode EncodeBase64.alphabet 61 data := by
  induction data using encodeBase64.induct with
  | case1 a b c data ih =>
    rw [encodeBase64, Base64.encode_three, ih]
    rfl
  | case2 a b =>
    have h1 : (a.toNat * 65536 + b.toNat * 256) / 262144 = (a.toNat * 256 + b.toNat) / 1024 := by omega
    have h2 : (a.toNat * 65536 + b.toNat * 256) / 4096 = (a.toNat * 256 + b.toNat) / 16 := by omega
    have h3 : (a.toNat * 65536 + b.toNat * 256) / 64 = (a.toNat * 256 + b.toNat) * 4 := by omega
    simp only [encodeBase64, Base64.encode_two, h1, h2, h3]
    rfl
  | case3 a =>
    have h1 : a.toNat * 65536 / 262144 = a.toNat / 4 := by omega
    have h2 : a.toNat * 65536 / 4096 = a.toNat * 16 := by omega
    simp only [encodeBase64, Base64.encode_one, h1, h2]
    rfl
  | case4 => rfl

theorem encodeBase64_length (data : Bytes) : (encodeBase64 data).length = 4 * ((data.length + 2) / 3) := by
  induction data using encodeBase64.induct with
  | case1 a b c data ih =>
    simp only [encodeBase64, List.length_cons, ih]
    omega
  | case2 a b => simp [encodeBase64]
  | case3 a => simp [encodeBase64]
  | case4 => rfl

theorem EncodeBase64.run_correct (data : Bytes) (hlen : data.length < 2 ^ 32) :
    let out := run data (data.length % 2 ^ 32)
    out = Base64.encode alphabet 61 data ∧ out.length = 4 * ((data.length + 2) / 3) ∧
      decodeBase64 out = some data ∧
      ∀ other : Bytes, other.length < 2 ^ 32 → run other (other.length % 2 ^ 32) = out → other = data := by
  have hrun : ∀ other : Bytes, other.length < 2 ^ 32 →
      run other (other.length % 2 ^ 32) = encodeBase64 other := by
    intro other h
    rw [run_eq, Nat.mod_eq_of_lt h, List.take_length]
  intro out
  have hout : out = encodeBase64 data := hrun data hlen
  rw [hout]
  refine ⟨encodeBase64_bits data, encodeBase64_length data, decodeBase64_encodeBase64 data, ?_⟩
  intro other h hsame
  exact HttpUrl.encodeBase64_injective ((hrun other h).symm.trans hsame)

theorem EncodeBase64.run_correct_two :
    run [77, 97] 2 = lit "TWE=" ∧ decodeBase64 (run [77, 97] 2) = some [77, 97] := by
  have h := EncodeBase64.run_correct [77, 97] (by decide)
  exact ⟨h.1.trans (by decide), h.2.2.1⟩

end Acng
