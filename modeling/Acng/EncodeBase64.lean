import Acng.UrlEscape

namespace Acng
open Lib

/-- The locals of the built-in `EncodeBase64`. `bits` has 32 bits. -/
structure EncodeBase64 where
  bits : Nat := 0
  char_count : Nat := 0
  out : Bytes := []

namespace EncodeBase64

/-- `alphabet[n]`, of which the last byte is the zero behind the text. -/
def alphabet (n : Nat) : UInt8 := base64Alphabet.getD n 0

def step (st : EncodeBase64) (c : UInt8) : EncodeBase64 :=
  let bits := (st.bits + c.toNat) % 2 ^ 32
  if st.char_count + 1 = 3 then
    { out := st.out ++ [alphabet (bits >>> 18), alphabet ((bits >>> 12) &&& 0x3f),
        alphabet ((bits >>> 6) &&& 0x3f), alphabet (bits &&& 0x3f)] }
  else { st with bits := (bits <<< 8) % 2 ^ 32, char_count := st.char_count + 1 }

/-- What is left over is written with the padding. -/
def tail (st : EncodeBase64) : Bytes :=
  if st.char_count ≠ 0 then
    let bits := (st.bits <<< (16 - 8 * st.char_count)) % 2 ^ 32
    st.out ++ [alphabet (bits >>> 18), alphabet ((bits >>> 12) &&& 0x3f)] ++
      if st.char_count = 1 then [61, 61] else [alphabet ((bits >>> 6) &&& 0x3f), 61]
  else st.out

/-- The function itself, for an unsigned length. -/
def run (data : Bytes) (len : Nat) : Bytes := ((data.take len).foldl step {}).tail

end EncodeBase64

end Acng
