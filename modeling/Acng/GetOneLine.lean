import Acng.FileReader

namespace Acng
open Lib

/-- A call of a decompression library that goes well: the input that it uses and the bytes that it writes. -/
structure Delivery where
  used : Nat
  piece : Bytes

inductive StreamEnding
  | complete | premature | corrupt
deriving DecidableEq, Repr

/-- The state of a stream in a library: what it is going to deliver, and how it ends. -/
structure Strm where
  deliveries : List Delivery
  ending : StreamEnding

inductive DecRet
  | ok | streamEnd | error
deriving DecidableEq, Repr

/-- What a call gives. -/
structure DecCall where
  ret : DecRet
  used : Nat
  out : Bytes
  strm : Strm

/-- A call with so much space. What does not fit is held back. Without more input and without a byte to write the
libraries return different values. -/
def Strm.call (noInput : DecRet) (strm : Strm) (availOut : Nat) : DecCall :=
  match strm.deliveries with
  | [] =>
    let ret := match strm.ending with
      | .complete => .streamEnd
      | .premature => noInput
      | .corrupt => .error
    ⟨ret, 0, [], strm⟩
  | delivery :: deliveries =>
    if availOut < delivery.piece.length then
      ⟨.ok, delivery.used, delivery.piece.take availOut,
        { strm with deliveries := ⟨0, delivery.piece.drop availOut⟩ :: deliveries }⟩
    else
      ⟨if deliveries.isEmpty && strm.ending == .complete then .streamEnd else .ok, delivery.used,
        delivery.piece, { strm with deliveries }⟩

/-- `BZ_OK` -/
def bzDecompress : Strm → Nat → DecCall := Strm.call .ok

/-- `Z_BUF_ERROR` -/
def inflate : Strm → Nat → DecCall := Strm.call .error

/-- `LZMA_BUF_ERROR`, with `LZMA_FINISH` -/
def lzmaCode : Strm → Nat → DecCall := Strm.call .error

/-- The window of a reader. In front of each call of `UncompMore` its data is moved to the beginning. -/
structure UncompBuf where
  data : Bytes := []
  totalcapa : Nat := 4095

def UncompBuf.freecapa (buf : UncompBuf) : Nat := buf.totalcapa - buf.data.length

inductive DecompressorType
  | tBzDec | tGzDec | tXzDec
deriving DecidableEq, Repr

structure Decompressor where
  type : DecompressorType
  strm : Strm
  eof : Bool := false

def DecompressorType.library : DecompressorType → Strm → Nat → DecCall
  | tBzDec => bzDecompress
  | tGzDec => inflate
  | tXzDec => lzmaCode

/-- `UncompMore`, which is the same for all libraries. -/
def Decompressor.uncompMore (dec : Decompressor) (nBufPos : Nat) (buf : UncompBuf) :
    Bool × Decompressor × Nat × UncompBuf :=
  let call := dec.type.library dec.strm buf.freecapa
  match call.ret with
  | .error => (false, { dec with strm := call.strm, eof := true }, nBufPos, buf)
  | ret =>
    (true, { dec with strm := call.strm, eof := ret == .streamEnd }, nBufPos + call.used,
      { buf with data := buf.data ++ call.out })

structure FileReader where
  szFileBuf : Bytes := []
  nBufPos : Nat := 0
  nEofLines : Int := 0
  dec : Option Decompressor := none
  uncompBuf : UncompBuf := {}
  bError : Bool := false
  bEof : Bool := false

/-- The end of a line in a buffer: its length, and how much is dropped. The second one of two characters is taken
along when it is from another kind. -/
def findNewline (buf : Bytes) : Option (Nat × Nat) :=
  (buf.findIdx? lineEnd).map fun nLineLen =>
    (nLineLen, match buf.drop nLineLen with
      | c :: d :: _ => if c + d = 13 + 10 then nLineLen + 2 else nLineLen + 1
      | _ => nLineLen + 1)

namespace FileReader

/-- The part of `GetOneLine` that uncompresses. A forced call needs some space. -/
def refill (rd : FileReader) (dec : Decompressor) (bForceUncompress : Bool) : Option (FileReader × Decompressor) :=
  if (rd.nBufPos = 0 || bForceUncompress) && !dec.eof then
    let full := bForceUncompress && rd.uncompBuf.freecapa = 0
    if full && 256 * 1024 ≤ rd.uncompBuf.totalcapa then none
    else
      let buf := if full then { rd.uncompBuf with totalcapa := rd.uncompBuf.totalcapa * 2 } else rd.uncompBuf
      let (ok, dec, nBufPos, uncompBuf) := dec.uncompMore rd.nBufPos buf
      some ({ rd with nBufPos, uncompBuf, dec := some dec, bError := !ok }, dec)
  else some (rd, dec)

/-- The rest of `GetOneLine` on a file as it is. -/
def plainLine (rd : FileReader) : Bool × Bytes × FileReader :=
  let rd := if rd.szFileBuf.length ≤ rd.nBufPos then { rd with bEof := true } else rd
  let rest := if rd.bEof then [] else rd.szFileBuf.drop rd.nBufPos
  match findNewline rest with
  | some (nLineLen, nDropLen) => (true, rest.take nLineLen, { rd with nBufPos := rd.nBufPos + nDropLen })
  | none => (true, rest, { rd with nBufPos := rd.nBufPos + rest.length })

/-- The rest of `GetOneLine` on the window, or none if it has to unpack more. -/
def windowLine (rd : FileReader) (dec : Decompressor) : Option (Bool × Bytes × FileReader) :=
  match findNewline rd.uncompBuf.data with
  | some (nLineLen, nDropLen) =>
    some (true, rd.uncompBuf.data.take nLineLen,
      { rd with uncompBuf := { rd.uncompBuf with data := rd.uncompBuf.data.drop nDropLen } })
  | none =>
    if dec.eof then
      -- it's the final buffer
      some (true, rd.uncompBuf.data, { rd with bEof := true, uncompBuf := { rd.uncompBuf with data := [] } })
    else none

/-- `GetOneLine` with so many calls of itself at most. -/
def getOneLine : Nat → FileReader → Bool → Option (Bool × Bytes × FileReader)
  | 0, _, _ => none
  | fuel + 1, rd, bForceUncompress =>
    if rd.bEof && 0 < rd.nEofLines then some (true, [], { rd with nEofLines := rd.nEofLines - 1 })
    else if rd.bEof then some (false, [], { rd with nEofLines := rd.nEofLines - 1 })
    else if rd.bError then some (false, [], rd)
    else
      match rd.dec with
      | none => some rd.plainLine
      | some dec =>
        match rd.refill dec bForceUncompress with
        | none => some (false, [], { rd with bError := true })
        | some (rd, dec) => (rd.windowLine dec).or (getOneLine fuel rd true)

/-- The lines of all calls up to the one that returns false. -/
def readLines (fuel : Nat) : Nat → FileReader → Option (List Bytes × FileReader)
  | 0, _ => none
  | calls + 1, rd =>
    match rd.getOneLine fuel false with
    | none => none
    | some (false, _, rd) => some ([], rd)
    | some (true, line, rd) => (readLines fuel calls rd).map (fun (lines, rd) => (line :: lines, rd))

/-- `GetChecksum` with so many calls of `UncompMore` at most: its result and the data that is summed up. -/
def getChecksumLoop : Nat → FileReader → Decompressor → Bytes → Option (Bool × Bytes × FileReader)
  | 0, _, _, _ => none
  | fuel + 1, rd, dec, data =>
    let (ok, dec, nBufPos, uncompBuf) := dec.uncompMore rd.nBufPos rd.uncompBuf
    let rd := { rd with nBufPos, dec := some dec }
    if !ok then some (false, data, { rd with uncompBuf, bError := true })
    else
      let data := data ++ uncompBuf.data
      let rd := { rd with uncompBuf := { uncompBuf with data := [] } }
      if dec.eof then
        let rd := { rd with bEof := true }
        some (!rd.bError, data, rd)
      else getChecksumLoop fuel rd dec data

def getChecksum (fuel : Nat) (rd : FileReader) : Option (Bool × Bytes × FileReader) :=
  match rd.dec with
  | none => some (!rd.bError, rd.szFileBuf, rd)
  | some dec => getChecksumLoop fuel rd dec []

end FileReader

end Acng
