import Acng.DlJob

namespace Acng
open Lib

/-- A chunk-size line in front of its CRLF: hex digits of a value that fits
`off_t`, and an optional extension. -/
structure SizeLine where
  size : Bytes
  ext : Bytes
  size_ne : size ≠ []
  size_hex : ∀ c ∈ size, isxdigit c = true
  size_fits : hexadecimal size < 2 ^ 63
  ext_start : ∀ c, ext.head? = some c → c = 59 ∨ c = 32 ∨ c = 9
  ext_line : 13 ∉ ext ∧ 10 ∉ ext

namespace SizeLine

theorem no_ext_start (c : UInt8) (h : ([] : Bytes).head? = some c) : c = 59 ∨ c = 32 ∨ c = 9 := by
  cases h

theorem no_ext_line : (13 : UInt8) ∉ ([] : Bytes) ∧ (10 : UInt8) ∉ ([] : Bytes) :=
  ⟨List.not_mem_nil, List.not_mem_nil⟩

/-- A size line with nothing but a number. -/
def plain (size : Bytes) (h : size ≠ [] ∧ (∀ c ∈ size, isxdigit c = true) ∧ hexadecimal size < 2 ^ 63) :
    SizeLine where
  size := size
  ext := []
  size_ne := h.1
  size_hex := h.2.1
  size_fits := h.2.2
  ext_start := no_ext_start
  ext_line := no_ext_line

def value (l : SizeLine) : Nat := hexadecimal l.size

def encode (l : SizeLine) : Bytes := l.size ++ l.ext ++ crlf

/-- What the decoder asks of a size line beyond the grammar. -/
def Readable (l : SizeLine) : Prop := l.value < 2 ^ 32 ∧ 0 ∉ l.ext

instance (l : SizeLine) : Decidable l.Readable := inferInstanceAs (Decidable (_ ∧ _))

end SizeLine

structure Chunk extends SizeLine where
  data : Bytes
  data_length : data.length = toSizeLine.value
  data_ne : data ≠ []

def Chunk.encode (c : Chunk) : Bytes := c.toSizeLine.encode ++ c.data ++ crlf

/-- `chunk* last-chunk trailer-lines CRLF` of RFC 7230. -/
structure ChunkedBody where
  chunks : List Chunk
  last : SizeLine
  trailers : List Bytes
  last_zero : last.value = 0
  trailers_line : ∀ t ∈ trailers, t ≠ [] ∧ 13 ∉ t ∧ 10 ∉ t

namespace ChunkedBody

theorem no_trailers : ∀ t ∈ ([] : List Bytes), t ≠ [] ∧ 13 ∉ t ∧ 10 ∉ t := List.forall_mem_nil _

def encodeTrailers (ts : List Bytes) : Bytes := ts.flatMap (· ++ crlf) ++ crlf

def encode (b : ChunkedBody) : Bytes :=
  b.chunks.flatMap Chunk.encode ++ b.last.encode ++ encodeTrailers b.trailers

def data (b : ChunkedBody) : Bytes := b.chunks.flatMap Chunk.data

/-- All sizes fit 32 bits and no line holds a NUL. -/
def Readable (b : ChunkedBody) : Prop :=
  (∀ c ∈ b.chunks, c.Readable) ∧ b.last.Readable ∧ ∀ t ∈ b.trailers, 0 ∉ t

instance (b : ChunkedBody) : Decidable b.Readable := inferInstanceAs (Decidable (_ ∧ _))

end ChunkedBody

inductive Framing
  | plain (body : Bytes)
  | chunked (b : ChunkedBody)

namespace Framing

def encode : Framing → Bytes
  | plain body => body
  | chunked b => b.encode

def body : Framing → Bytes
  | plain body => body
  | chunked b => b.data

/-- The head announces this framing, and the decoder can follow it. -/
def Matches (h : Header) : Framing → Prop
  | plain body => Dl.isChunked h = false ∧ Dl.fieldNum h .contentLength (-1) = body.length
  | chunked b => Dl.isChunked h = true ∧ b.Readable

end Framing

/-- A final 200 response whose head `header::Load` accepts. -/
structure Response where
  head : Bytes
  hd : Header
  framing : Framing
  loaded : (Header.load head).1 = head.length ∧ (Header.load head).2.hd = hd
  head_ne : head ≠ []
  answer : hd.type = .answer
  code : hd.status.code = 200
  framed : framing.Matches hd

namespace Response

def encode (r : Response) : Bytes := r.head ++ r.framing.encode

def body (r : Response) : Bytes := r.framing.body

end Response

/-- Default settings and a date library that understands nothing. -/
def plainEnv : Env := { dates := ⟨fun _ => none, id⟩ }

def plainHead : Bytes := lit "HTTP/1.1 200 OK\r\nContent-Length: 3\r\n\r\n"

/-- A response framed by its length. -/
def plainAnswer : Response where
  head := plainHead
  hd := (Header.load plainHead).2.hd
  framing := .plain (lit "abc")
  loaded := ⟨by decide +kernel, rfl⟩
  head_ne := by decide
  answer := by decide +kernel
  code := by decide +kernel
  framed := ⟨by decide +kernel, by decide +kernel⟩

def chunkedHead : Bytes := lit "HTTP/1.1 200 OK\r\nTransfer-Encoding: chunked\r\n\r\n"

/-- A response in one chunk, with an extension and a trailer. -/
def chunkedAnswer : Response where
  head := chunkedHead
  hd := (Header.load chunkedHead).2.hd
  framing := .chunked {
    chunks := [
      { size := lit "5", ext := lit ";x=y", size_ne := by decide +kernel, size_hex := by decide +kernel
        size_fits := by decide +kernel, ext_start := by decide +kernel, ext_line := by decide +kernel
        data := lit "hello", data_length := by decide +kernel, data_ne := by decide +kernel }]
    last := { size := lit "0", ext := [], size_ne := by decide +kernel, size_hex := by decide +kernel
              size_fits := by decide +kernel, ext_start := by simp, ext_line := by decide +kernel }
    trailers := [lit "A: b"]
    last_zero := by decide +kernel
    trailers_line := by decide +kernel }
  loaded := ⟨by decide +kernel, rfl⟩
  head_ne := by decide +kernel
  answer := by decide +kernel
  code := by decide +kernel
  framed := ⟨by decide +kernel, by decide +kernel⟩

end Acng
