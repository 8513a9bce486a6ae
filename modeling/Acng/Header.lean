import Acng.Lib.Numeral

namespace Acng
open Lib

structure RemoteStatus where
  code : Int := 500
  msg : Bytes := []
deriving DecidableEq, Repr

namespace RemoteStatus

def isRedirect (s : RemoteStatus) : Bool :=
  s.code == 301 || s.code == 302 || s.code == 303 || s.code == 307 || s.code == 308

/-- `svtol` on a token that a separator follows: the number ends inside the
token or at the separator, and only a NUL right behind it is an error. -/
def svtol (tok : Bytes) : Int :=
  let (_, r) := sign tok
  let digits := r.takeWhile isdigit
  let stop := if digits.isEmpty then tok else r.dropWhile isdigit
  if stop.head? == some 0 then 0 else strtoll tok

/-- The status line behind the protocol version. A token at the very end of
the view has no message behind it and is refused whatever its number is. -/
def parse (s : Bytes) (errorCode : Int) : RemoteStatus :=
  let input := s.dropWhile isspace
  let tok := input.takeWhile (fun c => !isspace c)
  let msg := trimBoth (input.dropWhile (fun c => !isspace c))
  let code := toInt32 (svtol tok)
  if tok.isEmpty || code == 0 || msg.isEmpty then
    { code := errorCode, msg := lit "Invalid header line" }
  else { code, msg }

end RemoteStatus

/-- The known head fields, in the order of the source's table. -/
inductive HeadPos
  | connection | contentLength | ifModifiedSince | range | ifRange
  | contentRange | lastModified | proxyConnection | transferEncoding | xOrig
  | authorization | xForwardedFor | location | contentType | cacheControl
deriving DecidableEq, Repr

def HeadPos.all : List HeadPos :=
  [.connection, .contentLength, .ifModifiedSince, .range, .ifRange,
   .contentRange, .lastModified, .proxyConnection, .transferEncoding, .xOrig,
   .authorization, .xForwardedFor, .location, .contentType, .cacheControl]

def mapId2Headname : HeadPos → Bytes
  | .connection => lit "Connection"
  | .contentLength => lit "Content-Length"
  | .ifModifiedSince => lit "If-Modified-Since"
  | .range => lit "Range"
  | .ifRange => lit "If-Range"
  | .contentRange => lit "Content-Range"
  | .lastModified => lit "Last-Modified"
  | .proxyConnection => lit "Proxy-Connection"
  | .transferEncoding => lit "Transfer-Encoding"
  | .xOrig => lit "X-Original-Source"
  | .authorization => lit "Authorization"
  | .xForwardedFor => lit "X-Forwarded-For"
  | .location => lit "Location"
  | .contentType => lit "Content-Type"
  | .cacheControl => lit "Cache-Control"

inductive HeadType
  | invalid | head | get | post | connect | answer
deriving DecidableEq, Repr

/-- A parsed head. The fields are C strings, so a stored value ends before its
first NUL; `none` is the null pointer. -/
structure Header where
  h : HeadPos → Option Bytes := fun _ => none
  type : HeadType := .invalid
  proto : UInt8 := 49
  status : RemoteStatus := {}

/-- What the parser remembers of the line before a continuation line. -/
inductive LastSet
  | max | unkExport | pos (p : HeadPos)
deriving DecidableEq, Repr

/-- Unknown fields in order; an empty key continues the value before it. -/
abbrev UnkMap := Option (List (Bytes × Bytes))

namespace Header

def set (hd : Header) (p : HeadPos) (v : Option Bytes) : Header :=
  { hd with h := fun q => if q = p then v.map cstr else hd.h q }

def del (hd : Header) (p : HeadPos) : Header := hd.set p none

def setStatus (hd : Header) (code : Int) (msg : Bytes) : Header := { hd with status := { code, msg } }

def resolvePos (key : Bytes) : Option HeadPos :=
  HeadPos.all.find? (fun p => caseEq (mapId2Headname p) key)

/-- State of the line loop of `Load`. -/
structure LineState where
  hd : Header
  lastSetId : LastSet := .max
  unk : UnkMap := none

/-- The first line; `none` is the `return false` that waits for more input. -/
def firstLine (hd : Header) (it : Bytes) : Option Header :=
  if hd.type = .answer then
    let st := RemoteStatus.parse it (-1)
    if st.code < 0 then none else some { hd with status := st }
  else
    let it := trimBoth it
    if it.length < 10 then none
    else
      let url := trimBack (it.take (it.length - 9))
      if url.isEmpty then none
      else some { hd with proto := it.getLast?.getD 0, status := { code := -1, msg := url } }

/-- A folded line is appended to the field before it. A continuation of a field
that an empty value has cleared would pass a null pointer to `strappend`; the
model lets that call fail, like one that runs out of memory. -/
def foldLine (st : LineState) (sv : Bytes) : Except Int LineState :=
  match st.lastSetId with
  | .unkExport => .ok { st with unk := st.unk.map (· ++ [([], sv)]) }
  | .max => .error (-2)
  | .pos p =>
    match st.hd.h p with
    | none => .error (-3)
    | some old => .ok { st with hd := st.hd.set p (some (old ++ 32 :: sv)) }

/-- A `key: value` line. The error codes apply when another line follows. -/
def fieldLine (st : LineState) (sv : Bytes) : Except Int LineState :=
  match find [58] sv with
  | none => .error (-4)
  | some pos =>
    let key := trimBack (sv.take pos)
    let value := trimFront (sv.drop (pos + 1))
    if key.isEmpty then .error (-5)
    else
      match resolvePos key with
      | none =>
        match st.unk with
        | some l => .ok { st with unk := some (l ++ [(key, value)]), lastSetId := .unkExport }
        | none => .ok { st with lastSetId := .max }
      | some p =>
        .ok { st with
          hd := if value.isEmpty then st.hd.del p else st.hd.set p (some value), lastSetId := .pos p }

/-- A line that starts with white space and is not blank continues the last one. -/
def isFolded (it : Bytes) : Bool := it.head?.any isspace && !(trimBack it).isEmpty

/-- The loop over the lines behind the first one. `pos` is the offset of the
current line, so that the result points just behind the empty line. -/
def loadLines (st : LineState) (pos : Nat) : List Bytes → Int × LineState
  | [] => (0, st)
  | it :: rest =>
    if it.isEmpty then
      -- only a newline ahead makes it a good end
      if rest.isEmpty then (0, st) else (pos + 2, st)
    else if isFolded it then
      match foldLine st (trimBoth it) with
      | .error e => (e, st)
      | .ok st' => loadLines st' (pos + it.length + 2) rest
    else
      match fieldLine st (trimBoth it) with
      | .error e => (if rest.isEmpty then 0 else e, st)
      | .ok st' => loadLines st' (pos + it.length + 2) rest

/-- Type, protocol and length of the prefix that tells them. -/
def frontType (input : Bytes) : Option (HeadType × Option UInt8 × Nat) :=
  if (lit "HTTP/1.").isPrefixOf input then some (.answer, input[7]?, 8)
  else if (lit "GET ").isPrefixOf input then some (.get, none, 4)
  else if (lit "HEAD ").isPrefixOf input then some (.head, none, 5)
  else if (lit "POST ").isPrefixOf input then some (.post, none, 5)
  else if (lit "CONNECT ").isPrefixOf input then some (.connect, none, 8)
  else none

/-- `header::Load` on a fresh object: the length of the head, 0 for an
incomplete one, negative for an error. -/
def load (input : Bytes) (unk : UnkMap := none) : Int × LineState :=
  let fresh : LineState := { hd := {}, unk }
  if input.length < 9 then (0, fresh)
  else
    match frontType input with
    | none => (-1, fresh)
    | some (type, proto, n) =>
      let hd : Header := { type, proto := proto.getD 49 }
      match slices crlf 0 (input.drop n) with
      | [] => (0, { fresh with hd })
      | it :: rest =>
        match firstLine hd it with
        | none => (0, { fresh with hd })
        | some hd => loadLines { fresh with hd } (n + it.length + 2) rest

end Header

/-- Date parsing and formatting, which the C library does. -/
structure DateLib where
  parseDate : Bytes → Option Int
  formatNorm : Bytes → Bytes

/-- `tHttpDate`: the text as it came, or normalised if it was too long. -/
structure HttpDate where
  buf : Bytes := []
deriving DecidableEq, Repr

namespace HttpDate

def isSet (d : HttpDate) : Bool := !d.buf.isEmpty

/-- The constructor from a C string; a null pointer gives an unset date. -/
def ofCStr (lib : DateLib) (s : Option Bytes) : HttpDate :=
  match s with
  | none => {}
  | some s => if s.length < 30 then ⟨s⟩ else ⟨if (lib.parseDate s).isSome then lib.formatNorm s else []⟩

def value (lib : DateLib) (d : HttpDate) (ifBad : Int) : Int :=
  if d.isSet then (lib.parseDate d.buf).getD ifBad else ifBad

/-- `operator==` between dates: the same text, or the same point in time. -/
def eq (lib : DateLib) (a b : HttpDate) : Bool :=
  if a.isSet != b.isSet then false
  else if a.buf == b.buf then true
  else a.value lib (-1) == b.value lib (-2)

/-- `operator==` with a C string, of which `strncmp` sees 30 bytes. -/
def eqStr (lib : DateLib) (a : HttpDate) (s : Option Bytes) : Bool :=
  let otherSet := s.any (fun t => !t.isEmpty)
  if a.isSet then
    if !otherSet then false
    else if (s.getD []).take 30 == a.buf.take 30 then true
    else a.value lib (-1) == (lib.parseDate (s.getD [])).getD (-2)
  else !otherSet

end HttpDate

end Acng
