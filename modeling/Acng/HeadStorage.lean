import Acng.Displacement
import Acng.Lib.Lines

namespace Acng
open Lib

/-- The constructor from a view. A date is not set if its first byte is a NUL. -/
def HttpDate.ofView (lib : DateLib) (val : Bytes) : HttpDate :=
  if val.head? = some 0 then {}
  else if val.length < 30 then ⟨val⟩
  else ⟨if (lib.parseDate (cstr val)).isSome then lib.formatNorm (cstr val) else []⟩

/-- The variables that `ParseHeadFromStorage` fills. -/
structure HeadValues where
  contLen : Int := -1
  lastModified : HttpDate := {}
  origSrc : Bytes := []
deriving DecidableEq, Repr

/-- The pointers that are still set. -/
structure HeadWants where
  contLen : Bool := true
  lastModified : Bool := true
  origSrc : Bool := true
deriving DecidableEq, Repr

def contLenPfx : Bytes := lit "Content-Length:"
def laMoPfx : Bytes := lit "Last-Modified: "
def origSrcPfx : Bytes := lit "X-Original-Source: "

/-- The loop of `ParseHeadFromStorage`. The first match of a field wins. The number is read from
the buffer and not from its line. -/
def parseHeadLines (lib : DateLib) (v : HeadValues) (w : HeadWants) : List Bytes → HeadValues
  | [] => v
  | it :: rest =>
    if it.isEmpty then v
    else if w.contLen && contLenPfx.isPrefixOf it then
      parseHeadLines lib { v with contLen := strtoll ((crlf.intercalate (it :: rest)).drop 15) }
        { w with contLen := false } rest
    else if w.lastModified && laMoPfx.isPrefixOf it then
      parseHeadLines lib
        { v with lastModified := .ofView lib (trimBoth (it.drop laMoPfx.length)) }
        { w with lastModified := false } rest
    else if w.origSrc && origSrcPfx.isPrefixOf it then
      parseHeadLines lib { v with origSrc := trimBoth (it.drop origSrcPfx.length) }
        { w with origSrc := false } rest
    else parseHeadLines lib v w rest

/-- `ParseHeadFromStorage` on the contents of the buffer. -/
def parseHead (lib : DateLib) (v : HeadValues) (w : HeadWants) (buf : Bytes) : Bool × HeadValues :=
  if buf.isEmpty then (false, v)
  else
    match slices crlf 0 buf with
    | [] => (false, v)
    | first :: lines =>
      if !(lit "HTTP/1.1 200").isPrefixOf first then (false, v)
      else (true, parseHeadLines lib v w lines)

/-- Result of one `read`: bytes, an interruption, or another error. -/
inductive ReadResult
  | got (n : Nat)
  | interrupted
  | failed
deriving DecidableEq, Repr

/-- What reading a head file meets: whether it can be opened and memory is there, the size
that `stat` tells, and the results of `read`. Behind the end of the list there is nothing
left to read. -/
structure ReadIo where
  opened : Bool := true
  memory : Bool := true
  size : Nat
  reads : List ReadResult

/-- The loop of `initFromFile`, with `w` bytes in the buffer. An early end of the file is no
error there: the loop does not end then. -/
def readLoop (capacity avail w : Nat) : List ReadResult → Option (Bool × Nat)
  | [] => if capacity ≤ w then some (true, w) else none
  | r :: rs =>
    if capacity ≤ w then some (true, w)
    else
      match r with
      | .got n => readLoop capacity avail (w + min n (min (capacity - w) (avail - w))) rs
      | .interrupted => readLoop capacity avail w rs
      | .failed => some (false, w)

/-- `acbuf::initFromFile`: the buffer if all of the file was read. The capacity is an
unsigned int. -/
def initFromFile (file : Option Bytes) (io : ReadIo) : Option (Option Bytes) :=
  match file with
  | none => some none
  | some file =>
    if !io.opened || !io.memory then some none
    else
      match readLoop (io.size % 2 ^ 32) file.length 0 io.reads with
      | none => none
      | some (false, _) => some none
      | some (true, w) => some (if w = io.size then some (file.take w) else none)

/-- `ParseHeadFromStorage`. A failure to read is answered with -1, which is true as a bool. -/
def parseHeadFromStorage (lib : DateLib) (v : HeadValues) (w : HeadWants) (file : Option Bytes)
    (io : ReadIo) : Option (Bool × HeadValues) :=
  (initFromFile file io).map (fun
    | none => (true, v)
    | some buf => parseHead lib v w buf)

/-- The text that `StoreHeadToStorage` formats. -/
def formatHead (contLen : Int) (lastModified : Option HttpDate) (origSrc : Option Bytes) : Bytes :=
  lit "HTTP/1.1 200 OK\r\n" ++
    (if 0 ≤ contLen then lit "Content-Length: " ++ dec contLen ++ crlf else []) ++
    (match lastModified with
      | some d => if d.isSet then lit "Last-Modified: " ++ d.buf ++ crlf else []
      | none => []) ++
    (match origSrc with
      | some o => if o.isEmpty then [] else lit "X-Original-Source: " ++ o ++ crlf
      | none => []) ++
    crlf

/-- Result of one `write` to the head file. -/
inductive DumpResult
  | wrote (n : Nat)
  | again
  | failed
deriving DecidableEq, Repr

inductive CloseResult
  | closed | interrupted | failed
deriving DecidableEq, Repr

/-- One pass of the loop that ends the writing. -/
structure EndResult where
  lseek : Bool := true
  ftruncate : Bool := true
  close : CloseResult := .closed
deriving DecidableEq, Repr

structure DumpIo where
  opened : Bool := true
  writes : List DumpResult
  ends : List EndResult
deriving DecidableEq, Repr

/-- `acbuf::dumpall` to a descriptor: whether all was written, and how much. -/
def dumpLoop (limit done : Nat) : List DumpResult → Option (Bool × Nat)
  | [] => if limit = 0 then some (true, done) else none
  | r :: rs =>
    if limit = 0 then some (true, done)
    else
      match r with
      | .wrote n => if n = 0 || limit < n then some (false, done) else dumpLoop (limit - n) (done + n) rs
      | .again => dumpLoop limit done rs
      | .failed => some (false, done)

/-- The end of `acbuf::dumpall` to a path: whether it succeeds, and whether the file was cut
off at the write position. -/
def endLoop (truncated : Bool) : List EndResult → Option (Bool × Bool)
  | [] => none
  | e :: es =>
    if !e.lseek || !e.ftruncate then some (false, truncated)
    else
      match e.close with
      | .closed => some (true, true)
      | .interrupted => endLoop true es
      | .failed => some (false, true)

/-- `INT_MAX` is the limit, and the size of the buffer is an unsigned int. -/
def dumpLimit (text : Bytes) : Nat := min (text.length % 2 ^ 32) (2 ^ 31 - 1)

/-- The file when `k` bytes were written over it. -/
def overwritten (text old : Bytes) (k : Nat) (truncated : Bool) : Bytes :=
  text.take k ++ if truncated then [] else old.drop k

/-- `acbuf::dumpall` to a path: the result, and the file. -/
def dumpall (text : Bytes) (file : Option Bytes) (io : DumpIo) : Option (Int × Option Bytes) :=
  if !io.opened then some (-1, file)
  else
    let old := file.getD []
    match dumpLoop (dumpLimit text) 0 io.writes with
    | none => none
    | some (false, k) => some (-1, some (overwritten text old k false))
    | some (true, k) =>
      match endLoop false io.ends with
      | none => none
      | some (ok, truncated) =>
        some (if ok then dumpLimit text else -1, some (overwritten text old k truncated))

/-- `StoreHeadToStorage`. The number of bytes, or -1, becomes a bool. -/
def storeHeadToStorage (path : Bytes) (file : Option Bytes) (io : DumpIo) (contLen : Int)
    (lastModified : Option HttpDate) (origSrc : Option Bytes) : Option (Bool × Option Bytes) :=
  if path.isEmpty then some (false, file)
  else
    (dumpall (formatHead contLen lastModified origSrc) file io).map (fun (ret, file) => (ret ≠ 0, file))

/-- A head file that is written over an old one and then read. -/
structure HeadRun where
  path : Bytes
  file : Option Bytes := none
  dump : DumpIo
  read : ReadIo

/-- Both results, and the values that were read. -/
def storeThenParse (lib : DateLib) (run : HeadRun) (contLen : Int) (lastModified : HttpDate)
    (origSrc : Bytes) : Option (Bool × Bool × HeadValues) :=
  match storeHeadToStorage run.path run.file run.dump contLen (some lastModified) (some origSrc) with
  | none => none
  | some (stored, file) =>
    (parseHeadFromStorage lib {} {} file run.read).map (fun r => (stored, r))

end Acng
