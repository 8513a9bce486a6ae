import Acng.Prepare
import Acng.SendData

namespace Acng
open Lib

/-- `acbuf` as far as reading from it goes: the valid data and the space in front of them. -/
structure AcBuf where
  r : Nat := 0
  data : Bytes := []
deriving DecidableEq, Repr

namespace AcBuf

def drop (b : AcBuf) (count : Nat) : AcBuf :=
  let data := b.data.drop count
  if data.isEmpty then {} else { r := b.r + count, data }

/-- For the worst case, make space to read a complete new header. -/
def move (b : AcBuf) : AcBuf := { b with r := 0 }

def sysread (b : AcBuf) (read : Bytes) : AcBuf := { b with data := b.data ++ read }

def freecapa (capacity : Nat) (b : AcBuf) : Nat := capacity - (b.r + b.data.length)

end AcBuf

namespace Header

def tabooHeadersForCaching : List Bytes :=
  [lit "Host", lit "Cache-Control", lit "Proxy-Authorization", lit "Accept", lit "User-Agent",
    lit "Accept-Encoding"]

def tabooHeadersPassThrough : List Bytes :=
  [lit "Host", lit "Cache-Control", lit "Proxy-Authorization", lit "Accept", lit "User-Agent"]

/-- The loop over the unknown fields. A field without a key continues the one before it. -/
def customHeaders (taboo : List Bytes) : Bool → Bytes → List (Bytes × Bytes) → Bytes
  | _, ret, [] => ret
  | forbidden, ret, (key, value) :: rest =>
    if key.isEmpty then
      if forbidden then customHeaders taboo forbidden ret rest
      else customHeaders taboo forbidden (ret.take (ret.length - 2) ++ 32 :: value ++ crlf) rest
    else
      let forbidden := taboo.any (fun x => caseEq x key)
      if forbidden then customHeaders taboo forbidden ret rest
      else customHeaders taboo forbidden (ret ++ key ++ lit ": " ++ value ++ crlf) rest

def extractCustomHeaders (reqHead : Bytes) (isPassThrough : Bool) : Bytes :=
  if reqHead.isEmpty then []
  else
    customHeaders (if isPassThrough then tabooHeadersPassThrough else tabooHeadersForCaching) false []
      ((load reqHead (some [])).2.unk.getD [])

end Header

/-- What the loop for a client connection depends on. The last field tells for which request no
thread can be started for the downloader. -/
structure ConnCfg where
  serve : ServeCfg
  exporigin : Bool := false
  forwardsoap : Bool := false
  passThrough : Bytes → Bool := fun _ => false
  badState : Nat → Bool := fun _ => false

/-- What is passed to `job::Prepare` and what is made of it: the head, the client and, if an
item is created, the fields for its download. -/
structure ClientRequest where
  h : Header
  callerHostname : Bytes
  prepared : Prepared
  extraHeaders : Option Bytes

def makeExtraHeaders (exporigin : Bool) (h : Header) (bPtMode : Bool) (headBuf callerHostname : Bytes) :
    Bytes :=
  let xff := (h.h .xForwardedFor).getD []
  (if exporigin && !callerHostname.isEmpty then
    lit "X-Forwarded-For: " ++ (if xff.isEmpty then [] else xff ++ lit ", ") ++ callerHostname ++ crlf
  else []) ++
  if bPtMode && !headBuf.isEmpty then Header.extractCustomHeaders headBuf bPtMode else []

def ClientRequest.make (cfg : ConnCfg) (h : Header) (headBuf callerHostname : Bytes) : ClientRequest where
  h := h
  callerHostname := callerHostname
  prepared := prepare cfg.serve h
  extraHeaders :=
    match prepare cfg.serve h with
    | .create _ _ bPtMode => some (makeExtraHeaders cfg.exporigin h bPtMode headBuf callerHostname)
    | _ => none

/-- Why the loop was left. A POST can be answered with a redirection, a CONNECT is granted or not. -/
inductive Leave
  | badRequest
  | post (answer : Option Bytes)
  | connect (tgt : Bytes) (granted : Bool)
  | unidentified
  | badState
  | bufferFull
  | disconnect
  | gone
deriving DecidableEq, Repr

/-- The client connection. `consumed` counts the bytes of the stream that were dropped. -/
structure Conn where
  inBuf : AcBuf := {}
  sClientHost : Bytes := []
  jobs2send : List ClientRequest := []
  requests : List ClientRequest := []
  consumed : Nat := 0
  left : Option Leave := none

def bdoUrl : Bytes := lit "http://bugs.debian.org:80/"

def redirectBto2https (uri : Bytes) : Bytes :=
  lit "HTTP/1.1 302 Redirect\r\nLocation: https://bugs.debian.org:443/" ++ uri.drop bdoUrl.length ++
    lit "\r\nConnection: close\r\n\r\n"

namespace Conn

def leave (c : Conn) (why : Leave) : Conn := { c with left := some why }

def drop (c : Conn) (nHeadBytes : Nat) : Conn :=
  { c with inBuf := c.inBuf.drop nHeadBytes, consumed := c.consumed + nHeadBytes }

/-- A POST ends the connection anyhow. -/
def answerPost (cfg : ConnCfg) (c : Conn) (h : Header) : Option Bytes :=
  if cfg.forwardsoap && !c.sClientHost.isEmpty && bdoUrl.isPrefixOf h.status.msg then
    some (redirectBto2https h.status.msg)
  else none

/-- May come from a wrapper, which must identify itself. -/
def identify (c : Conn) (h : Header) : Conn × Bool :=
  let orig := (h.h .xOrig).getD []
  if orig.isEmpty then (c.leave .unidentified, false) else ({ c with sClientHost := orig }, true)

/-- The request becomes a job. -/
def addJob (cfg : ConnCfg) (c : Conn) (h : Header) : Conn :=
  let r := ClientRequest.make cfg h c.inBuf.data c.sClientHost
  { c with jobs2send := c.jobs2send ++ [r], requests := c.requests ++ [r] }

/-- One request from the buffer, and whether the loop goes on. -/
def request (cfg : ConnCfg) (c : Conn) : Conn × Bool :=
  let (nHeadBytes, st) := Header.load c.inBuf.data
  if nHeadBytes = 0 then ({ c with inBuf := c.inBuf.move }, false)
  else if nHeadBytes < 0 then (c.leave .badRequest, false)
  else if st.hd.type = .post then (c.leave (.post (c.answerPost cfg st.hd)), false)
  else if st.hd.type = .connect then
    ((c.drop nHeadBytes.toNat).leave (.connect st.hd.status.msg (cfg.passThrough st.hd.status.msg)), false)
  else if c.sClientHost.isEmpty then (c.drop nHeadBytes.toNat).identify st.hd
  else
    let c := c.addJob cfg st.hd
    if cfg.badState c.requests.length then (c.leave .badState, false)
    else (c.drop nHeadBytes.toNat, true)

/-- Split new data into requests. Each one takes at least one byte. -/
def splitInput (cfg : ConnCfg) : Nat → Conn → Conn
  | 0, c => c
  | fuel + 1, c =>
    if c.inBuf.data.isEmpty then c
    else
      match c.request cfg with
      | (c, true) => splitInput cfg fuel c
      | (c, false) => c

def split (cfg : ConnCfg) (c : Conn) : Conn := splitInput cfg c.inBuf.data.length c

/-- The result of `SendData` for the first job. -/
def written (c : Conn) : JobResult → Conn
  | .discon => c.leave .disconnect
  | .done => { c with jobs2send := c.jobs2send.tail }
  | .again => c

end Conn

/-- What `select` and the calls behind it bring: nothing, some bytes and a result of `SendData`
if the socket is ready for it, or the end of the connection. -/
inductive Round
  | idle
  | ready (read : Bytes) (sent : Option JobResult)
  | gone
deriving DecidableEq, Repr

def inBufSize : Nat := 32 * 1024

namespace Conn

/-- One round of `conn::Impl::WorkLoop`. The socket is only asked for writing if there was a
job before. -/
def round (cfg : ConnCfg) (c : Conn) (io : Round) : Conn :=
  if c.inBuf.freecapa inBufSize = 0 then c.leave .bufferFull
  else
    match io with
    | .idle => c
    | .gone => c.leave .gone
    | .ready read sent =>
      let hadJobs := !c.jobs2send.isEmpty
      let c := { c with inBuf := c.inBuf.sysread read }.split cfg
      if c.left.isSome then c
      else if c.inBuf.freecapa inBufSize = 0 then c.leave .bufferFull
      else if hadJobs && !c.jobs2send.isEmpty then (sent.map c.written).getD c
      else c

def workLoop (cfg : ConnCfg) (c : Conn) : List Round → Conn
  | [] => c
  | io :: ios => if c.left.isSome then c else (c.round cfg io).workLoop cfg ios

end Conn

end Acng
