import Acng.FileItem

namespace Acng
open Lib

inductive Activity
  | notStarted | sendData | sendChunkHeader | sendChunkData | done | discoAsap | sendBufNotFitem
deriving DecidableEq, Repr

inductive JobResult
  | done | again | discon
deriving DecidableEq, Repr

inductive KeepAliveMode
  | close | keep | unspecified
deriving DecidableEq, Repr

/-- The part of a `job` that answers the client. -/
structure ClientJob where
  filefd : Bool := false
  bIsHttp11 : Bool := true
  bIsHeadOnly : Bool := false
  keepAlive : KeepAliveMode := .unspecified
  activity : Activity := .notStarted
  sendbuf : Bytes := []
  ifMoSince : HttpDate := {}
  nReqRangeFrom : Int := -1
  nReqRangeTo : Int := -1
  nSendPos : Int := 0
  nChunkEnd : Int := -1
  nAllDataCount : Nat := 0
deriving DecidableEq, Repr

/-- Arithmetic on `off_t`, which wraps around. -/
def offT (v : Int) : Int := (v + 2 ^ 63) % 2 ^ 64 - 2 ^ 63

/-- A number printed with `%ld`, and with `%lx`. -/
def dec (v : Int) : Bytes := lit (toString v)

def hexChar (n : Nat) : UInt8 := UInt8.ofNat (if n < 10 then 48 + n else 87 + n)

def hexAux : Nat → Nat → Bytes → Bytes
  | 0, _, acc => acc
  | fuel + 1, n, acc =>
    if n / 16 = 0 then hexChar (n % 16) :: acc else hexAux fuel (n / 16) (hexChar (n % 16) :: acc)

def hex (v : Int) : Bytes :=
  let n := (v % 2 ^ 64).toNat
  hexAux (n + 1) n []

/-- `%ld` of `sscanf`, with what is left of the input. -/
def scanLong (s : Bytes) : Option (Int × Bytes) :=
  let s := s.dropWhile isspace
  let r := (sign s).2
  if (r.takeWhile isdigit).isEmpty then none else some (strtoll s, r.dropWhile isdigit)

/-- Two numbers with a dash between them. The second one may be missing. -/
def scanPair (s : Bytes) : Option (Int × Option Int) :=
  match scanLong s with
  | none => none
  | some (first, 45 :: t) => some (first, (scanLong t).map (·.1))
  | some (first, _) => some (first, none)

/-- `sscanf` with a literal in front of the two numbers. -/
def scanRange (front s : Bytes) : Option (Int × Option Int) :=
  if front.isPrefixOf s then scanPair (s.drop front.length) else none

namespace ClientJob

/-- `job::ParseRange`. The second format is a workaround for bad requests. -/
def parseRange (j : ClientJob) (h : Header) : Bool × ClientJob :=
  match (h.h .range).or (h.h .contentRange) with
  | none => (false, j)
  | some pRange =>
    match (scanRange (lit "bytes=") pRange).or (scanRange (lit "bytes") pRange) with
    | none => (false, { j with nReqRangeFrom := -2, nReqRangeTo := -2 })
    | some (first, last) =>
      (true, { j with nReqRangeFrom := first, nReqRangeTo := last.getD j.nReqRangeTo })

end ClientJob

/-- What goes into a response head besides the item and the job. -/
structure CookEnv where
  dates : DateLib
  contentType : Bytes := lit "octet/stream"
  date : Bytes := []
  server : Bytes := lit "Debian Apt-Cacher NG"
  footer : Bytes := []

def RemoteStatus.mustNotHaveBody (s : RemoteStatus) : Bool :=
  s.code == 304 || s.code == 204 || (100 ≤ s.code && s.code < 200)

/-- `operator>=` between dates. -/
def HttpDate.ge (lib : DateLib) (a b : HttpDate) : Bool := b.value lib (-2) ≤ a.value lib (-1)

/-- `strcasestr`. -/
def findNoCase (pat s : Bytes) : Option Nat := find (pat.map tolower) (s.map tolower)

namespace ClientJob

def prependHttpVariant (j : ClientJob) : Bytes :=
  if j.bIsHttp11 then lit "HTTP/1.1 " else lit "HTTP/1.0 "

def metaHeaders (env : CookEnv) (j : ClientJob) : Bytes :=
  (match j.keepAlive with
    | .keep => lit "Connection: Keep-Alive\r\n"
    | .close => lit "Connection: close\r\n"
    | .unspecified => []) ++
  lit "Date: " ++ env.date ++ lit "\r\nServer: " ++ env.server ++ lit "\r\n\r\n"

def setEarlySimpleResponse (env : CookEnv) (j : ClientJob) (message : Bytes) (nobody : Bool := false) :
    ClientJob :=
  let body := lit "<!DOCTYPE html>\n<html lang=\"en\"><head><title>" ++ message ++
    lit "</title>\n</head>\n<body><h1>" ++ message ++ lit "</h1></body>" ++ env.footer ++ lit "</html>"
  { j with
    activity := .sendBufNotFitem
    sendbuf :=
      if nobody then j.prependHttpVariant ++ message ++ crlf ++ j.metaHeaders env
      else j.prependHttpVariant ++ message ++ lit "\r\nContent-Length: " ++ dec body.length ++
        lit "\r\nContent-Type: text/html\r\n" ++ j.metaHeaders env ++ body }

/-- The head of a pass-through item, as it came, but never with a transfer encoding. -/
def addPtHeader (j : ClientJob) (remoteHead : Bytes) : ClientJob :=
  let badTE := lit "\nTransfer-Encoding:"
  let j := match findNoCase badTE (cstr remoteHead) with
    | none => { j with sendbuf := j.sendbuf ++ remoteHead }
    | some p =>
      { j with
        keepAlive := .close
        sendbuf := j.sendbuf ++ remoteHead.take p ++ lit "\nX-No-Trans-Encode:" ++
          remoteHead.drop (p + badTE.length) }
  if (findNoCase (lit "Connection: close\r\n") (cstr remoteHead)).isSome then { j with keepAlive := .close }
  else j

/-- The fields that all answers with a body from the item begin with. -/
def typeAndDate (env : CookEnv) (fi : FileItem) : Bytes :=
  lit "Content-Type: " ++ env.contentType ++ crlf ++
    if fi.responseModDate.isSet then lit "Last-Modified: " ++ fi.responseModDate.buf ++ crlf else []

def originalSource (fi : FileItem) : Bytes :=
  if fi.responseOrigin.isEmpty then [] else lit "X-Original-Source: " ++ fi.responseOrigin ++ crlf

def chunkedHead (env : CookEnv) (j : ClientJob) (fi : FileItem) : Bytes :=
  j.prependHttpVariant ++ dec fi.responseStatus.code ++ lit " " ++ fi.responseStatus.msg ++ crlf ++
    typeAndDate env fi ++ lit "Transfer-Encoding: chunked\r\n" ++ originalSource fi ++ j.metaHeaders env

def partialHead (env : CookEnv) (j : ClientJob) (fi : FileItem) (first last cl : Int) : Bytes :=
  j.prependHttpVariant ++ lit "206 Partial Content" ++ crlf ++ typeAndDate env fi ++
    lit "Content-Range: bytes " ++ dec first ++ lit "-" ++ dec last ++ lit "/" ++
    dec fi.nContentLength ++ crlf ++ lit "Content-Length: " ++ dec cl ++ crlf ++ originalSource fi ++
    j.metaHeaders env

def fullHead (env : CookEnv) (j : ClientJob) (fi : FileItem) : Bytes :=
  j.prependHttpVariant ++ lit "200 OK" ++ crlf ++ typeAndDate env fi ++
    lit "Content-Length: " ++ dec fi.nContentLength ++ crlf ++ originalSource fi ++ j.metaHeaders env

/-- Chunks are needed, except for when only a range is wanted and that range is already available. -/
def goChunked (j : ClientJob) (fi : FileItem) : Bool :=
  fi.nContentLength < 0 && fi.status = .dlReceiving &&
    !(0 < j.nReqRangeTo && j.nReqRangeTo ≤ fi.nSizeChecked)

def notModified (env : CookEnv) (j : ClientJob) (fi : FileItem) : Bool :=
  j.ifMoSince.isSet && fi.responseModDate.isSet && j.ifMoSince.ge env.dates fi.responseModDate

def unsatisfiable (j : ClientJob) (fi : FileItem) : Bool :=
  0 ≤ fi.nContentLength &&
    (fi.nContentLength ≤ j.nReqRangeFrom || fi.nContentLength < offT (j.nReqRangeTo + 1))

/-- The beginning of the range is available. -/
def servesRange (j : ClientJob) (fi : FileItem) : Bool :=
  0 ≤ j.nReqRangeFrom && j.nReqRangeFrom < fi.nSizeChecked && 0 < fi.nContentLength

/-- `job::CookResponseHeader`. -/
def cookResponseHeader (env : CookEnv) (j : ClientJob) (item : Option (FileItem × Bytes)) : ClientJob :=
  match item with
  | none =>
    { j.setEarlySimpleResponse env (lit "500 Invalid cache object") with activity := .discoAsap }
  | some (fi, remoteHead) =>
    let j := { j with activity := .sendData }
    let status := fi.responseStatus
    if !remoteHead.isEmpty then j.addPtHeader remoteHead
    else if status.isRedirect || status.mustNotHaveBody then
      { j with
        activity := .sendBufNotFitem
        sendbuf := j.prependHttpVariant ++ dec status.code ++ lit " " ++ status.msg ++ crlf ++
          (if status.isRedirect then lit "Location: " ++ fi.responseOrigin ++ crlf else []) ++
          j.metaHeaders env }
    else if status.code ≠ 200 then
      j.setEarlySimpleResponse env (dec status.code ++ lit " " ++ status.msg)
    else if j.notModified env fi then j.setEarlySimpleResponse env (lit "304 Not Modified") true
    else if j.goChunked fi then
      { j with
        activity := .sendChunkHeader, nReqRangeTo := -1, nReqRangeFrom := 0
        sendbuf := j.chunkedHead env fi }
    else if j.unsatisfiable fi then
      j.setEarlySimpleResponse env (lit "416 Requested Range Not Satisfiable")
    else if j.servesRange fi then
      { j with
        nSendPos := j.nReqRangeFrom
        sendbuf := j.partialHead env fi j.nReqRangeFrom
          (if 0 < j.nReqRangeTo then j.nReqRangeTo else fi.nContentLength - 1)
          (if j.nReqRangeTo < 0 then fi.nContentLength - j.nReqRangeFrom
            else offT (j.nReqRangeTo + 1 - j.nReqRangeFrom)) }
    else { j with nReqRangeTo := -1, nReqRangeFrom := 0, sendbuf := j.fullHead env fi }

end ClientJob

/-- What one call of `SendData` meets: how much of the buffer the socket takes, the item, the
states and sizes that are seen while waiting for it, whether its file can be opened, and how
much of the file the socket takes. A missing number is an error. -/
structure SendIo where
  sent : Option Nat := none
  item : Option (FileItem × Bytes) := none
  seen : List (FiStatus × Int) := []
  opened : Bool := true
  data : Option Nat := none

namespace ClientJob

/-- `AwaitSendableState`. At the end of the list the waiting times out. -/
def awaitSendableState (j : ClientJob) : List (FiStatus × Int) → Option (FiStatus × Int)
  | [] => none
  | (fistate, nBodySizeSoFar) :: rest =>
    if .complete ≤ fistate then
      if fistate ≤ .complete then some (fistate, nBodySizeSoFar) else none
    else if j.nSendPos < nBodySizeSoFar || (j.bIsHeadOnly && .dlGotHead ≤ fistate) then
      some (fistate, nBodySizeSoFar)
    else j.awaitSendableState rest

def returnDiscon (j : ClientJob) : ClientJob × JobResult := ({ j with activity := .discoAsap }, .discon)

def returnStreamOk (j : ClientJob) : ClientJob × JobResult :=
  if j.keepAlive = .keep || (j.keepAlive = .unspecified && j.bIsHttp11) then
    ({ j with activity := .done }, .done)
  else j.returnDiscon

/-- An ongoing response can only be cut off. -/
def handleSuddenError (env : CookEnv) (j : ClientJob) (item : Option (FileItem × Bytes)) :
    ClientJob × JobResult :=
  if j.nAllDataCount ≠ 0 then j.returnDiscon
  else
    (j.setEarlySimpleResponse env (match item with
      | none => lit "500 Error creating cache object"
      | some (fi, _) =>
        if fi.responseStatus.code < 500 then lit "500 Remote or cache error"
        else dec fi.responseStatus.code ++ lit " " ++
          (if fi.responseStatus.msg.isEmpty then lit "Unknown internal error" else fi.responseStatus.msg)),
      .again)

/-- `fileitem_with_storage::SendData`: the next bytes of the file, at most `limit`. -/
def sendFile (file : Bytes) (j : ClientJob) (n : Nat) (limit : Int) : ClientJob × Bytes :=
  let out := (file.drop j.nSendPos.toNat).take (min n limit.toNat)
  ({ j with nSendPos := j.nSendPos + out.length, nAllDataCount := j.nAllDataCount + out.length }, out)

/-- What is left to send, of the body or of the range, as far as it is there. -/
def limit (j : ClientJob) (nBodySizeSoFar : Int) : Int :=
  if 0 ≤ j.nReqRangeTo then min (offT (j.nReqRangeTo + 1 - j.nSendPos)) (nBodySizeSoFar - j.nSendPos)
  else nBodySizeSoFar - j.nSendPos

/-- The state `STATE_SEND_DATA`. -/
def sendPlain (env : CookEnv) (file : Bytes) (j : ClientJob) (io : SendIo) :
    ClientJob × JobResult × Bytes :=
  let quiet (r : ClientJob × JobResult) : ClientJob × JobResult × Bytes := (r.1, r.2, [])
  if j.bIsHeadOnly then quiet j.returnStreamOk
  else
    match j.awaitSendableState io.seen with
    | none => quiet (j.handleSuddenError env io.item)
    | some (fistate, nBodySizeSoFar) =>
      let j := { j with filefd := j.filefd || io.opened }
      let limit := j.limit nBodySizeSoFar
      if limit ≤ 0 then (j, .discon, [])
      else
        match (if j.filefd then io.data else none) with
        | none => quiet j.returnDiscon
        | some n =>
          let (j, out) := j.sendFile file n limit
          if (fistate = .complete && j.nSendPos = nBodySizeSoFar) ||
              (0 ≤ j.nReqRangeTo && offT (j.nReqRangeTo + 1) ≤ j.nSendPos) then
            (j.returnStreamOk.1, j.returnStreamOk.2, out)
          else (j, .again, out)

/-- The state `STATE_SEND_CHUNK_HEADER`. -/
def sendChunkHeader (env : CookEnv) (j : ClientJob) (io : SendIo) : ClientJob × JobResult :=
  match j.awaitSendableState io.seen with
  | none => j.handleSuddenError env io.item
  | some (fistate, nBodySizeSoFar) =>
    if fistate = .complete && j.nSendPos = nBodySizeSoFar then
      ({ j with sendbuf := lit "0\r\n\r\n", activity := .done }, .again)
    else if !io.opened then { j with filefd := false }.handleSuddenError env io.item
    else
      ({ j with
        filefd := true, nChunkEnd := nBodySizeSoFar, activity := .sendChunkData
        sendbuf := hex (nBodySizeSoFar - j.nSendPos) ++ crlf }, .again)

/-- The state `STATE_SEND_CHUNK_DATA`. -/
def sendChunkData (env : CookEnv) (file : Bytes) (j : ClientJob) (io : SendIo) :
    ClientJob × JobResult × Bytes :=
  match (if j.filefd then io.data else none) with
  | none =>
    let r := j.handleSuddenError env io.item
    (r.1, r.2, [])
  | some n =>
    let (j, out) := j.sendFile file n (j.nChunkEnd - j.nSendPos)
    (if j.nSendPos = j.nChunkEnd then { j with sendbuf := crlf, activity := .sendChunkHeader } else j,
      .again, out)

/-- The states of the job, with an empty buffer. -/
def perform (env : CookEnv) (file : Bytes) (j : ClientJob) (io : SendIo) :
    ClientJob × JobResult × Bytes :=
  let quiet (r : ClientJob × JobResult) : ClientJob × JobResult × Bytes := (r.1, r.2, [])
  match j.activity with
  | .done | .sendBufNotFitem => quiet j.returnStreamOk
  | .discoAsap => (j, .discon, [])
  | .notStarted =>
    match j.awaitSendableState io.seen with
    | none => quiet (j.handleSuddenError env io.item)
    | some _ => (j.cookResponseHeader env io.item, .again, [])
  | .sendData => j.sendPlain env file io
  | .sendChunkHeader => quiet (j.sendChunkHeader env io)
  | .sendChunkData => j.sendChunkData env file io

/-- `job::SendData` for a job with an item: the job, the result and the bytes on the wire. -/
def sendData (env : CookEnv) (file : Bytes) (j : ClientJob) (io : SendIo) :
    ClientJob × JobResult × Bytes :=
  if j.sendbuf.isEmpty then j.perform env file io
  else
    match io.sent with
    | none => (j.returnDiscon.1, j.returnDiscon.2, [])
    | some r =>
      let out := j.sendbuf.take r
      let j := { j with sendbuf := j.sendbuf.drop r, nAllDataCount := j.nAllDataCount + out.length }
      if !j.sendbuf.isEmpty then (j, .again, out)
      else
        let (j, res, out') := j.perform env file io
        (j, res, out ++ out')

/-- The calls for a job until one of them ends it. -/
def deliver (env : CookEnv) (file : Bytes) (j : ClientJob) : List SendIo → ClientJob × JobResult × Bytes
  | [] => (j, .again, [])
  | io :: ios =>
    match j.sendData env file io with
    | (j, .again, out) =>
      let (j, res, out') := j.deliver env file ios
      (j, res, out ++ out')
    | r => r

end ClientJob

end Acng
