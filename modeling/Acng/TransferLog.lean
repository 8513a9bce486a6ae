import Acng.Trim
import Acng.FileReader
import Acng.SendData
import Acng.Lib.Runs

namespace Acng
open Lib

structure LogCfg where
  logxff : Bool
  verboselog : Bool
  /-- The log is enabled and its file is open. -/
  isOpen : Bool

/-- What a job tells of its transfer. -/
structure DataCounts where
  sFile : Bytes
  xff : Bytes
  nNewIn : Nat
  nNewOut : Nat
  bAsError : Bool
deriving DecidableEq, Repr

/-- What `log::transfer` is given. -/
structure TransferRecord where
  bytesIn : Nat := 0
  bytesOut : Nat := 0
  sClient : Bytes := []
  sPath : Bytes := []
  bAsError : Bool := false
deriving DecidableEq, Repr

inductive LineKind
  | I | E | O
deriving DecidableEq, Repr

/-- A line of the log behind its time. -/
structure LogLine where
  kind : LineKind
  bytes : Nat
  /-- Client and path. -/
  names : Option (Bytes × Bytes)
deriving DecidableEq, Repr

/-- `log::transfer`. -/
def transfer (cfg : LogCfg) (r : TransferRecord) : List LogLine :=
  if cfg.isOpen then
    let names := if cfg.verboselog then some (r.sClient, r.sPath) else none
    (if r.bytesIn ≠ 0 then [⟨.I, r.bytesIn, names⟩] else []) ++
      if r.bytesOut ≠ 0 then [⟨if r.bAsError then .E else .O, r.bytesOut, names⟩] else []
  else []

/-- What happens to the log of a connection, in its order. -/
inductive LogEvent
  | reported (counts : DataCounts)
  | written (record : TransferRecord)
deriving DecidableEq, Repr

/-- The members of a connection that its log needs. -/
structure ConnLog where
  logFile : Bytes := []
  logClient : Bytes := []
  fileTransferIn : Nat := 0
  fileTransferOut : Nat := 0
  m_bLogAsError : Bool := false
  trace : List LogEvent := []

/-- `find_last_of`; `none` is `npos`. -/
def findLastOf (chars s : Bytes) : Option Nat :=
  (s.reverse.findIdx? chars.contains).map (s.length - 1 - ·)

/-- The name of the client: the last word that was forwarded, or the host. -/
def sClientOf (cfg : LogCfg) (m_sClientHost xff : Bytes) : Bytes :=
  if !cfg.logxff || xff.isEmpty then m_sClientHost
  else
    let sClient := StdString.trimBoth xff spaceChars
    match findLastOf spaceChars sClient with
    | none => sClient
    | some pos => sClient.drop (pos + 1)

namespace ConnLog

def writeAnotherLogRecord (st : ConnLog) (pNewFile pNewClient : Bytes) : ConnLog where
  logFile := pNewFile
  logClient := pNewClient
  trace := st.trace ++
    [.written ⟨st.fileTransferIn, st.fileTransferOut, st.logClient, st.logFile, st.m_bLogAsError⟩]

/-- `LogDataCounts`. -/
def logDataCounts (cfg : LogCfg) (m_sClientHost : Bytes) (st : ConnLog) (counts : DataCounts) : ConnLog :=
  let sClient := sClientOf cfg m_sClientHost counts.xff
  let st :=
    if counts.sFile ≠ st.logFile ∨ sClient ≠ st.logClient then st.writeAnotherLogRecord counts.sFile sClient
    else st
  { st with
    fileTransferIn := st.fileTransferIn + counts.nNewIn
    fileTransferOut := st.fileTransferOut + counts.nNewOut
    m_bLogAsError := st.m_bLogAsError || counts.bAsError
    trace := st.trace ++ [.reported counts] }

/-- The calls of the jobs, and the destructor. -/
def run (cfg : LogCfg) (m_sClientHost : Bytes) (calls : List DataCounts) : List LogEvent :=
  ((calls.foldl (logDataCounts cfg m_sClientHost) {}).writeAnotherLogRecord [] []).trace

end ConnLog

/-- The records among the events. -/
def records (trace : List LogEvent) : List TransferRecord :=
  trace.filterMap fun
    | .written r => some r
    | .reported _ => none

def LineKind.char : LineKind → UInt8
  | .I => 73
  | .E => 69
  | .O => 79

/-- A line of the log, with the time in front. -/
def LogLine.text (tNow : Nat) (l : LogLine) : Bytes :=
  dec tNow ++ [124, l.kind.char, 124] ++ dec l.bytes ++
    (match l.names with
      | some (sClient, sPath) => 124 :: (sClient ++ 124 :: sPath)
      | none => []) ++ [10]

/-- A call that writes to the log, at a time. -/
inductive LogCall
  | transfer (tNow : Nat) (r : TransferRecord)
  | misc (tNow : Nat) (sLine : Bytes) (cLogType : UInt8)
deriving DecidableEq, Repr

def LogCall.text (cfg : LogCfg) : LogCall → Bytes
  | .transfer tNow r => (Acng.transfer cfg r).flatMap (LogLine.text tNow)
  | .misc tNow sLine cLogType =>
    if cfg.isOpen then dec tNow ++ [124, cLogType, 124] ++ sLine ++ [10] else []

/-- `tRowData`: a day of the report. -/
structure RowData where
  byteIn : Nat := 0
  byteOut : Nat := 0
  reqIn : Nat := 0
  reqOut : Nat := 0
  fromTime : Int
  toTime : Int
deriving DecidableEq, Repr

def daySeconds : Int := 3600 * 24

/-- The rows of `GetStats` before anything is counted. -/
def statRows (now : Int) : List RowData :=
  (List.range 7).map fun i : Nat =>
    { toTime := now - i * daySeconds, fromTime := now - i * daySeconds - daySeconds }

def RowData.has (row : RowData) (time : Int) : Bool := row.fromTime ≤ time && time ≤ row.toTime

/-- What a line adds to the row that its time is in. -/
def RowData.count (row : RowData) (type : UInt8) (dcount : Nat) : RowData :=
  if type = 73 then
    { row with byteIn := (row.byteIn + dcount) % 2 ^ 64, reqIn := (row.reqIn + 1) % 2 ^ 64 }
  else if type = 79 then
    { row with byteOut := (row.byteOut + dcount) % 2 ^ 64, reqOut := (row.reqOut + 1) % 2 ^ 64 }
  else row

/-- A size with a unit. -/
def strsizeToOfft (sizeString : Bytes) : Int :=
  let (val, inext) := strtoull sizeString
  let unit : Nat := match (inext.dropWhile isspace).head? with
    | some 107 => 1000
    | some 109 => 1000000
    | some 103 => 1000000 * 1000
    | some 112 => 1000000 * 1000000
    | some 75 => 1024
    | some 77 => 1024 * 1024
    | some 71 => 1024 * 1024 * 1024
    | some 80 => 1024 * 1024 * 1024 * 1024
    | _ => 1
  offT (val * unit)

/-- A link in one of the directories of old counters: its name, and where it leads. -/
abbrev OldCounter := Bytes × Bytes

/-- Names of other lengths are not looked at. -/
def OldCounter.isRead (entry : OldCounter) : Bool := 4 ≤ entry.1.length && entry.1.length ≤ 25

/-- `rfunc` in `GetOldCountersInOut`. -/
def sumOldCounters (dir : List OldCounter) : Int :=
  ((dir.filter OldCounter.isRead).map (fun entry => strsizeToOfft (entry.2.take 29))).sum

/-- The counters of transfers, in the process and on the disk, and what expiration knows of them. The last two fields
are not kept by the program: the bytes that came in since the last expiration with a tradeoff check began, and
those since the one that is running did. -/
structure Counters where
  totalIn : Nat := 0
  totalOut : Nat := 0
  oldCounters : Int × Int := (0, 0)
  dirIn : List OldCounter := []
  dirOut : List OldCounter := []
  lastCurrentDlCount : Int := 0
  newLastIncommingOffset : Option Int := none
  since : Nat := 0
  sinceBegin : Nat := 0
deriving DecidableEq, Repr

/-- When the log is closed, and whether the links can be made. -/
structure CloseIo where
  tv_sec : Nat
  tv_usec : Nat
  linkIn : Bool := true
  linkOut : Bool := true
deriving DecidableEq, Repr

def CloseIo.name (io : CloseIo) : Bytes := dec io.tv_sec ++ lit "." ++ dec io.tv_usec

/-- `symlink` -/
def addOldCounter (ok : Bool) (name target : Bytes) (dir : List OldCounter) : List OldCounter :=
  if ok && !(dir.map Prod.fst).contains name then dir ++ [(name, target)] else dir

inductive CounterAct
  | transfer (bytesIn bytesOut : Nat)
  /-- `log_handler`: the log is rotated. -/
  | reopen (io : CloseIo)
  /-- The program ends in order, and is started again. -/
  | restart (io : CloseIo)
  | killed
  /-- A page with the old counters. -/
  | page
  /-- An expiration begins with the tradeoff check. -/
  | begin (exstarttradeoff : Int)
  | finish
  /-- It is left behind the check, but not at its end. -/
  | giveUp
deriving DecidableEq, Repr

namespace Counters

/-- `log::close` -/
def close (s : Counters) (io : CloseIo) : Counters :=
  { s with
    totalIn := 0, totalOut := 0
    dirIn := addOldCounter io.linkIn io.name (dec s.totalIn) s.dirIn
    dirOut := addOldCounter io.linkOut io.name (dec s.totalOut) s.dirOut }

def getOldCountersInOut (s : Counters) : Counters :=
  if s.oldCounters = (0, 0) then
    { s with oldCounters := (sumOldCounters s.dirIn, sumOldCounters s.dirOut) }
  else s

/-- The variables of a new process. -/
def newProcess (s : Counters) : Counters :=
  { s with
    totalIn := 0, totalOut := 0, oldCounters := (0, 0), lastCurrentDlCount := 0, newLastIncommingOffset := none }

def resetOldCounters (s : Counters) : Counters :=
  { s with
    oldCounters := (0, 0)
    dirIn := s.dirIn.filter (!·.isRead)
    dirOut := s.dirOut.filter (!·.isRead) }

/-- What the tradeoff check compares. -/
def haveIncomming (s : Counters) : Int := s.totalIn - s.lastCurrentDlCount + s.getOldCountersInOut.oldCounters.1

/-- Counters that do not fit any more are no step, and there is one expiration at a time. -/
def step (s : Counters) : CounterAct → Option Counters
  | .transfer bytesIn bytesOut =>
    if s.totalIn + bytesIn < 2 ^ 63 ∧ s.totalOut + bytesOut < 2 ^ 63 then
      some { s with
        totalIn := s.totalIn + bytesIn, totalOut := s.totalOut + bytesOut
        since := s.since + bytesIn, sinceBegin := s.sinceBegin + bytesIn }
    else none
  | .reopen io => some (s.close io)
  | .restart io => some (s.close io).newProcess
  | .killed => some s.newProcess
  | .page => some s.getOldCountersInOut
  | .begin exstarttradeoff =>
    if s.newLastIncommingOffset.isSome then none
    else if s.haveIncomming < exstarttradeoff then some s.getOldCountersInOut
    else some { s.getOldCountersInOut with newLastIncommingOffset := some s.totalIn, sinceBegin := 0 }
  | .finish => s.newLastIncommingOffset.map fun newLastIncommingOffset =>
    { s.resetOldCounters with
      lastCurrentDlCount := newLastIncommingOffset, newLastIncommingOffset := none, since := s.sinceBegin }
  | .giveUp => s.newLastIncommingOffset.map fun _ => { s with newLastIncommingOffset := none }

def run (s : Counters) (acts : List CounterAct) : Option Counters := runs step s acts

end Counters

end Acng
