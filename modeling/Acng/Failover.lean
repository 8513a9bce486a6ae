import Mathlib.Logic.Function.Basic
import Acng.Prepare
import Acng.WorkLoop

namespace Acng
open Lib

/-- `tStrMap` -/
abbrev StrMap := Bytes → Option Bytes

namespace DlJob

/-- The backends that are looked at, in order: the first one that is not blacklisted, and the reason
to report. The first reason is remembered. -/
def findBackend (blacklist : StrMap) : List HttpUrl → Bytes → Option HttpUrl × Bytes
  | [], sReasonMsg =>
    (none, if sReasonMsg.isEmpty then lit "Mirror blocked due to repeated errors" else sReasonMsg)
  | bend :: rest, sReasonMsg =>
    match blacklist (hostPortKey bend) with
    | none => (some bend, sReasonMsg)
    | some reason => findBackend blacklist rest (if sReasonMsg.isEmpty then reason else sReasonMsg)

def backends (j : DlJob) : List HttpUrl := (j.pRepoDesc.map (·.backends)).getD []

/-- `SetupJobConfig`: the job with the target that it will use, or none, and the reason. -/
def setupJobConfig (j : DlJob) (sReasonMsg : Bytes) (blacklist : StrMap) : Option DlJob × Bytes :=
  if j.bBackendMode then
    -- keep the existing one if possible
    if j.pCurBackend.any (fun b => (blacklist (hostPortKey b)).isNone) then (some j, sReasonMsg)
    else
      match findBackend blacklist j.backends sReasonMsg with
      | (some bend, msg) => (some { j with pCurBackend := some bend }, msg)
      | (none, msg) => (none, msg)
  else
    match blacklist (hostPortKey j.getPeerHost) with
    | none => (some j, sReasonMsg)
    | some reason => (none, reason)

end DlJob

/-- A connection, under the name that it has in the pool of idle ones. -/
structure DlStream where
  sHostName : Bytes
  nPort : Nat
  ssl : Bool := false
deriving DecidableEq, Repr

/-- The name of the connections to a host. -/
def streamTo (tgt : HttpUrl) : DlStream := ⟨tgt.sHost, tgt.getPort, tgt.bSSL⟩

structure FailoverCfg where
  optproxytimeout : Int := -1

/-- What the system says to the attempts of one iteration: the idle connections that others have
taken, the proxy setting at that time, an attempt to connect, the tunnel through the proxy, the
attempt without an optional proxy, and whether there is crap in the pipe of a used connection. -/
structure Attempts where
  taken : List DlStream := []
  proxyInfo : Option HttpUrl := none
  first : Except Bytes Unit := .ok ()
  tunnel : Except Bytes Unit := .ok ()
  second : Except Bytes Unit := .ok ()
  stale : Bool := false

/-- What the connection phase of `WorkLoop` works on. The list of the dropped jobs is not part of
the program. -/
structure ConnectPhase where
  nextJobs : List DlJob
  activeJobs : List DlJob := []
  blacklist : StrMap
  spareConPool : List DlStream
  bProxyTot : Bool := false
  sErrorMsg : Bytes := []
  con : Option DlStream := none
  dropped : List DlJob := []

namespace ConnectPhase

/-- The phase begins with the active jobs of a main loop that has no connection. -/
def start (w : Worker) (nextJobs : List DlJob) (blacklist : StrMap) (spareConPool : List DlStream)
    (bProxyTot : Bool) (sErrorMsg : Bytes) : ConnectPhase :=
  { nextJobs, activeJobs := w.activeJobs.map (·.job), blacklist, spareConPool, bProxyTot
    sErrorMsg }

/-- The phase is left. -/
def finished (p : ConnectPhase) : Bool := p.con.isSome || p.nextJobs.isEmpty && p.activeJobs.isEmpty

/-- `setIfNotEmpty2` -/
def setIfNotEmpty2 (dst cand alt : Bytes) : Bytes :=
  if !dst.isEmpty then dst else if !cand.isEmpty then cand else alt

/-- The loop that drops the jobs without a target. -/
def setupJobs (p : ConnectPhase) : List DlJob → ConnectPhase
  | [] => p
  | it :: rest =>
    match it.setupJobConfig p.sErrorMsg p.blacklist with
    | (some job, msg) => { p with nextJobs := p.nextJobs ++ [job], sErrorMsg := msg }.setupJobs rest
    | (none, msg) =>
      let text := setIfNotEmpty2 it.sErrorMsg msg (lit "Broken mirror or incorrect configuration")
      { p with
        sErrorMsg := msg
        dropped := p.dropped ++ [{ it with sErrorMsg := text }] }.setupJobs rest

/-- Cleanup after the last connection, and the jobs that can still be done. -/
def prepare (p : ConnectPhase) (a : Attempts) : ConnectPhase :=
  { p with
    nextJobs := [], activeJobs := [], spareConPool := p.spareConPool.diff a.taken
    dropped := p.dropped ++ p.activeJobs }.setupJobs p.nextJobs

def prefProxy (p : ConnectPhase) (a : Attempts) (cjob : DlJob) : Option HttpUrl :=
  if p.bProxyTot then none
  else
    match (cjob.pRepoDesc.bind (·.pProxy)).filter (fun proxy => !proxy.sHost.isEmpty) with
    | some proxy => some proxy
    | none => a.proxyInfo

/-- `CreateConnected`, with the result whether the connection is a used one. -/
def createConnected (p : ConnectPhase) (tgt : HttpUrl) (fresh : Except Bytes Unit) :
    ConnectPhase × Bool :=
  let key := streamTo tgt
  if p.spareConPool.contains key then
    ({ p with con := some key, spareConPool := p.spareConPool.erase key }, true)
  else
    match fresh with
    | .ok () => ({ p with con := some key }, false)
    | .error msg => ({ p with con := none, sErrorMsg := msg }, false)

/-- The local function of `WorkLoop` around it. -/
def doconnect (p : ConnectPhase) (tgt : HttpUrl) (fresh : Except Bytes Unit) :
    ConnectPhase × Bool :=
  let reset := List.map DlJob.resetStreamState
  { p with
    nextJobs := reset p.nextJobs
    activeJobs := reset p.activeJobs }.createConnected tgt fresh

/-- The tunnel changes the identity of the connection. -/
def startTunnel (p : ConnectPhase) (peerHost : HttpUrl) (tunnel : Except Bytes Unit) :
    ConnectPhase :=
  match p.con, tunnel with
  | none, _ => p
  | some _, .ok () => { p with con := some ⟨peerHost.sHost, peerHost.getPort, true⟩ }
  | some _, .error msg => { p with con := none, sErrorMsg := msg }

/-- The attempt through the proxy, if there is one, or to the host. -/
def firstAttempt (p : ConnectPhase) (a : Attempts) (proxy : Option HttpUrl) (peerHost : HttpUrl) :
    ConnectPhase × Bool :=
  match proxy with
  | none => p.doconnect peerHost a.first
  | some proxy =>
    let (p, bUsed) := p.doconnect proxy a.first
    if peerHost.bSSL then (p.startTunnel peerHost a.tunnel, bUsed) else (p, bUsed)

/-- All attempts for the first job. -/
def attempts (cfg : FailoverCfg) (p : ConnectPhase) (a : Attempts) (cjob : DlJob) :
    ConnectPhase × Bool :=
  let proxy := p.prefProxy a cjob
  let peerHost := cjob.getPeerHost
  let (p, bUsed) := p.firstAttempt a proxy peerHost
  if p.con.isNone && proxy.isSome && 0 < cfg.optproxytimeout then
    -- optional proxy broken, disable
    { p with bProxyTot := true }.doconnect peerHost a.second
  else (p, bUsed)

/-- `BlacklistMirror` -/
def blacklistMirror (p : ConnectPhase) (job : DlJob) : ConnectPhase :=
  { p with
    blacklist := Function.update p.blacklist (hostPortKey job.getPeerHost) (some p.sErrorMsg) }

/-- One iteration of the outer loop while there is no connection. -/
def turn (cfg : FailoverCfg) (p : ConnectPhase) (a : Attempts) : ConnectPhase :=
  if p.finished then p
  else
    let p := p.prepare a
    match p.nextJobs with
    | [] => p
    | cjob :: _ =>
      let (p, bUsed) := p.attempts cfg a cjob
      if p.con.isSome then
        -- must test this connection, just be sure no crap is in the pipe
        if bUsed && a.stale then { p with con := none } else p
      else p.blacklistMirror cjob

/-- The phase after so many iterations. -/
def after (cfg : FailoverCfg) (p : ConnectPhase) (as : Nat → Attempts) : Nat → ConnectPhase
  | 0 => p
  | n + 1 => (p.after cfg as n).turn cfg (as n)

end ConnectPhase

end Acng
