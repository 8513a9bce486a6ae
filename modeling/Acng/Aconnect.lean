import Acng.Lib.Bytes
import Acng.Lib.Runs

namespace Acng
open Lib

/-- A resolved address, with what the system answers when it is tried: the descriptor, the result of
each call of `connect` (zero, or an error number), and whether the event can be added. Each address
is tried at most once. -/
structure ConnectTarget where
  socket : Option Int
  socketErrno : Int := 0
  connect : Nat → Int
  watched : Bool := true

def EINTR : Int := 4
def EINPROGRESS : Int := 115
def EAFNOSUPPORT : Int := 97

/-- The attempts that a signal interrupts are repeated, at most so many times. -/
def connectErrno (connect : Nat → Int) (i : Nat) : Nat → Int
  | 0 => EINTR
  | n + 1 => if connect i = EINTR then connectErrno connect (i + 1) n else connect i

def ConnectTarget.errno (t : ConnectTarget) : Int := connectErrno t.connect 0 50

/-- `tConnResult`. -/
structure ConnResult where
  fd : Option Int := none
  sError : Bytes := []
deriving DecidableEq, Repr

structure ConnectEnv where
  errnoText : Int → Bytes
  fasttimeout : Int := 4
  firstConTimeout : Int := 4

inductive ConnectStage
  | posted | resolving | probing | gone
deriving DecidableEq, Repr

/-- `aconnector`. The last fields are not part of the program: the calls of the callback, the open
descriptors that it has made, those that were seen to be connected, the number of addresses that
failed, and that the time ran out. -/
structure Aconnector where
  stage : ConnectStage := .posted
  tmoutTotal : Int
  timeNextCand : Int := 0
  targets : List ConnectTarget := []
  cursor : List ConnectTarget := []
  eventFds : List Int := []
  pending : Nat := 0
  error2report : Bytes := []
  reports : List ConnResult := []
  openFds : List Int := []
  succeeded : List Int := []
  failed : Nat := 0
  late : Bool := false

/-- What `EV_WRITE` finds in `SO_ERROR`, or an error of `getsockopt`; or only a timeout. -/
inductive SocketEvent
  | write (soError : Except Int Int)
  | timeout

namespace Aconnector

def dnsError : Bytes := lit "Unknown DNS error"

def closeFd (c : Aconnector) (fd : Int) : Aconnector :=
  { c with openFds := c.openFds.filter (· ≠ fd) }

/-- The callback is invoked, and the destructor closes what is still watched. -/
def report (c : Aconnector) (r : ConnResult) : Aconnector :=
  { c with
    stage := .gone, reports := c.reports ++ [r], eventFds := []
    openFds := c.openFds.filter (fun fd => !c.eventFds.contains fd) }

def retError (c : Aconnector) (msg : Bytes) : Aconnector := c.report { sError := msg }

def retSuccess (c : Aconnector) (fd : Int) : Aconnector :=
  let c := { c with succeeded := fd :: c.succeeded }
  if c.eventFds.contains fd then
    -- the winner is moved out before the destructor closes the others
    { c with eventFds := c.eventFds.erase fd }.report { fd := some fd }
  else c.report { sError := lit "Internal error" }

/-- `setIfNotEmpty(m_error2report, msg)` for an address that has failed. -/
def fail (c : Aconnector) (msg : Bytes) : Aconnector :=
  { c with
    error2report := if c.error2report.isEmpty then msg else c.error2report, failed := c.failed + 1 }

/-- The error of the primary always wins. -/
def disable (env : ConnectEnv) (c : Aconnector) (fd : Int) (ec : Int) : Aconnector :=
  if c.eventFds.contains fd then
    let c := if c.eventFds.head? = some fd then c.fail (env.errnoText ec)
      else { c with failed := c.failed + 1 }
    { c with eventFds := c.eventFds.erase fd, pending := c.pending - 1 }.closeFd fd
  else c

/-- The loop over the candidates. There is no result if the system gives a descriptor that is
still open. -/
def openNext (env : ConnectEnv) (c : Aconnector) : List ConnectTarget → Option Aconnector
  | [] =>
    let c := { c with cursor := [] }
    -- not success if got here, any active connection pending?
    some (if c.pending = 0 then
      c.retError (if c.error2report.isEmpty then env.errnoText EAFNOSUPPORT else c.error2report)
    else c)
  | t :: rest =>
    match t.socket with
    | none => openNext env (c.fail (env.errnoText t.socketErrno)) rest
    | some fd =>
      if c.openFds.contains fd then none
      else
        let c := { c with openFds := fd :: c.openFds }
        if t.errno = 0 then some ({ c with cursor := t :: rest }.retSuccess fd)
        else if t.errno ≠ EINPROGRESS then
          openNext env ((c.fail (env.errnoText t.errno)).closeFd fd) rest
        else if t.watched then
          some { c with cursor := rest, eventFds := c.eventFds ++ [fd], pending := c.pending + 1 }
        else openNext env ((c.fail (lit "Out of memory")).closeFd fd) rest

/-- `step` behind the test of the socket. -/
def nextCandidate (env : ConnectEnv) (c : Aconnector) (isFirst : Bool) (now : Int) :
    Option Aconnector :=
  if c.tmoutTotal < now then some ({ c with late := true }.retError (lit "Connection timeout"))
  else
    let c :=
      if isFirst then { c with timeNextCand := now + env.fasttimeout, cursor := c.targets }
      else if c.timeNextCand ≤ now then { c with timeNextCand := now + env.firstConTimeout }
      else c
    openNext env c c.cursor

/-- `aconnector::step` for a socket. -/
def cbStep (env : ConnectEnv) (c : Aconnector) (fd : Int) (ev : SocketEvent) (now : Int) :
    Option Aconnector :=
  match ev with
  | .write (.ok 0) => some (c.retSuccess fd)
  | .write (.ok err) => nextCandidate env (c.disable env fd err) false now
  | .write (.error errno) => nextCandidate env (c.disable env fd errno) false now
  | .timeout => nextCandidate env c false now

/-- `processDnsResult`, on an error or the addresses; a null pointer has neither. -/
def processDnsResult (env : ConnectEnv) (c : Aconnector) (res : Option (Bytes × List ConnectTarget))
    (now : Int) : Option Aconnector :=
  match res with
  | none => some (c.retError dnsError)
  | some (errDns, targets) =>
    if !errDns.isEmpty then some (c.retError errDns)
    else if targets.isEmpty then some (c.retError dnsError)
    else nextCandidate env { c with stage := .probing, targets := targets } true now

/-- What the event base calls. -/
inductive Event
  | posted (canceled : Bool)
  | resolved (res : Option (Bytes × List ConnectTarget)) (now : Int)
  | socket (fd : Int) (ev : SocketEvent) (now : Int)

def step (env : ConnectEnv) (c : Aconnector) : Event → Option Aconnector
  | .posted canceled =>
    if c.stage = .posted then
      some (if canceled then c.retError (lit "Canceled") else { c with stage := .resolving })
    else none
  | .resolved res now => if c.stage = .resolving then c.processDnsResult env res now else none
  | .socket fd ev now =>
    if c.stage = .probing ∧ fd ∈ c.eventFds then c.cbStep env fd ev now else none

end Aconnector

end Acng
