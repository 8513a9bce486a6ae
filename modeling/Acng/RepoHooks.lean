import Acng.Lib.Bytes
import Acng.Lib.Runs

namespace Acng
open Lib

/-- What `time(0)` returns on a running system. -/
abbrev WallTime := { t : Int // 0 < t }

inductive Hook
  | preUp | down
deriving DecidableEq, Repr

/-- What is read from the `.hooks` file of a repository. -/
structure HooksFile where
  preUp : Bytes := []
  down : Bytes := []
  downTimeout : Nat := 30
deriving DecidableEq, Repr

/-- `tHookHandler`. -/
structure HookHandler where
  cmdRel : Bytes
  cmdCon : Bytes
  downDuration : Nat
  downTimeNext : Int := 0
  nRefCnt : Int := 0
deriving DecidableEq, Repr

namespace HookHandler

/-- `_AddHooksFile`. -/
def ofFile (f : HooksFile) : HookHandler :=
  { cmdRel := f.down, cmdCon := f.preUp, downDuration := f.downTimeout }

/-- The new state, and the commands that are executed. -/
def onAccess (hs : HookHandler) : HookHandler × List Hook :=
  let next := { hs with nRefCnt := hs.nRefCnt + 1 }
  if hs.nRefCnt = 0 then
    -- huh, already ticking? reset
    if hs.downTimeNext ≠ 0 then ({ next with downTimeNext := 0 }, [])
    else if hs.cmdCon.isEmpty then (next, []) else (next, [.preUp])
  else (next, [])

def onRelease (hs : HookHandler) (now : WallTime) : HookHandler :=
  let next := { hs with nRefCnt := hs.nRefCnt - 1 }
  if next.nRefCnt ≤ 0 then { next with downTimeNext := now + hs.downDuration } else next

/-- The part of `BackgroundCleanup` that holds the lock of one handler. The last component is a
time that the cleanup has to come back at. -/
def backgroundCleanup (hs : HookHandler) (now : Int) : HookHandler × List Hook × Option Int :=
  if hs.downTimeNext ≠ 0 then
    if hs.downTimeNext ≤ now then
      if hs.cmdRel.isEmpty then (hs, [], none) else ({ hs with downTimeNext := 0 }, [.down], none)
    else (hs, [], some hs.downTimeNext)
  else (hs, [], none)

end HookHandler

/-- The repositories with hooks, and all outgoing connections by their `m_pStateObserver`: those
that someone holds and those in the pool of idle ones. The log has the executed commands. -/
structure RepoUse (Repo : Type) where
  hooks : Repo → HookHandler
  held : List (Option Repo) := []
  spareConPool : List (Option Repo) := []
  ran : List (Repo × Hook) := []

namespace RepoUse

variable {Repo : Type} [DecidableEq Repo]

def start (files : Repo → HooksFile) : RepoUse Repo := { hooks := fun r => .ofFile (files r) }

def setHooks (u : RepoUse Repo) (r : Repo) (hs : HookHandler) (cmds : List Hook) : RepoUse Repo :=
  { u with hooks := Function.update u.hooks r hs, ran := u.ran ++ cmds.map (fun c => (r, c)) }

/-- There is nobody to tell for connections that belong to no repository with hooks. -/
def access (u : RepoUse Repo) : Option Repo → RepoUse Repo
  | none => u
  | some r => u.setHooks r (u.hooks r).onAccess.1 (u.hooks r).onAccess.2

def release (u : RepoUse Repo) (now : WallTime) : Option Repo → RepoUse Repo
  | none => u
  | some r => u.setHooks r ((u.hooks r).onRelease now) []

/-- What happens under one lock, in any order. -/
inductive Event (Repo : Type)
  /-- `tcpconnect::tcpconnect` -/
  | construct (pStateTracker : Option Repo)
  /-- `CreateConnected` finds a connection in the pool. -/
  | reuse (i : Nat) (pStateTracker : Option Repo)
  /-- `RecycleIdleConnection` tells the observer. -/
  | detach (i : Nat) (now : WallTime)
  /-- `RecycleIdleConnection` puts the connection, which has no observer now, into the pool. -/
  | park (i : Nat)
  /-- `tcpconnect::~tcpconnect` on a held or on an idle connection -/
  | destroy (i : Nat) (now : WallTime)
  | evict (i : Nat) (now : WallTime)
  /-- `remotedb::BackgroundCleanup` gets to a handler. -/
  | cleanup (r : Repo) (now : Int)
deriving DecidableEq, Repr

def step (u : RepoUse Repo) : Event Repo → Option (RepoUse Repo)
  | .construct tracker => some { u.access tracker with held := tracker :: u.held }
  | .reuse i tracker =>
    u.spareConPool[i]?.map fun obs =>
      { u.access tracker with
        held := tracker.or obs :: u.held, spareConPool := u.spareConPool.eraseIdx i }
  | .detach i now =>
    u.held[i]?.map fun obs => { u.release now obs with held := none :: u.held.eraseIdx i }
  | .park i =>
    if u.held[i]? = some none then
      some { u with held := u.held.eraseIdx i, spareConPool := none :: u.spareConPool }
    else none
  | .destroy i now =>
    u.held[i]?.map fun obs => { u.release now obs with held := u.held.eraseIdx i }
  | .evict i now =>
    u.spareConPool[i]?.map fun obs =>
      { u.release now obs with spareConPool := u.spareConPool.eraseIdx i }
  | .cleanup r now =>
    let done := (u.hooks r).backgroundCleanup now
    some (u.setHooks r done.1 done.2.1)

/-- The commands of one repository. -/
def ranFor (u : RepoUse Repo) (r : Repo) : List Hook :=
  (u.ran.filter (fun e => e.1 = r)).map (·.2)

end RepoUse

end Acng
