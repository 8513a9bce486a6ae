import Acng.Cleaner
import Acng.HttpUrl
import Mathlib.Data.Finset.Card

namespace Acng
open Lib

/-- An entry of `spareConPool`: the host, the port and whether it is TLS, the descriptor of the
connection and when it was put there. -/
structure SpareCon where
  key : Bytes × Nat × Bool
  fd : Nat
  stored : Int
deriving DecidableEq, Repr

def TIME_SOCKET_EXPIRE_CLOSE : Int := 33

namespace SpareCon

def expired (now : Int) (con : SpareCon) : Bool := now ≥ con.stored + TIME_SOCKET_EXPIRE_CLOSE

/-- The second loop of `BackgroundCleanup`. It counts `r` down for every entry. -/
def eraseReadable (rfds : Finset Nat) : Nat → List SpareCon → List SpareCon
  | 0, spareConPool => spareConPool
  | _ + 1, [] => []
  | r + 1, con :: spareConPool =>
    if con.fd ∈ rfds then eraseReadable rfds r spareConPool
    else con :: eraseReadable rfds r spareConPool

/-- `dl_con_factory::BackgroundCleanup`: the pool afterwards, in the order of the map, and when to
come back. The answer of `select` is the set of the descriptors that can be read, or none where it
fails; `later` is the clock at the end. -/
def backgroundCleanup (now later : Int) (select : Option (Finset Nat))
    (spareConPool : List SpareCon) : List SpareCon × Int :=
  let spareConPool := spareConPool.filter (fun con => !con.expired now)
  let spareConPool := match select with
    | none => spareConPool
    | some rfds => eraseReadable rfds rfds.card spareConPool
  (spareConPool,
    if spareConPool.isEmpty then END_OF_TIME else later + TIME_SOCKET_EXPIRE_CLOSE / 4 + 1)

/-- The order of the keys in the map. -/
def keyLess (a b : Bytes × Nat × Bool) : Bool :=
  a.1 < b.1 || (a.1 == b.1 && (a.2.1 < b.2.1 || (a.2.1 == b.2.1 && !a.2.2 && b.2.2)))

/-- `multimap::emplace`: behind the entries of the same key. -/
def emplace (con : SpareCon) (spareConPool : List SpareCon) : List SpareCon :=
  spareConPool.takeWhile (fun e => !keyLess con.key e.key) ++
    con :: spareConPool.dropWhile (fun e => !keyLess con.key e.key)

end SpareCon

/-- A `tcpconnect` by its descriptor. The last two fields are not kept by the program: the host and port
that the connection was opened for or tunnelled to, and the name in the last good TLS handshake. -/
structure TcpConnect where
  sHostName : Bytes := []
  nPort : Nat := 0
  bio : Bool := false
  peer : Bytes × Nat := ([], 0)
  handshake : Option Bytes := none
deriving DecidableEq, Repr

def TcpConnect.key (con : TcpConnect) : Bytes × Nat × Bool := (con.sHostName, con.nPort, con.bio)

/-- What the system says to a new connection: the result of `aconnector::Connect` and `SSLinit`. -/
structure ConnectIo where
  sError : Bytes := []
  fd : Option Nat := none
  ssl : Except Bytes Unit := .ok ()

/-- What becomes of a tunnel: the proxy refuses it or the talk to it fails, the handshake behind it
fails, before or after the BIO is there, or all is well. -/
inductive StartTunnelIo
  | refused
  | sslFailed (bio : Bool)
  | done
deriving DecidableEq, Repr

/-- The users of outgoing connections, the pool of idle ones and the cleaner that looks after it. The
clock is in milliseconds. When the last cleanup ended is not kept by the program. -/
structure IdlePool where
  cleaner : Cleaner := {}
  ms : Int := 0
  cons : Nat → TcpConnect := fun _ => {}
  held : List Nat := []
  spareConPool : List SpareCon := []
  cleanedAt : Int := 0

inductive PoolAct
  | tick (ms : Int)
  | create (sHostname : Bytes) (nPort : Nat) (bSsl nocache : Bool) (io : ConnectIo)
  /-- The tunnel of a download, with TLS behind it -/
  | startTunnel (fd : Nat) (realTarget : HttpUrl) (io : StartTunnelIo)
  | recycle (fd : Nat) (persistoutgoing : Bool)
  | drop (fd : Nat)
  | closeAll
  /-- The cleaner thread in `dl_con_factory::BackgroundCleanup`, which ends at this time -/
  | cleanup (select : Option (Finset Nat)) (ms : Int)
  /-- Any other step of the cleaner -/
  | loop (e : Cleaner.Event)

namespace IdlePool

open Cleaner (getTime)

def used (s : IdlePool) : List Nat := s.held ++ s.spareConPool.map (·.fd)

/-- `CreateConnected`: the connection, if there is one, whether it is a used one, and `sErrOut`. -/
def createConnected (s : IdlePool) (sHostname : Bytes) (nPort : Nat) (bSsl nocache : Bool)
    (io : ConnectIo) : IdlePool × Option Nat × Bool × Option Bytes :=
  let key := (sHostname, nPort, bSsl)
  match if nocache then none else s.spareConPool.find? (fun it => it.key == key) with
  | some it =>
    ({ s with spareConPool := s.spareConPool.erase it, held := it.fd :: s.held }, some it.fd, true, none)
  | none =>
    if !io.sError.isEmpty then (s, none, false, some io.sError)
    else
      match io.fd with
      | none => (s, none, false, some (lit "General Connection Error"))
      | some fd =>
        let con : TcpConnect := { sHostName := sHostname, nPort := nPort, peer := (sHostname, nPort) }
        if bSsl then
          match io.ssl with
          | .error sErr => (s, none, false, some sErr)
          | .ok () =>
            ({ s with
                cons := Function.update s.cons fd { con with bio := true, handshake := some sHostname }
                held := fd :: s.held }, some fd, false, none)
        else
          ({ s with cons := Function.update s.cons fd con, held := fd :: s.held }, some fd, false, none)

/-- `StartTunnel`, with its result. -/
def startTunnel (s : IdlePool) (fd : Nat) (realTarget : HttpUrl) (io : StartTunnelIo) : IdlePool × Bool :=
  let con : TcpConnect := { s.cons fd with
    sHostName := realTarget.sHost, nPort := realTarget.getPort
    peer := (realTarget.sHost, realTarget.getPort) }
  match io with
  | .refused => (s, false)
  | .sslFailed bio =>
    -- the identity is changed before the handshake, and taken away with its failure
    ({ s with cons := Function.update s.cons fd { con with
        sHostName := [], bio := con.bio || bio, handshake := none } }, false)
  | .done =>
    ({ s with cons := Function.update s.cons fd { con with
        bio := true, handshake := some realTarget.sHost } }, true)

/-- `RecycleIdleConnection` -/
def recycleIdleConnection (s : IdlePool) (fd : Nat) (persistoutgoing : Bool) : IdlePool :=
  let s := { s with held := s.held.erase fd }
  if !persistoutgoing then s
  else
    let host := (s.cons fd).sHostName
    if host.isEmpty then s
    else
      let now := getTime s.ms
      -- a DOS?
      if s.spareConPool.length < 50 then
        { s with
          spareConPool := SpareCon.emplace ⟨(s.cons fd).key, fd, now⟩ s.spareConPool
          cleaner := s.cleaner.scheduleFor (now + TIME_SOCKET_EXPIRE_CLOSE) .exConns }
      else s

/-- The thread is about to clean the pool, or is at it. -/
def cleaningPool (s : IdlePool) : Bool :=
  match s.cleaner.stage with
  | .cleaning _ _ what _ => what = .exConns
  | _ => false

/-- The clock that a step of the cleaner reads. -/
def clockOf : Cleaner.Event → Option Int
  | .head ms => some ms
  | .playback ms => some ms
  | _ => none

/-- The step that ends a cleanup. -/
def endsCleanup : Cleaner.Event → Bool
  | .cleaned _ => true
  | _ => false

def step (s : IdlePool) : PoolAct → Option IdlePool
  | .tick ms => if ms < s.ms then none else some { s with ms := ms }
  | .create sHostname nPort bSsl nocache io =>
    -- the system gives no descriptor twice
    if io.fd.any s.used.contains then none
    else some (s.createConnected sHostname nPort bSsl nocache io).1
  | .startTunnel fd realTarget io =>
    if s.held.contains fd then some (s.startTunnel fd realTarget io).1 else none
  | .recycle fd persistoutgoing =>
    if s.held.contains fd then some (s.recycleIdleConnection fd persistoutgoing) else none
  | .drop fd => if s.held.contains fd then some { s with held := s.held.erase fd } else none
  | .closeAll => some { s with spareConPool := [] }
  | .cleanup select ms =>
    if !s.cleaningPool || ms < s.ms then none
    else
      let r := SpareCon.backgroundCleanup (getTime s.ms) (getTime ms) select s.spareConPool
      (s.cleaner.step (.cleaned r.2)).map (fun c =>
        { s with cleaner := c, ms := ms, spareConPool := r.1, cleanedAt := getTime ms })
  | .loop e =>
    if s.cleaningPool && endsCleanup e || (clockOf e).any (· ≠ s.ms) then none
    else (s.cleaner.step e).map (fun c => { s with cleaner := c })

def run (s : IdlePool) (acts : List PoolAct) : Option IdlePool := runs step s acts

/-- Nothing is open at this time. -/
def start (ms : Int) : IdlePool := { ms := ms, cleanedAt := getTime ms }

end IdlePool

end Acng
