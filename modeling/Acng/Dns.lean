import Acng.Lib.Bytes
import Acng.Lib.Runs

namespace Acng
open Lib

def DNS_MAX_PER_REQUEST : Nat := 5
def DNS_CACHE_MAX : Nat := 255
def DNS_ERROR_KEEP_MAX_TIME : Int := 10
def MAX_ADDR : Nat := 10

def ARES_SUCCESS : Int := 0
def ARES_ENOTFOUND : Int := 4
def ARES_ENOTIMP : Int := 5
def ARES_ENOMEM : Int := 15
def ARES_EDESTRUCTION : Int := 16
def ARES_EBADFLAGS : Int := 18
def ARES_ECANCELLED : Int := 24

def PF_UNSPEC : Nat := 0
def PF_INET : Nat := 2
def PF_INET6 : Nat := 10
def SOCK_STREAM : Nat := 1
def IPPROTO_TCP : Nat := 6

/-- `acng_addrinfo`. The address has the length that belongs to it. -/
structure AddrInfo where
  family : Nat
  addr : Bytes
deriving DecidableEq, Repr

/-- `ares_addrinfo_node` -/
structure AddrNode where
  info : AddrInfo
  socktype : Nat := SOCK_STREAM
  protocol : Nat := IPPROTO_TCP
deriving DecidableEq, Repr

/-- `ares_srv_reply` -/
structure SrvReply where
  host : Option Bytes
  priority : Nat
  weight : Nat
deriving DecidableEq, Repr

/-- `CAddrInfo`. The default time is the greatest one. -/
structure CAddrInfo where
  sError : Bytes := []
  expTime : Int := 2 ^ 63 - 1
  sortedInfos : List AddrInfo := []
deriving DecidableEq, Repr

structure DnsCfg where
  dnscachetime : Int := 1800
  conprotos : Nat × Nat := (PF_UNSPEC, PF_UNSPEC)
  errnoText : Int → Bytes := fun _ => lit "DNS error"

def makeHostPortKey (sHostname : Bytes) (nPort : UInt16) : Bytes :=
  UInt8.ofNat nPort.toNat :: UInt8.ofNat (nPort.toNat / 256) :: sHostname

/-- What `Resolve` hands over to the other thread. The reporters are numbered. -/
structure DnsRequest where
  sHost : Bytes
  nPort : UInt16
  rep : Nat
deriving DecidableEq, Repr

def DnsRequest.key (r : DnsRequest) : Bytes := makeHostPortKey r.sHost r.nPort

/-- `tResult`, and the host that was asked for. It is pending while it has its reference. -/
structure DnsTask where
  host : Bytes
  pending : Bool := true
  status : Int := ARES_EBADFLAGS
  results : Option (List AddrNode) := none
deriving DecidableEq, Repr

/-- `tDnsResContext`. The services are asked for until their answer comes, and an indexed context
has its place in `g_active_resolver_index`. -/
structure DnsContext where
  id : Nat
  sHost : Bytes
  nPort : UInt16
  cbs : List Nat
  tasks : List DnsTask := []
  asked : Bool := false
  indexed : Bool := false
deriving DecidableEq, Repr

namespace DnsContext

def key (c : DnsContext) : Bytes := makeHostPortKey c.sHost c.nPort

/-- `tWeightedSrvComp` -/
def srvLess (a b : SrvReply) : Bool :=
  if a.priority < b.priority then true
  else if b.priority < a.priority then false
  else b.weight < a.weight

/-- The hosts that `cb_srv_query` asks for, for the services and the random numbers that weight
them. -/
def srvHosts (c : DnsContext) (status : Int) (reply : Option (List SrvReply)) (random : List Nat) :
    List Bytes :=
  match decide (status = ARES_SUCCESS), reply with
  | true, some all =>
    let maxWeight := all.foldl (fun m p => max p.weight m) 1
    let scaleFac := (2 ^ 31 - 1) / maxWeight + 1
    let weighted := all.mapIdx (fun i p =>
      { p with weight := p.weight * (random.getD i 0 / scaleFac) % 2 ^ 16 })
    let sorted := (weighted.filter (·.host.isSome)).mergeSort (fun a b => !srvLess b a)
    let hosts := (sorted.take DNS_MAX_PER_REQUEST).filterMap (·.host)
    -- target not included among SRV targets -> add as last resort
    if all.any (·.host = some c.sHost) then hosts else hosts ++ [c.sHost]
  | _, _ => [c.sHost]

/-- The lookups of these hosts, some of which are answered at once. -/
def newTasks (hosts : List Bytes) (instant : List (Option (Int × Option (List AddrNode)))) :
    List DnsTask :=
  hosts.mapIdx (fun i host =>
    match instant.getD i none with
    | none => { host }
    | some (status, results) => { host, pending := false, status, results })

def answered (c : DnsContext) (i : Nat) (status : Int) (results : Option (List AddrNode)) :
    DnsContext :=
  { c with tasks := c.tasks.modify i (fun t => { t with pending := false, status, results }) }

/-- The usable addresses, each of them once, in the order of the tasks. -/
def dedup (c : DnsContext) : List AddrInfo :=
  ((c.tasks.flatMap (fun t => t.results.getD [])).filter (fun p =>
    p.socktype = SOCK_STREAM && p.protocol = IPPROTO_TCP)).map (·.info) |>.eraseDups

/-- The status of the first task that failed. -/
def errStatus (c : DnsContext) : Int :=
  ((c.tasks.map (·.status)).find? (· ≠ ARES_SUCCESS)).getD ARES_SUCCESS

/-- They are taken in turns. -/
def alternate : List AddrInfo → List AddrInfo → List AddrInfo
  | [], ys => ys
  | x :: xs, [] => x :: xs
  | x :: xs, y :: ys => x :: y :: alternate xs ys

def wants (cfg : DnsCfg) (family : Nat) : Bool :=
  cfg.conprotos.1 = family || cfg.conprotos.1 = PF_UNSPEC ||
    cfg.conprotos.2 = family || cfg.conprotos.2 = PF_UNSPEC

def sortedInfos (cfg : DnsCfg) (c : DnsContext) : List AddrInfo :=
  let usable := (c.dedup.filter (fun a =>
    (wants cfg PF_INET && a.family = PF_INET) ||
      (wants cfg PF_INET6 && a.family = PF_INET6))).take MAX_ADDR
  let q4 := usable.filter (·.family = PF_INET)
  let q6 := usable.filter (·.family = PF_INET6)
  if cfg.conprotos.1 = PF_INET6 || cfg.conprotos.1 = PF_UNSPEC then alternate q6 q4
  else alternate q4 q6

/-- What the destructor reports at that time, and whether this is worth to be kept. -/
def result (cfg : DnsCfg) (c : DnsContext) (now : Int) : CAddrInfo × Bool :=
  let infos := c.sortedInfos cfg
  if infos.isEmpty then
    if c.errStatus = ARES_ENOTIMP then ({ sError := lit "Unsupported address family" }, false)
    else if c.errStatus = ARES_ENOTFOUND then ({ sError := lit "Host not found" }, false)
    else if c.errStatus = ARES_ECANCELLED || c.errStatus = ARES_EDESTRUCTION then
      ({ sError := lit "Temporary DNS resolution error" }, false)
    else if c.errStatus = ARES_ENOMEM then ({ sError := lit "Out of memory" }, false)
    else
      -- not critical, can keep this for a short time to avoid DNS storms
      ({ sError := cfg.errnoText c.errStatus
         expTime := now + min cfg.dnscachetime DNS_ERROR_KEEP_MAX_TIME }, true)
  else ({ expTime := now + cfg.dnscachetime, sortedInfos := infos }, true)

end DnsContext

/-- An entry of `dns_cache`, with the time at which it was made. This time is not part of the
program. -/
structure DnsEntry where
  key : Bytes
  info : CAddrInfo
  since : Int
deriving DecidableEq, Repr

/-- A note about an answer from the cache. -/
structure DnsHit where
  entry : DnsEntry
  time : Int
deriving DecidableEq, Repr

/-- A note about an entry that was purged: the time, the size of the cache before, and the entries
that stayed. -/
structure DnsPurge where
  entry : DnsEntry
  time : Int
  size : Nat
  stay : List DnsEntry
deriving DecidableEq, Repr

/-- The state of the resolver on the IO thread. The number of calls, the answers and the notes are
not part of the program. -/
structure DnsState where
  now : Int
  posted : List DnsRequest := []
  contexts : List DnsContext := []
  nextId : Nat := 0
  activeIndex : List (Bytes × Nat) := []
  dnsCache : List DnsEntry := []
  dnsExpQ : List Bytes := []
  calls : Nat := 0
  answers : List (Nat × CAddrInfo) := []
  hits : List DnsHit := []
  purges : List DnsPurge := []
deriving Repr

namespace DnsState

def cached (s : DnsState) (key : Bytes) : Option DnsEntry := s.dnsCache.find? (·.key = key)

def context (s : DnsState) (id : Nat) : Option DnsContext := s.contexts.find? (·.id = id)

def update (s : DnsState) (c : DnsContext) : DnsState :=
  { s with contexts := s.contexts.map (fun d => if d.id = c.id then c else d) }

def answer (s : DnsState) (reps : List Nat) (info : CAddrInfo) : DnsState :=
  { s with answers := s.answers ++ reps.map (fun rep => (rep, info)) }

/-- `clean_dns_cache` over the queue. -/
def cleanDnsCache (s : DnsState) : List Bytes → DnsState
  | [] => { s with dnsExpQ := [] }
  | key :: rest =>
    match s.cached key with
    | none => { s with dnsExpQ := key :: rest }
    | some entry =>
      if DNS_CACHE_MAX - 1 ≤ s.dnsCache.length || s.now ≤ entry.info.expTime then
        let stay := s.dnsCache.filter (·.key ≠ key)
        let purge : DnsPurge := { entry, time := s.now, size := s.dnsCache.length, stay }
        { s with dnsCache := stay, purges := s.purges ++ [purge] }.cleanDnsCache rest
      else { s with dnsExpQ := key :: rest }

/-- The copy for other users. The time goes on before the cache is cleaned. -/
def keep (s : DnsState) (key : Bytes) (info : CAddrInfo) (later : Nat) : DnsState :=
  let since := s.now
  let s := { s with now := s.now + later }
  let s := s.cleanDnsCache s.dnsExpQ
  { s with
    dnsCache := if (s.cached key).isSome then s.dnsCache else s.dnsCache ++ [⟨key, info, since⟩]
    dnsExpQ := s.dnsExpQ ++ [key] }

/-- `~tDnsResContext` -/
def destroy (cfg : DnsCfg) (s : DnsState) (c : DnsContext) (later : Nat) : DnsState :=
  let s := { s with
    contexts := s.contexts.filter (·.id ≠ c.id)
    activeIndex := s.activeIndex.filter (·.2 ≠ c.id) }
  let (ret, worth) := c.result cfg s.now
  let s := if worth && 0 < cfg.dnscachetime then s.keep c.key ret later else s
  s.answer c.cbs ret

/-- The context goes away with the last reference to it. -/
def release (cfg : DnsCfg) (s : DnsState) (c : DnsContext) (later : Nat) : DnsState :=
  if c.tasks.any (·.pending) then s.update c else s.destroy cfg c later

/-- What `Resolve` does on the IO thread. -/
def invoke (cfg : DnsCfg) (s : DnsState) (r : DnsRequest) (refused resolver : Bool) : DnsState :=
  if refused then s.answer [r.rep] { sError := lit "system error" }
  else
    match if 0 < cfg.dnscachetime then s.cached r.key else none with
    | some entry =>
      let hit : DnsHit := { entry, time := s.now }
      { s with hits := s.hits ++ [hit] }.answer [r.rep] entry.info
    | none =>
      match s.activeIndex.lookup r.key with
      | some id =>
        -- join the waiting crowd
        { s with contexts := s.contexts.map (fun c =>
            if c.id = id then { c with cbs := c.cbs ++ [r.rep] } else c) }
      | none =>
        let ctx : DnsContext :=
          { id := s.nextId, sHost := r.sHost, nPort := r.nPort, cbs := [r.rep] }
        if resolver then
          { s with
            nextId := s.nextId + 1
            contexts := s.contexts ++ [{ ctx with asked := true, indexed := true }]
            activeIndex := s.activeIndex ++ [(r.key, ctx.id)] }
        else
          -- nobody deletes it
          { s with
            nextId := s.nextId + 1
            contexts := s.contexts ++ [{ ctx with cbs := [] }] }.answer
            [r.rep] { sError := lit "503 Bad DNS configuration" }

/-- `reportNewError` -/
def reportNewError (s : DnsState) (c : DnsContext) (msg : Bytes) : DnsState × DnsContext :=
  (s.answer c.cbs { sError := msg }, { c with cbs := [] })

/-- What `cb_srv_query` does before it gives its reference away. -/
def srvQuery (s : DnsState) (c : DnsContext) (status : Int) (reply : Option (List SrvReply))
    (random : List Nat) (instant : List (Option (Int × Option (List AddrNode)))) :
    DnsState × DnsContext :=
  let c := { c with asked := false }
  if status = ARES_ECANCELLED || status = ARES_EDESTRUCTION then
    s.reportNewError c (lit "Temporary DNS resolution error")
  else if status = ARES_ENOMEM then s.reportNewError c (lit "Out of memory")
  else
    (s, { c with
      tasks := c.tasks ++ DnsContext.newTasks (c.srvHosts status reply random) instant })

/-- `cb_srv_query` -/
def cbSrvQuery (cfg : DnsCfg) (s : DnsState) (c : DnsContext) (status : Int)
    (reply : Option (List SrvReply)) (random : List Nat)
    (instant : List (Option (Int × Option (List AddrNode)))) (later : Nat) : DnsState :=
  let (s, c) := s.srvQuery c status reply random instant
  s.release cfg c later

/-- `cb_addrinfo` -/
def cbAddrinfo (cfg : DnsCfg) (s : DnsState) (c : DnsContext) (i : Nat) (status : Int)
    (results : Option (List AddrNode)) (later : Nat) : DnsState :=
  s.release cfg (c.answered i status results) later

/-- `RejectPendingDnsRequests`, for the contexts of the index. -/
def rejectPending (s : DnsState) : List Nat → DnsState
  | [] => s
  | id :: rest =>
    match s.context id with
    | none => s.rejectPending rest
    | some c =>
      let (s, c) := s.reportNewError c (lit "System shutting down")
      (s.update c).rejectPending rest

end DnsState

/-- What can happen: somebody calls `Resolve`, the first request that was posted is worked on, an
answer comes for the services of a context or for one of its hosts, all requests are rejected. -/
inductive DnsEvent
  | resolve (sHost : Bytes) (nPort : UInt16)
  | invoke (refused resolver : Bool)
  | srvAnswer (id : Nat) (status : Int) (reply : Option (List SrvReply)) (random : List Nat)
      (instant : List (Option (Int × Option (List AddrNode)))) (later : Nat)
  | addrAnswer (id i : Nat) (status : Int) (results : Option (List AddrNode)) (later : Nat)
  | reject

namespace DnsState

/-- One event after a while. An answer comes once. -/
def step (cfg : DnsCfg) (s : DnsState) (e : Nat × DnsEvent) : Option DnsState :=
  let s := { s with now := s.now + e.1 }
  match e.2 with
  | .resolve sHost nPort =>
    some { s with calls := s.calls + 1, posted := s.posted ++ [⟨sHost, nPort, s.calls⟩] }
  | .invoke refused resolver =>
    match s.posted with
    | [] => none
    | r :: posted => some ({ s with posted }.invoke cfg r refused resolver)
  | .srvAnswer id status reply random instant later =>
    ((s.context id).filter (·.asked)).map (fun c =>
      s.cbSrvQuery cfg c status reply random instant later)
  | .addrAnswer id i status results later =>
    ((s.context id).filter (fun c => (c.tasks.map (·.pending)).getD i false)).map (fun c =>
      s.cbAddrinfo cfg c i status results later)
  | .reject => some (s.rejectPending (s.activeIndex.map (·.2)))

end DnsState

end Acng
