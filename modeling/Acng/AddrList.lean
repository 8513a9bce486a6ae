import Acng.Dns

namespace Acng
open Lib

/-- `acng_addrinfo::operator==` for other objects, with the lengths of the addresses. -/
def AddrInfo.same (a other : AddrInfo) : Bool :=
  other.addr.length == a.addr.length && other.family == a.family &&
    a.addr.take a.addr.length == other.addr.take a.addr.length

namespace DnsContext

/-- The loop over the nodes of a result. -/
def collectNodes : List AddrNode → List AddrInfo → List AddrInfo
  | [], dedup => dedup
  | pCur :: nodes, dedup =>
    if pCur.socktype ≠ SOCK_STREAM ∨ pCur.protocol ≠ IPPROTO_TCP then collectNodes nodes dedup
    else
      match dedup.find? (fun a => a.same pCur.info) with
      | some _ => collectNodes nodes dedup
      | none => collectNodes nodes (dedup ++ [pCur.info])

/-- The loop over the tasks. -/
def collectTasks : List DnsTask → List AddrInfo → List AddrInfo
  | [], dedup => dedup
  | taskCtx :: tasks, dedup =>
    match taskCtx.results with
    | none => collectTasks tasks dedup
    | some tres => collectTasks tasks (collectNodes tres dedup)

/-- The loop that fills the queues of the two families. -/
def fillQueues (cfg : DnsCfg) : List AddrInfo → List AddrInfo → List AddrInfo → List AddrInfo × List AddrInfo
  | [], q4, q6 => (q4, q6)
  | front :: dedup, q4, q6 =>
    if q4.length + q6.length < MAX_ADDR then
      if wants cfg PF_INET && front.family = PF_INET then fillQueues cfg dedup (q4 ++ [front]) q6
      else if wants cfg PF_INET6 && front.family = PF_INET6 then fillQueues cfg dedup q4 (q6 ++ [front])
      else fillQueues cfg dedup q4 q6
    else (q4, q6)

/-- The loop that takes from the queues, with so many rounds at most. The selector flips in each round. -/
def takeTurns : Nat → Bool → List AddrInfo → List AddrInfo → List AddrInfo → Option (List AddrInfo)
  | rounds, sel6, q4, q6, infos =>
    if q4.length + q6.length = 0 then some infos
    else
      match rounds with
      | 0 => none
      | rounds + 1 =>
        match sel6, q4, q6 with
        | true, q4, front :: q6 => takeTurns rounds false q4 q6 (infos ++ [front])
        | false, front :: q4, q6 => takeTurns rounds true q4 q6 (infos ++ [front])
        | sel6, q4, q6 => takeTurns rounds (!sel6) q4 q6 infos

/-- The part of `~tDnsResContext` that makes the list of addresses. -/
def makeList (cfg : DnsCfg) (tasks : List DnsTask) (rounds : Nat) : Option (List AddrInfo) :=
  let (q4, q6) := fillQueues cfg (collectTasks tasks []) [] []
  takeTurns rounds (cfg.conprotos.1 = PF_INET6 || cfg.conprotos.1 = PF_UNSPEC) q4 q6 []

end DnsContext

end Acng
