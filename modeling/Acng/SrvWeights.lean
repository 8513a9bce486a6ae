import Acng.Dns
import Acng.Lib.Scaling
import Acng.Lib.SortedBy

namespace Acng
open Lib

def INT_MAX : Nat := 2 ^ 31 - 1

/-- A service of the reply, and what its call of `random` is scaled to. -/
structure SrvRoll where
  reply : SrvReply
  scaled : Nat
deriving DecidableEq, Repr

namespace SrvRoll

/-- `p->weight *= ...`. The product is a long, and what is stored is an unsigned short. -/
def stored (r : SrvRoll) : SrvReply := { r.reply with weight := r.reply.weight * r.scaled % 2 ^ 16 }

/-- What is meant. -/
def product (r : SrvRoll) : Nat := r.reply.weight * r.scaled

/-- `comp`, for the services with their new weights. -/
def less (a b : SrvRoll) : Bool := DnsContext.srvLess a.stored b.stored

end SrvRoll

/-- `maxWeight`, over all priorities. -/
def maxWeight (all : List SrvReply) : Nat := all.foldl (fun m p => max p.weight m) 1

/-- The second loop of `cb_srv_query`: `random` is called once for each service, with a host or
without. The factor is at most 2^31 and fits into its unsigned int. -/
def srvRolls (all : List SrvReply) (random : List Nat) : List SrvRoll :=
  all.mapIdx (fun i p => ⟨p, random.getD i 0 / (INT_MAX / maxWeight all + 1)⟩)

/-- The services that are sorted. -/
def srvTargets (all : List SrvReply) (random : List Nat) : List SrvRoll :=
  (srvRolls all random).filter (·.reply.host.isSome)

/-- The order in which the model of `cb_srv_query` asks for them. -/
def srvOrder (all : List SrvReply) (random : List Nat) : List SrvRoll :=
  (srvTargets all random).mergeSort (fun a b => !SrvRoll.less b a)

/-- What the weights are for: none is cut off, and however the sort does it, among the services of
one priority none stands behind one with a smaller product. -/
structure WeightsKept (all : List SrvReply) (random : List Nat) : Prop where
  exact : ∀ r ∈ srvRolls all random, r.stored.weight = r.product
  ordered : ∀ order, SortedBy SrvRoll.less (srvTargets all random) order →
    order.Pairwise (fun a b => a.reply.priority = b.reply.priority → b.product ≤ a.product)

end Acng
