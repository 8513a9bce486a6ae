import Acng.DlSystem

namespace Acng
open Lib

inductive ESharingHow
  | alwaysTrySharing | autoMoveOutOfTheWay | forceMoveOutOfTheWay
deriving DecidableEq, Repr

structure RegistryCfg where
  stupidfs : Bool := false
  cacheDirSlash : Bytes := lit "/var/cache/apt-cacher-ng/"
  stucksecs : Int := 60
  maxtempdelay : Int := 27

def isSafeUrlChar (c : UInt8) : Bool := isalnum c || (lit "/-._?&=").contains c

def dosEscape (s : Bytes) : Bytes :=
  let h2t (n : Nat) : UInt8 := (lit "0123456789abcdef").getD n 48
  s.flatMap (fun c =>
    if isSafeUrlChar c then [c] else [37, h2t (c.toNat / 16), h2t (c.toNat % 16)])

/-- `fileitem_with_storage::NormalizePath`. -/
def RegistryCfg.normalizePath (cfg : RegistryCfg) (sPathRaw : Bytes) : Bytes :=
  if cfg.stupidfs then dosEscape sPathRaw else sPathRaw

def RegistryCfg.absPath (cfg : RegistryCfg) (x : Bytes) : Bytes := cfg.cacheDirSlash ++ x

/-- Result of `link` or `unlink`. -/
inductive FsResult
  | ok | enoent | failed
deriving DecidableEq, Repr

/-- What the file system says in one `Create`: the two results of the move, and the files
at the path of a new item. -/
structure CreateIo where
  link : FsResult := .enoent
  unlink : FsResult := .ok
  disk : Disk := {}

/-- The move went as hoped for, or there was nothing to move. A failed `unlink` is fatal only
if the file was gone. -/
def CreateIo.moved (io : CreateIo) : Bool :=
  match io.link with
  | .ok => io.unlink != .enoent
  | .enoent => true
  | .failed => false

/-- A node of the map. -/
structure Iter where
  key : Bytes
  node : Nat
deriving DecidableEq, Repr

structure Slot where
  node : Nat
  item : Nat
deriving DecidableEq, Repr

/-- An item as the registry sees it. No reference into the map is `end()`. -/
structure RegItem where
  fi : FileItem := {}
  usercount : Int := 0
  globRef : Option Iter := none
  owner : Bool := false
  bCreateItemMustDisplace : Bool := false
deriving DecidableEq, Repr

structure ExpiredEntry where
  hodler : Nat
  timeExpired : Int
deriving DecidableEq, Repr

/-- `TFileItemRegistry` with all items and all holders in the program. A holder is what it
points to. -/
structure Registry where
  items : Nat → RegItem := fun _ => {}
  mapItems : Bytes → Option Slot := fun _ => none
  prolongedLifetimeQ : List ExpiredEntry := []
  holders : List (Option Nat) := []
  next : Nat := 0
  nextNode : Nat := 0

/-- What a destructor finds around it. -/
structure Release where
  now : Int
  inShutdown : Bool := false
deriving DecidableEq, Repr

namespace RegItem

def expDate (cfg : RegistryCfg) (it : RegItem) (now : Int) : Int :=
  -- the sum is the condition
  if cfg.maxtempdelay + it.fi.nTimeDlStarted ≠ 0 then it.fi.nTimeDlStarted else now

/-- Some file items will be held ready for some time. -/
def heldReady (cfg : RegistryCfg) (it : RegItem) (manger : Bool) (rel : Release) : Bool :=
  manger && !rel.inShutdown && cfg.maxtempdelay ≠ 0 && it.fi.isVolatile &&
    it.fi.status = .complete && rel.now < it.expDate cfg rel.now

/-- What becomes of a registered item in `Create`. -/
inductive Verdict
  | share | side | displace
deriving DecidableEq, Repr

def verdict (cfg : RegistryCfg) (it : RegItem) (how : ESharingHow) (spattr : SpecialPurposeAttr)
    (now : Int) : Verdict :=
  if how = .alwaysTrySharing || it.bCreateItemMustDisplace then .share
  else if how = .forceMoveOutOfTheWay then .displace
  else
    let makeWay := decide (it.fi.nTimeDlStarted + cfg.stucksecs < now)
    -- replace if previous was working in solid mode because it does less checks
    let makeWay :=
      if !makeWay && it.fi.isVolatile != spattr.bVolatile then !it.fi.isVolatile else makeWay
    if !makeWay && spattr.bHeadOnly && !it.fi.spattr.bHeadOnly then .side
    else
      let makeWay := if !makeWay && spattr.bHeadOnly != it.fi.spattr.bHeadOnly then true else makeWay
      if makeWay || spattr.nRangeLimit ≠ it.fi.spattr.nRangeLimit then .displace else .share

end RegItem

namespace Registry

def setItem (w : Registry) (i : Nat) (it : RegItem) : Registry :=
  { w with items := Function.update w.items i it }

/-- The live holders of an item, with those that keep it for later requests. -/
def users (w : Registry) (i : Nat) : Nat :=
  w.holders.count (some i) + (w.prolongedLifetimeQ.map (·.hodler)).count i

/-- `mapItems.erase`. For `end()` or a node that is gone it is undefined; here nothing happens. -/
def erase (w : Registry) (it : Option Iter) : Registry :=
  match it with
  | none => w
  | some it =>
    if (w.mapItems it.key).map (·.node) = some it.node then
      { w with mapItems := Function.update w.mapItems it.key none }
    else w

/-- An item is entered into the map under its path. -/
def emplace (w : Registry) (i : Nat) : Registry :=
  let key := (w.items i).fi.sPathRel
  { w.setItem i { w.items i with globRef := some ⟨key, w.nextNode⟩, owner := true } with
    mapItems := Function.update w.mapItems key (some ⟨w.nextNode, i⟩), nextNode := w.nextNode + 1 }

/-- A new object that nobody uses yet. -/
def make (w : Registry) (fi : FileItem) : Registry :=
  { w.setItem w.next { fi := fi } with next := w.next + 1 }

def use (w : Registry) (i : Nat) : Registry :=
  w.setItem i { w.items i with usercount := (w.items i).usercount + 1 }

/-- The local function of `Create` that registers a new item. -/
def regnew (w : Registry) (sPathRel : Bytes) (spattr : SpecialPurposeAttr) (disk : Disk) :
    Registry × Option Nat :=
  (((w.make { sPathRel := sPathRel, spattr := spattr, disk := disk }).use w.next).emplace w.next,
    some w.next)

def share (w : Registry) (i : Nat) : Registry × Option Nat := (w.use i, some i)

/-- The new item is head-only and goes to the side track. It is a plain `fileitem`. -/
def sideTrack (w : Registry) (sPathRel : Bytes) (spattr : SpecialPurposeAttr) :
    Registry × Option Nat :=
  ((w.make { sPathRel := sPathRel, spattr := { spattr with bNoStore := true } }).use w.next,
    some w.next)

def replPathRel (fi : FileItem) (now : Int) : Bytes := fi.sPathRel ++ lit "." ++ lit (toString now)

/-- The first half of `abandon_replace`. The path becomes the absolute one. -/
def abandon (cfg : RegistryCfg) (w : Registry) (sPathRel : Bytes) (i : Nat) (now : Int) : Registry :=
  let it := w.items i
  { w.setItem i { it with
      fi := { it.fi with
        sPathRel := cfg.absPath (replPathRel it.fi now), eDestroy := .abandoned }
      globRef := none, owner := false } with
    mapItems := Function.update w.mapItems sPathRel none }

/-- `TFileItemRegistry::Create` for a path: the pointer in the returned holder. -/
def createFor (cfg : RegistryCfg) (w : Registry) (sPathUnescaped : Bytes) (how : ESharingHow)
    (spattr : SpecialPurposeAttr) (now : Int) (io : CreateIo) : Registry × Option Nat :=
  let sPathRel := cfg.normalizePath sPathUnescaped
  match w.mapItems sPathRel with
  | none => w.regnew sPathRel spattr io.disk
  | some slot =>
    let it := w.items slot.item
    match it.verdict cfg how spattr now with
    | .share => w.share slot.item
    | .side => w.sideTrack sPathRel spattr
    | .displace =>
      if it.fi.sPathRel.isEmpty || !io.moved then (w, none)
      else (w.abandon cfg sPathRel slot.item now).regnew sPathRel spattr io.disk

/-- `TFileItemRegistry::Create` for an item made elsewhere. -/
def createCustom (w : Registry) (spCustomFileItem : Nat) (isShareable : Bool) :
    Registry × Option Nat :=
  let key := (w.items spCustomFileItem).fi.sPathRel
  if w.next ≤ spCustomFileItem || key.isEmpty then (w, none)
  else if (w.mapItems key).isSome then
    -- conflict, another agent is already active
    (w, if isShareable then none else some spCustomFileItem)
  else ((w.emplace spCustomFileItem).use spCustomFileItem, some spCustomFileItem)

def unreg (w : Registry) (i : Nat) : Registry :=
  (w.erase (w.items i).globRef).setItem i { w.items i with globRef := none, owner := false }

/-- `AddToProlongedQueue`. -/
def addToProlongedQueue (w : Registry) (i : Nat) (expTime : Int) : Registry :=
  { w with prolongedLifetimeQ := w.prolongedLifetimeQ ++ [⟨i, expTime⟩] }

/-- The critical section of `~TFileItemHolder`. The item was found to have an owner or not. -/
def drop (cfg : RegistryCfg) (w : Registry) (i : Nat) (manger : Bool) (rel : Release) : Registry :=
  let it := { w.items i with usercount := (w.items i).usercount - 1 }
  if 0 < it.usercount then w.setItem i it
  else if it.heldReady cfg manger rel then
    (w.setItem i { it with usercount := it.usercount + 1 }).addToProlongedQueue i
      (it.expDate cfg rel.now)
  else
    let w := w.setItem i { it with fi := it.fi.expire }
    if manger then w.unreg i else w

/-- `~TFileItemHolder` without anything in between. -/
def dropRef (cfg : RegistryCfg) (w : Registry) (i : Nat) (rel : Release) : Registry :=
  w.drop cfg i (w.items i).owner rel

/-- The destructors of a list of holders, each with its own surroundings. -/
def dropAll (cfg : RegistryCfg) : List Nat → (Nat → Release) → Registry → Registry
  | [], _, w => w
  | i :: is, rel, w => dropAll cfg is (fun n => rel (n + 1)) (w.dropRef cfg i (rel 0))

/-- The part of `BackgroundCleanup` that runs under its lock: the holders to be released, and
what is left. -/
def expired (w : Registry) (now : Int) : List Nat × Registry :=
  ((w.prolongedLifetimeQ.takeWhile (fun el => el.timeExpired ≤ now)).map (·.hodler),
    { w with prolongedLifetimeQ := w.prolongedLifetimeQ.dropWhile (fun el => el.timeExpired ≤ now) })

/-- `BackgroundCleanup`, with the time of the next one if there is anything left. -/
def backgroundCleanup (cfg : RegistryCfg) (w : Registry) (now : Int) (rel : Nat → Release) :
    Registry × Option Int :=
  (dropAll cfg (w.expired now).1 rel (w.expired now).2,
    (w.expired now).2.prolongedLifetimeQ.head?.map (·.timeExpired))

/-- The caller gets a holder. -/
def handOut (r : Registry × Option Nat) : Registry := { r.1 with holders := r.1.holders ++ [r.2] }

/-- The move constructor leaves the source empty. -/
def moveConstruct (w : Registry) (src : Nat) : Registry :=
  match w.holders[src]? with
  | none => w
  | some p => { w with holders := w.holders.set src none ++ [p] }

/-- The move assignment swaps. -/
def moveAssign (w : Registry) (dst src : Nat) : Registry :=
  match w.holders[dst]?, w.holders[src]? with
  | some p, some q => { w with holders := (w.holders.set dst q).set src p }
  | _, _ => w

/-- A holder goes out of scope. -/
def destroy (cfg : RegistryCfg) (w : Registry) (k : Nat) (rel : Release) : Registry :=
  let rest := { w with holders := w.holders.eraseIdx k }
  match w.holders[k]? with
  | some (some i) => rest.dropRef cfg i rel
  | _ => rest

/-- What the agents of an item do to it. None of them changes its path. -/
def touch (w : Registry) (i : Nat) (fi : FileItem) : Registry :=
  w.setItem i { w.items i with fi := { fi with sPathRel := (w.items i).fi.sPathRel } }

/-- The steps that are atomic in any case. -/
inductive Call
  | make (fi : FileItem)
  | createFor (sPathUnescaped : Bytes) (how : ESharingHow) (spattr : SpecialPurposeAttr) (now : Int)
      (io : CreateIo)
  | createCustom (spCustomFileItem : Nat) (isShareable : Bool)
  | moveConstruct (src : Nat)
  | moveAssign (dst src : Nat)
  | touch (i : Nat) (fi : FileItem)

def call (cfg : RegistryCfg) (w : Registry) : Call → Registry
  | .make fi => w.make fi
  | .createFor path how spattr now io => handOut (w.createFor cfg path how spattr now io)
  | .createCustom i isShareable => handOut (w.createCustom i isShareable)
  | .moveConstruct src => w.moveConstruct src
  | .moveAssign dst src => w.moveAssign dst src
  | .touch i fi => w.touch i fi

/-- The operations of a sequential history. -/
inductive Op
  | call (c : Call)
  | destroy (k : Nat) (rel : Release)
  | backgroundCleanup (now : Int) (rel : Nat → Release)

def apply (cfg : RegistryCfg) (w : Registry) : Op → Registry
  | .call c => w.call cfg c
  | .destroy k rel => w.destroy cfg k rel
  | .backgroundCleanup now rel => (w.backgroundCleanup cfg now rel).1

def run (cfg : RegistryCfg) (w : Registry) (ops : List Op) : Registry := ops.foldl (apply cfg) w

/-- The `Create` of an item made elsewhere meets no other item. -/
def Call.ConflictFree (w : Registry) : Call → Prop
  | .createCustom i _ => i < w.next → (w.items i).fi.sPathRel ≠ [] →
      w.mapItems (w.items i).fi.sPathRel = none
  | _ => True

def Op.ConflictFree (w : Registry) : Op → Prop
  | .call c => c.ConflictFree w
  | _ => True

def ConflictFree (cfg : RegistryCfg) : Registry → List Op → Prop
  | _, [] => True
  | w, op :: ops => op.ConflictFree w ∧ ConflictFree cfg (w.apply cfg op) ops

end Registry

/-- A destructor of a holder that has read `m_owner` and waits for the locks. -/
structure Leaving where
  item : Nat
  manger : Bool
deriving DecidableEq, Repr

/-- The registry among threads. -/
structure Contended where
  reg : Registry := {}
  leaving : List Leaving := []

namespace Contended

/-- The steps of an interleaving. The holders that a cleanup releases are destroyed like others. -/
inductive Event
  | call (c : Registry.Call)
  | readOwner (k : Nat)
  | leave (n : Nat) (rel : Release)
  | backgroundCleanup (now : Int)

def step (cfg : RegistryCfg) (w : Contended) : Event → Contended
  | .call c => { w with reg := w.reg.call cfg c }
  | .readOwner k =>
    let reg := { w.reg with holders := w.reg.holders.eraseIdx k }
    match w.reg.holders[k]? with
    | some (some i) => { reg := reg, leaving := w.leaving ++ [⟨i, (w.reg.items i).owner⟩] }
    | _ => { w with reg := reg }
  | .leave n rel =>
    match w.leaving[n]? with
    | some l => { reg := w.reg.drop cfg l.item l.manger rel, leaving := w.leaving.eraseIdx n }
    | none => w
  | .backgroundCleanup now =>
    let (released, reg) := w.reg.expired now
    { w with reg := { reg with holders := reg.holders ++ released.map some } }

/-- The critical section comes to `Unreg`. -/
def unregisters (cfg : RegistryCfg) (w : Contended) (l : Leaving) (rel : Release) : Bool :=
  l.manger && (w.reg.items l.item).usercount ≤ 1 &&
    !(w.reg.items l.item).heldReady cfg l.manger rel

/-- Something holds before each step of an interleaving. -/
def Along (cfg : RegistryCfg) (P : Contended → Event → Prop) : Contended → List Event → Prop
  | _, [] => True
  | w, e :: es => P w e ∧ Along cfg P (w.step cfg e) es

end Contended

end Acng
