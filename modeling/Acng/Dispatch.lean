import Acng.Failover
import Acng.Registry

namespace Acng
open Lib

/-- The classes of items that `Prepare` works with. -/
inductive ItemClass
  | storage | plain | passThrough
deriving DecidableEq, Repr

/-- `Setup` of the class: its result and what becomes of the item. -/
def ItemClass.setup : ItemClass → FileItem → FiStatus × FileItem
  | .storage, fi => (fi.setup.status, fi.setup)
  | .plain, fi => (.dlError, fi)
  | .passThrough, fi => (.inited, { fi with status := .inited })

/-- The settings of `Prepare` and what is below it. -/
structure DispatchCfg where
  serve : ServeCfg
  registry : RegistryCfg := {}
  env : Env
  forcemanaged : Bool := false
  matchUncacheableTgt : Bytes → Bool := fun _ => false
  repoData : Bytes → RepoData := fun _ => {}

namespace DispatchCfg

/-- The repository of a URL and the rest of the path, if it has backends. -/
def backed (cfg : DispatchCfg) (url : HttpUrl) : Option (RepoData × Bytes) :=
  ((getRepNameAndPathResidual cfg.serve url).map fun r => (cfg.repoData r.1, r.2)).filter
    fun r => !r.1.backends.isEmpty

/-- Only the first backend server is checked. -/
def testUri (cfg : DispatchCfg) (url : HttpUrl) : Bytes :=
  match cfg.backed url with
  | some (repo, sRestPath) => ((repo.backends.head?.map (·.toURI)).getD []) ++ sRestPath
  | none => url.toURI

/-- The job that `AddJob` makes for an item. -/
def newJob (cfg : DispatchCfg) (url : HttpUrl) (fi : FileItem) : DlJob :=
  match cfg.backed url with
  | some (repo, sRestPath) => .newForRepo cfg.env.cfg fi repo sRestPath
  | none => .new cfg.env.cfg fi url

end DispatchCfg

/-- Where a call of `Prepare` is. Behind `Setup` it only looks at its own data until it needs a
pass-through item or a downloader, or returns. -/
inductive PrepareStage
  | parsed
  | created (i : Nat)
  | switching
  | switched (i : Nat)
  | ready (i : Nat)
  | leaving (i : Nat)
  | returned (i : Nat)
  | early (response : Bytes)
deriving DecidableEq, Repr

/-- The item that the call has and works on. -/
def PrepareStage.item : PrepareStage → Option Nat
  | .created i | .switched i | .ready i | .leaving i => some i
  | _ => none

/-- A call of `Prepare` for a request with a type. -/
structure PrepareCall where
  url : HttpUrl
  sFileLoc : Bytes
  attr : SpecialPurposeAttr
  bPtMode : Bool
  stage : PrepareStage := .parsed
deriving DecidableEq, Repr

namespace PrepareCall

def how (c : PrepareCall) : ESharingHow :=
  if c.attr.bVolatile then .autoMoveOutOfTheWay else .alwaysTrySharing

/-- What follows from the status. -/
def checked (cfg : DispatchCfg) (c : PrepareCall) (i : Nat) (fistate : FiStatus) : PrepareStage :=
  if fistate = .complete then .leaving i
  else if cfg.serve.offlinemode then .early (lit "503 Unable to download in offline mode")
  else if fistate < .dlGotHead then
    if cfg.forcemanaged && (cfg.backed c.url).isNone then
      .early (lit "403 Forbidden file type or location")
    else if !c.bPtMode && cfg.matchUncacheableTgt (cstr (cfg.testUri c.url)) then .switching
    else .ready i
  else .leaving i

/-- The first `Setup` has returned. -/
def afterSetup (cfg : DispatchCfg) (c : PrepareCall) (i : Nat) (fistate : FiStatus) :
    PrepareStage :=
  if c.bPtMode && fistate ≠ .complete then .switching else c.checked cfg i fistate

/-- `_SwitchToPtItem` returns. When it was called for the target its result is not used. -/
def afterSwitch (cfg : DispatchCfg) (c : PrepareCall) (i : Nat) (fistate : FiStatus) :
    PrepareStage :=
  if c.bPtMode then c.checked cfg i fistate else .ready i

end PrepareCall

/-- All calls of `Prepare`, with the registry, the jobs and the items between them. -/
structure Dispatch where
  reg : Registry := {}
  cls : Nat → ItemClass := fun _ => .storage
  queues : List (List JobObj) := []
  nextJob : Nat := 0
  calls : List PrepareCall := []

namespace Dispatch

/-- What the download system sees. -/
def world (s : Dispatch) : World :=
  { items := fun i => (s.reg.items i).fi, queues := s.queues, next := s.nextJob }

def withWorld (s : Dispatch) (w : World) : Dispatch :=
  { s with
    reg := { s.reg with items := fun i => { s.reg.items i with fi := w.items i } }
    queues := w.queues
    nextJob := w.next }

def fileItem (s : Dispatch) (i : Nat) : FileItem := (s.reg.items i).fi

def advance (s : Dispatch) (k : Nat) (c : PrepareCall) (stage : PrepareStage) : Dispatch :=
  { s with calls := s.calls.set k { c with stage := stage } }

/-- The class of the item that `Create` would make. -/
def newClass (s : Dispatch) (cfg : DispatchCfg) (c : PrepareCall) (now : Int) : ItemClass :=
  match s.reg.mapItems (cfg.registry.normalizePath c.sFileLoc) with
  | none => .storage
  | some slot =>
    match (s.reg.items slot.item).verdict cfg.registry c.how c.attr now with
    | .side => .plain
    | _ => .storage

def create (s : Dispatch) (cfg : DispatchCfg) (k : Nat) (c : PrepareCall) (now : Int)
    (io : CreateIo) (degradedMode : Bool) : Dispatch :=
  let r := s.reg.createFor cfg.registry c.sFileLoc c.how c.attr now io
  { s with
    reg := Registry.handOut r
    cls := Function.update s.cls s.reg.next (s.newClass cfg c now) }.advance k c
      (match r.2 with
      | none => .early (lit "503 Error with cache data, please consult apt-cacher.err")
      | some i =>
        if degradedMode then .early (lit "403 Cache server in degraded mode") else .created i)

/-- The item is set up according to its class. -/
def setup (s : Dispatch) (i : Nat) : Dispatch :=
  { s with reg := s.reg.setItem i { s.reg.items i with fi := ((s.cls i).setup (s.fileItem i)).2 } }

def fistate (s : Dispatch) (i : Nat) : FiStatus := ((s.cls i).setup (s.fileItem i)).1

/-- The creation in `_SwitchToPtItem`. The holder of the item in place before is released later. -/
def createPtItem (s : Dispatch) (c : PrepareCall) : Registry × Option Nat :=
  (s.reg.make { sPathRel := c.sFileLoc }).createCustom s.reg.next false

def switchToPtItem (s : Dispatch) (k : Nat) (c : PrepareCall) (i : Nat) : Dispatch :=
  { s with
    reg := Registry.handOut (s.createPtItem c)
    cls := Function.update s.cls s.reg.next .passThrough }.advance k c (.switched i)

/-- `AddJob` on the downloader of the connection, behind its constructors. -/
def addJob (s : Dispatch) (cfg : DispatchCfg) (spot : Spot) (k : Nat) (c : PrepareCall) (i : Nat) :
    Dispatch :=
  (s.withWorld { s.world.setItem i (s.fileItem i).dlRefCountAdd with
    queues := spot.fill [⟨s.nextJob, some i, cfg.newJob c.url (s.fileItem i), .running⟩]
    next := s.nextJob + 1 }).advance k c (.leaving i)

/-- The only distinction between actions: which call runs `Setup`, if any. -/
inductive Act
  | setup (k : Nat)
  | other
deriving DecidableEq, Repr

/-- Any interleaving of requests, downloaders and releases. -/
inductive Step (cfg : DispatchCfg) (s : Dispatch) : Act → Dispatch → Prop
  /-- A request comes as far as `Create`. -/
  | arrive (h : Header) (u : HttpUrl) (sFileLoc : Bytes) (attr : SpecialPurposeAttr)
      (bPtMode : Bool)
      (hp : prepare cfg.serve h = .create sFileLoc attr bPtMode)
      (hu : HttpUrl.setHttpUrl (rewriteHttps (urlUnescape h.status.msg)) false = some u) :
      Step cfg s .other { s with calls := s.calls ++
        [{ url := { u with sPath := squeeze 47 u.sPath }, sFileLoc, attr, bPtMode }] }
  | create (k : Nat) (c : PrepareCall) (now : Int) (io : CreateIo) (degradedMode : Bool)
      (hc : s.calls[k]? = some c) (hs : c.stage = .parsed) :
      Step cfg s .other (s.create cfg k c now io degradedMode)
  | setup (k : Nat) (c : PrepareCall) (i : Nat) (hc : s.calls[k]? = some c)
      (hs : c.stage = .created i) :
      Step cfg s (.setup k) ((s.setup i).advance k c (c.afterSetup cfg i (s.fistate i)))
  | switch (k : Nat) (c : PrepareCall) (i : Nat) (hc : s.calls[k]? = some c)
      (hs : c.stage = .switching) (hi : (s.createPtItem c).2 = some i) :
      Step cfg s .other (s.switchToPtItem k c i)
  | setupSwitched (k : Nat) (c : PrepareCall) (i : Nat) (hc : s.calls[k]? = some c)
      (hs : c.stage = .switched i) :
      Step cfg s (.setup k) ((s.setup i).advance k c (c.afterSwitch cfg i (s.fistate i)))
  | addJob (spot : Spot) (k : Nat) (c : PrepareCall) (i : Nat) (hc : s.calls[k]? = some c)
      (hs : c.stage = .ready i) (hq : s.queues = spot.fill []) :
      Step cfg s .other (s.addJob cfg spot k c i)
  | finish (k : Nat) (c : PrepareCall) (i : Nat) (hc : s.calls[k]? = some c)
      (hs : c.stage = .leaving i) : Step cfg s .other (s.advance k c (.returned i))
  /-- The downloaders work, those of other parts of the program included. They have no jobs for
  items that do not exist. -/
  | downloader (w : World)
      (h : World.Step cfg.env (fun i => s.cls i ≠ .storage) s.world w)
      (hnew : ∀ i, s.reg.next ≤ i → w.refs i = 0) : Step cfg s .other (s.withWorld w)
  | destroy (n : Nat) (rel : Release) :
      Step cfg s .other { s with reg := s.reg.destroy cfg.registry n rel }
  | backgroundCleanup (now : Int) (rel : Nat → Release) :
      Step cfg s .other { s with reg := (s.reg.backgroundCleanup cfg.registry now rel).1 }

/-- The item is complete or failed, or it has a job, and the counter shows it as far as it can
count, or there is all that a HEAD request needs. -/
def Served (s : Dispatch) (i : Nat) (bHeadOnly : Bool) : Prop :=
  .complete ≤ (s.fileItem i).status ∨
    (0 < s.world.refs i ∧ (s.world.refs i < 2 ^ 32 → 0 < (s.fileItem i).nDlRefsCount)) ∨
    (bHeadOnly = true ∧ .dlGotHead ≤ (s.fileItem i).status)

/-- Whatever call returns now, its request is served. -/
def AllServed (s : Dispatch) : Prop :=
  ∀ c ∈ s.calls, ∀ i, c.stage = .leaving i → s.Served i c.attr.bHeadOnly

end Dispatch

/-- The head of an item without its data: taken already, or about to be taken from the cache for
a head-only item. A missing file is good enough for that. -/
def FileItem.headWithoutData (fi : FileItem) : Bool :=
  (.dlGotHead ≤ fi.status && fi.status < .complete) ||
    (fi.status == .fresh && fi.spattr.bHeadOnly && !fi.isVolatile && fi.parseHeadFromStorage.1)

namespace Dispatch

/-- A call that is about to run `Setup`, while nobody downloads the item. Without pass-through
mode it takes the error of a plain item, or for a GET the head of a storage item, as a download
under way. A pass-through item that is shared is put back to its beginning under another call. -/
inductive Misled (s : Dispatch) : Act → Prop
  | plain (k : Nat) (c : PrepareCall) (i : Nat) (hc : s.calls[k]? = some c)
      (hs : c.stage = .created i)
      (hr : s.world.refs i = 0) (hpt : c.bPtMode = false) (hcls : s.cls i = .plain)
      (hst : (s.fileItem i).status < if c.attr.bHeadOnly then .dlGotHead else .complete) :
      Misled s (.setup k)
  | storage (k : Nat) (c : PrepareCall) (i : Nat) (hc : s.calls[k]? = some c)
      (hs : c.stage = .created i) (hr : s.world.refs i = 0) (hpt : c.bPtMode = false)
      (hcls : s.cls i = .storage) (hget : c.attr.bHeadOnly = false)
      (hst : (s.fileItem i).headWithoutData = true) : Misled s (.setup k)
  | passThrough (k : Nat) (c : PrepareCall) (i k' : Nat) (c' : PrepareCall)
      (hc : s.calls[k]? = some c)
      (hs : c.stage = .created i ∨ c.stage = .switched i) (hr : s.world.refs i = 0)
      (hcls : s.cls i = .passThrough) (hc' : s.calls[k']? = some c') (hs' : c'.stage = .leaving i) :
      Misled s (.setup k)

end Dispatch

end Acng
