import Acng.Dispatch
import Acng.Proofs.Sharing
import Acng.Proofs.SingleWriter

namespace Acng
open Lib

/-- A storage item has its head behind `Setup`, and nothing else, exactly if it has it before or
gets it from the cache. -/
theorem FileItem.headWithoutData_iff (fi : FileItem) :
    fi.headWithoutData = true ↔ .dlGotHead ≤ fi.setup.status ∧ fi.setup.status < .complete := by
  by_cases hs : .fresh < fi.status
  · have hne : fi.status ≠ .fresh := hs.ne'
    simp [headWithoutData, setup_begun fi hs, hne]
  · have hfresh : fi.status = .fresh := le_antisymm (not_lt.mp hs) (by cases fi.status <;> decide)
    have hends : ¬ FiStatus.dlGotHead ≤ .fresh ∧ ¬ FiStatus.dlGotHead ≤ .inited := by decide
    have hhead : FiStatus.dlGotHead < .complete := by decide
    unfold setup headWithoutData
    rw [hfresh, if_neg (lt_irrefl _)]
    simp only [parseHeadFromStorage, errorClean]
    cases fi.disk.head with
    | none =>
      simp only [isVolatile]
      split_ifs <;> simp [hends.1, hends.2, *]
    | some h =>
      cases h with
      | garbled => simp [hends.1, hends.2]
      | fields contLen lastModified origSrc =>
        simp only [isVolatile]
        split_ifs <;> simp [hends.1, hends.2, *]

namespace World

variable {env : Env} {own : Nat → Bool} {w w' : World} {i : Nat}

/-- The log only grows, and nobody reads it. -/
theorem Step.logged (h : Step env own w w') (l : List Entry) :
    Step env own { w with log := l ++ w.log } { w' with log := l ++ w'.log } := by
  cases h with
  | create s i job hq hj =>
    have hstep : Step env own { w with log := l ++ w.log } _ := .create s i job hq hj
    simpa only [record, setItem, List.append_assoc] using hstep
  | splice qs hq => exact .splice qs hq
  | moveJob s j hq => exact .moveJob s j hq
  | destroy s j hq =>
    have hstep : Step env own { w with log := l ++ w.log } _ := .destroy s j hq
    simp only [release] at hstep ⊢
    split
    · rename_i hi
      simpa only [hi] using hstep
    · rename_i i hi
      simpa only [hi, setItem] using hstep
  | incomming s j i buf io now bOnly hq hi hown hp ho =>
    have hstep : Step env own { w with log := l ++ w.log } _ :=
      .incomming s j i buf io now bOnly hq hi hown hp ho
    simpa only [record, setItem, List.append_assoc] using hstep
  | connectionLost s j hq hp => exact .connectionLost s j hq hp
  | reconnect s j hq hp => exact .reconnect s j hq hp
  | request s j i hq hi => exact .request s j i hq hi
  | configure s j backend msg hq => exact .configure s j backend msg hq
  | setup i hown => exact .setup i hown
  | setError i errState kmode => exact .setError i errState kmode
  | expire i => exact .expire i
  | foreign s j i job phase fi hq hi hown hc => exact .foreign s j i job phase fi hq hi hown hc

/-- Steps do not bring an item back that nobody downloads. -/
theorem Step.calm (h : Step env own w w') (hr : w.refs i = 0) (hst : .fresh < (w.items i).status) :
    Calm (w.items i) (w'.items i) := by
  have hset : ∀ (k : Nat) (fi : FileItem), (i = k → Calm (w.items i) fi) →
      Calm (w.items i) ((w.setItem k fi).items i) := by
    intro k fi hk
    rw [setItem_items]
    split
    · rename_i he
      exact hk he
    · exact .inl rfl
  have hidle : ∀ {s : Spot} {j : JobObj}, w.queues = s.fill [j] → j.item ≠ some i := by
    intro s j hq hj
    rw [refs_fill w s _ hq, List.countP_singleton, hj] at hr
    simp at hr
  cases h with
  | create s k job hq hj =>
    refine hset k _ (fun he => .inl ?_)
    rw [← he]
    rfl
  | splice qs hq => exact .inl rfl
  | moveJob s j hq => exact .inl rfl
  | destroy s j hq =>
    simp only [release]
    split
    · exact .inl rfl
    · rename_i k hk
      exact hset k _ (fun he => absurd (he ▸ hk) (hidle hq))
  | incomming s j k buf io now bOnly hq hk hown hp ho =>
    exact hset k _ (fun he => absurd (he ▸ hk) (hidle hq))
  | connectionLost s j hq hp => exact .inl rfl
  | reconnect s j hq hp => exact .inl rfl
  | request s j k hq hk => exact .inl rfl
  | configure s j backend msg hq => exact .inl rfl
  | setup k hown =>
    refine hset k _ (fun he => .inl ?_)
    rw [← he, FileItem.setup_begun _ hst]
  | setError k errState kmode =>
    refine hset k _ (fun _ => .inr ?_)
    change FiStatus.complete ≤ .dlError
    decide
  | expire k =>
    refine hset k _ (fun he => ?_)
    rw [← he]
    exact expire_calm _
  | foreign s j k job phase fi hq hk hown hc =>
    exact hset k _ (fun he => absurd (he ▸ hk) (hidle hq))

/-- The item is over, or somebody downloads it, or there is all that a HEAD request needs. -/
def Attended (w : World) (i : Nat) (bHeadOnly : Bool) : Prop :=
  .complete ≤ (w.items i).status ∨ 0 < w.refs i ∨
    (bHeadOnly = true ∧ .dlGotHead ≤ (w.items i).status)

theorem Attended.calm {bHeadOnly : Bool} (h : w.Attended i bHeadOnly) (hr : w'.refs i = w.refs i)
    (hc : Calm (w.items i) (w'.items i)) : w'.Attended i bHeadOnly := by
  obtain he | hover := hc
  · rw [Attended, he, hr]
    exact h
  · exact .inl hover

/-- Steps keep the counter right, and no step leaves a request alone. -/
theorem Step.attended (h : Step env own w w') (hlog : w.log = [])
    (hcount : (w.items i).nDlRefsCount = w.refs i % 2 ^ 32) :
    (w'.items i).nDlRefsCount = w'.refs i % 2 ^ 32 ∧
      ∀ bHeadOnly, w.Attended i bHeadOnly → w'.Attended i bHeadOnly := by
  have hacc : Accounted w i := ⟨hcount, by simp [hlog]⟩
  refine ⟨(step_accounted env own w w' i h hacc).count, fun bHeadOnly ha => ?_⟩
  obtain hr | hr := Nat.eq_zero_or_pos (w.refs i)
  · have hhead : .dlGotHead ≤ (w.items i).status := by
      obtain hover | hpos | ⟨-, hhead⟩ := ha
      · exact le_trans (by decide) hover
      · omega
      · exact hhead
    obtain he | hover := h.calm hr (lt_of_lt_of_le (by decide) hhead)
    · rw [Attended, he]
      obtain hover | hpos | hhead := ha
      · exact .inl hover
      · omega
      · exact .inr (.inr hhead)
    · exact .inl hover
  · obtain hr' | hr' := Nat.eq_zero_or_pos (w'.refs i)
    · -- a log in which the item has had a job
      have hacc' : Accounted { w with log := [⟨0, i, .attached⟩] ++ w.log } i :=
        ⟨hcount, fun _ h0 => absurd h0 hr.ne'⟩
      have hkept := step_accounted env own _ _ i (h.logged [⟨0, i, .attached⟩]) hacc'
      exact .inl (hkept.settled ⟨_, List.mem_cons_self, rfl, rfl⟩ hr')
    · exact .inr (.inl hr')

end World

namespace Registry

/-- The map speaks of existing items. -/
def Known (w : Registry) : Prop := ∀ k s, w.mapItems k = some s → s.item < w.next

/-- What the registry does to the data of the items: it lets them go, and new ones have no jobs. -/
structure Mild (w w' : Registry) : Prop where
  next : w.next ≤ w'.next
  known : w.Known → w'.Known
  count : ∀ i < w.next, (w'.items i).fi.nDlRefsCount = (w.items i).fi.nDlRefsCount
  calm : ∀ i < w.next, World.Calm (w.items i).fi (w'.items i).fi
  fresh : ∀ i, w.next ≤ i → i < w'.next → (w'.items i).fi.nDlRefsCount = 0

namespace Mild

variable {w w' : Registry} {cfg : RegistryCfg}

/-- Items, map and counter are all that matters. -/
theorem of_eq (hi : w'.items = w.items) (hm : w'.mapItems = w.mapItems) (hn : w'.next = w.next) :
    Mild w w' where
  next := hn.ge
  known h k s hs := by
    rw [hn]
    exact h k s (by rw [← hm]; exact hs)
  count i _ := by rw [hi]
  calm i _ := .inl (by rw [hi])
  fresh i h1 h2 := by omega

theorem refl (w : Registry) : Mild w w := of_eq rfl rfl rfl

theorem trans {a b c : Registry} (h : Mild a b) (g : Mild b c) : Mild a c where
  next := h.next.trans g.next
  known := g.known ∘ h.known
  count i hi := (g.count i (hi.trans_le h.next)).trans (h.count i hi)
  calm i hi := by
    obtain he | hover := g.calm i (hi.trans_le h.next)
    · rw [World.Calm, he]
      exact h.calm i hi
    · exact .inr hover
  fresh i h1 h2 := by
    by_cases hi : i < b.next
    · rw [g.count i hi]
      exact h.fresh i h1 hi
    · exact g.fresh i (by omega) h2

theorem setItem (w : Registry) (i : Nat) (it : RegItem)
    (hc : it.fi.nDlRefsCount = (w.items i).fi.nDlRefsCount)
    (hs : World.Calm (w.items i).fi it.fi) : Mild w (w.setItem i it) where
  next := le_refl _
  known := id
  count j _ := by
    by_cases hj : j = i
    · rw [hj, setItem_self, hc]
    · rw [setItem_other _ _ _ _ hj]
  calm j _ := by
    by_cases hj : j = i
    · rw [hj, setItem_self]
      exact hs
    · rw [setItem_other _ _ _ _ hj]
      exact .inl rfl
  fresh j h1 h2 := absurd h2 (not_lt.mpr h1)

theorem use (w : Registry) (i : Nat) : Mild w (w.use i) := setItem w i _ rfl (.inl rfl)

theorem make (w : Registry) (fi : FileItem) (hf : fi.nDlRefsCount = 0) : Mild w (w.make fi) where
  next := Nat.le_succ _
  known h k s hs := (h k s hs).trans (Nat.lt_succ_self _)
  count i hi := by rw [show (w.make fi).items i = w.items i from setItem_other w _ i _ hi.ne]
  calm i hi := .inl (by rw [show (w.make fi).items i = w.items i from setItem_other w _ i _ hi.ne])
  fresh i h1 h2 := by
    obtain rfl : i = w.next := by
      change i < w.next + 1 at h2
      omega
    rw [show (w.make fi).items w.next = { fi := fi } from setItem_self w _ _]
    exact hf

/-- A node of the map is new or gone. -/
theorem mapped {k : Bytes} {slot : Option Slot} (hi : w'.items = w.items)
    (hm : w'.mapItems = Function.update w.mapItems k slot) (hn : w'.next = w.next)
    (hslot : ∀ s ∈ slot, s.item < w.next) : Mild w w' where
  next := hn.ge
  known h k' s hs := by
    rw [hm, Function.update_apply] at hs
    rw [hn]
    split at hs
    · exact hslot s hs
    · exact h k' s hs
  count i _ := by rw [hi]
  calm i _ := .inl (by rw [hi])
  fresh i h1 h2 := by omega

theorem emplace (w : Registry) (i : Nat) (hi : i < w.next) : Mild w (w.emplace i) := by
  have hitem := setItem w i
    { w.items i with globRef := some ⟨(w.items i).fi.sPathRel, w.nextNode⟩, owner := true }
    rfl (.inl rfl)
  refine hitem.trans (mapped rfl rfl rfl (fun s hs => ?_))
  rw [Option.mem_some_iff] at hs
  rw [← hs]
  exact hi

theorem regnew (w : Registry) (k : Bytes) (spattr : SpecialPurposeAttr) (disk : Disk) :
    Mild w (w.regnew k spattr disk).1 :=
  ((make w _ rfl).trans (use _ w.next)).trans (emplace _ w.next (Nat.lt_succ_self _))

theorem abandon (w : Registry) (k : Bytes) (i : Nat) (now : Int) : Mild w (w.abandon cfg k i now) :=
  by
  have hitem := setItem w i { w.items i with
    fi := { (w.items i).fi with
      sPathRel := cfg.absPath (replPathRel (w.items i).fi now), eDestroy := .abandoned }
    globRef := none
    owner := false } rfl (.inl rfl)
  exact hitem.trans (mapped rfl rfl rfl (fun _ hs => nomatch hs))

theorem unreg (w : Registry) (i : Nat) : Mild w (w.unreg i) := by
  have herase : Mild w (w.erase (w.items i).globRef) := by
    unfold erase
    split
    · exact refl w
    · split
      · exact mapped rfl rfl rfl (fun _ hs => nomatch hs)
      · exact refl w
  refine herase.trans (setItem _ i _ ?_ (.inl ?_)) <;>
  · unfold erase
    split
    · rfl
    · split <;> rfl

/-- Whatever a destructor does. -/
theorem drop (w : Registry) (i : Nat) (manger : Bool) (rel : Release) :
    Mild w (w.drop cfg i manger rel) := by
  have hc := drop_cases cfg w i manger rel
  generalize w.drop cfg i manger rel = w' at hc ⊢
  cases hc with
  | used _ => exact setItem w i _ rfl (.inl rfl)
  | ready _ _ => exact of_eq rfl rfl rfl
  | last _ _ _ => exact setItem w i _ rfl (World.expire_calm _)
  | unreg _ _ _ =>
    refine Mild.trans ?_ (unreg _ i)
    exact setItem w i _ rfl (World.expire_calm _)

theorem dropAll (cfg : RegistryCfg) : ∀ (is : List Nat) (rel : Nat → Release) (w : Registry),
    Mild w (Registry.dropAll cfg is rel w)
  | [], _, w => refl w
  | i :: is, rel, w => (drop w i _ (rel 0)).trans (dropAll cfg is (fun n => rel (n + 1)) _)

theorem destroy (w : Registry) (k : Nat) (rel : Release) : Mild w (w.destroy cfg k rel) := by
  unfold Registry.destroy
  simp only
  split
  · refine Mild.trans ?_ (drop _ _ _ rel)
    exact of_eq rfl rfl rfl
  · exact of_eq rfl rfl rfl

theorem backgroundCleanup (w : Registry) (now : Int) (rel : Nat → Release) :
    Mild w (w.backgroundCleanup cfg now rel).1 := by
  refine Mild.trans ?_ (dropAll cfg _ rel _)
  exact of_eq rfl rfl rfl

theorem createFor (w : Registry) (path : Bytes) (how : ESharingHow) (spattr : SpecialPurposeAttr)
    (now : Int) (io : CreateIo) : Mild w (w.createFor cfg path how spattr now io).1 := by
  have hc := createFor_cases cfg w path how spattr now io
  generalize w.createFor cfg path how spattr now io = r at hc ⊢
  cases hc with
  | new _ => exact regnew w _ _ _
  | shared s _ _ => exact use w _
  | side s _ _ => exact (make w _ rfl).trans (use _ _)
  | failed _ _ _ _ => exact refl w
  | displaced s _ _ _ _ => exact (abandon w _ _ _).trans (regnew _ _ _ _)

theorem createCustom (w : Registry) (i : Nat) (isShareable : Bool) :
    Mild w (w.createCustom i isShareable).1 := by
  have hc := createCustom_cases w i isShareable
  generalize w.createCustom i isShareable = r at hc ⊢
  cases hc with
  | null _ => exact refl w
  | conflict _ _ _ _ => exact refl w
  | installed hi _ _ => exact (emplace w i hi).trans (use _ i)

end Mild

/-- Whoever gets an item from `Create` gets an existing one. -/
theorem createFor_item {cfg : RegistryCfg} {w : Registry} (hk : w.Known) {path : Bytes}
    {how : ESharingHow} {spattr : SpecialPurposeAttr} {now : Int} {io : CreateIo} {i : Nat}
    (h : (w.createFor cfg path how spattr now io).2 = some i) :
    i < (w.createFor cfg path how spattr now io).1.next := by
  have hc := createFor_cases cfg w path how spattr now io
  generalize w.createFor cfg path how spattr now io = r at hc h ⊢
  cases hc with
  | new _ | side _ _ _ | displaced _ _ _ _ _ =>
    obtain rfl := Option.some.inj h
    exact Nat.lt_succ_self _
  | shared s hs _ =>
    obtain rfl := Option.some.inj h
    exact hk _ s hs
  | failed _ _ _ _ => cases h

/-- An item made elsewhere is handed out itself, if at all. -/
theorem createCustom_item {w : Registry} {i j : Nat} {isShareable : Bool}
    (h : (w.createCustom i isShareable).2 = some j) : j = i := by
  have hc := createCustom_cases w i isShareable
  generalize w.createCustom i isShareable = r at hc h
  cases hc with
  | null _ => cases h
  | conflict _ _ _ _ =>
    split at h
    · cases h
    · exact (Option.some.inj h).symm
  | installed _ _ _ => exact (Option.some.inj h).symm

end Registry

namespace PrepareCall

variable {cfg : DispatchCfg} {c : PrepareCall} {i j : Nat} {fistate : FiStatus}

/-- The ways behind the status: to a page or another item, to a downloader, or out. -/
theorem checked_cases (cfg : DispatchCfg) (c : PrepareCall) (i : Nat) (fistate : FiStatus) :
    (c.checked cfg i fistate).item = none ∨ c.checked cfg i fistate = .ready i ∨
      (c.checked cfg i fistate = .leaving i ∧ (fistate = .complete ∨ .dlGotHead ≤ fistate)) := by
  unfold checked
  split_ifs with hdone hoff hlow hmanaged htarget
  · exact .inr (.inr ⟨rfl, .inl hdone⟩)
  · exact .inl rfl
  · exact .inl rfl
  · exact .inl rfl
  · exact .inr (.inl rfl)
  · exact .inr (.inr ⟨rfl, .inr (not_lt.mp hlow)⟩)

theorem afterSetup_cases (cfg : DispatchCfg) (c : PrepareCall) (i : Nat) (fistate : FiStatus) :
    (c.afterSetup cfg i fistate).item = none ∨ c.afterSetup cfg i fistate = .ready i ∨
      (c.afterSetup cfg i fistate = .leaving i ∧
        (fistate = .complete ∨ (c.bPtMode = false ∧ .dlGotHead ≤ fistate))) := by
  unfold afterSetup
  split
  · exact .inl rfl
  · rename_i hpt
    obtain hidle | hready | ⟨hleaving, hst⟩ := checked_cases cfg c i fistate
    · exact .inl hidle
    · exact .inr (.inl hready)
    · refine .inr (.inr ⟨hleaving, ?_⟩)
      by_cases hdone : fistate = .complete
      · exact .inl hdone
      · exact .inr ⟨by simpa [hdone] using hpt, hst.resolve_left hdone⟩

/-- A pass-through item is never taken for complete. -/
theorem afterSwitch_cases (cfg : DispatchCfg) (c : PrepareCall) (i : Nat) :
    (c.afterSwitch cfg i .inited).item = none ∨ c.afterSwitch cfg i .inited = .ready i := by
  unfold afterSwitch
  split
  · obtain hidle | hready | ⟨-, hdone | hhead⟩ := checked_cases cfg c i .inited
    · exact .inl hidle
    · exact .inr hready
    · cases hdone
    · exact absurd hhead (by decide)
  · exact .inr rfl

/-- Without offline mode everything that has its head is taken for served. -/
theorem afterSetup_headed (hoff : cfg.serve.offlinemode = false) (hpt : c.bPtMode = false)
    (h : .dlGotHead ≤ fistate) : c.afterSetup cfg i fistate = .leaving i := by
  simp [afterSetup, checked, hpt, hoff, not_lt.mpr h]

end PrepareCall

theorem ItemClass.setup_count (cls : ItemClass) (fi : FileItem) :
    (cls.setup fi).2.nDlRefsCount = fi.nDlRefsCount := by
  cases cls with
  | storage => exact (FileItem.setup_setUp fi).refs
  | plain => rfl
  | passThrough => rfl

/-- Only a pass-through item is put back. -/
theorem ItemClass.setup_begun (cls : ItemClass) (fi : FileItem) (hc : cls ≠ .passThrough)
    (hs : .fresh < fi.status) : (cls.setup fi).2 = fi := by
  cases cls with
  | storage => exact FileItem.setup_begun fi hs
  | plain => rfl
  | passThrough => exact absurd rfl hc

namespace Dispatch

variable {cfg : DispatchCfg} {s t : Dispatch}

theorem setup_fileItem (s : Dispatch) (i j : Nat) :
    (s.setup i).fileItem j =
      if j = i then ((s.cls i).setup (s.fileItem i)).2 else s.fileItem j := by
  by_cases hj : j = i
  · rw [if_pos hj, hj]
    exact congrArg RegItem.fi (Registry.setItem_self s.reg i _)
  · rw [if_neg hj]
    exact congrArg RegItem.fi (Registry.setItem_other s.reg i j _ hj)

/-- What is true of a call at any time. -/
structure CallOk (s : Dispatch) (c : PrepareCall) : Prop where
  item : ∀ i, c.stage.item = some i → i < s.reg.next
  switched : ∀ i, c.stage = .switched i → s.cls i = .passThrough
  attended : ∀ i, c.stage = .leaving i → s.world.Attended i c.attr.bHeadOnly

namespace CallOk

variable {c : PrepareCall} {i : Nat}

/-- The call has no item to care for. -/
theorem of_idle (h : c.stage.item = none) : s.CallOk c where
  item i hi := by simp [h] at hi
  switched i hi := by simp [hi, PrepareStage.item] at h
  attended i hi := by simp [hi, PrepareStage.item] at h

theorem of_ready (h : c.stage = .ready i) (hi : i < s.reg.next) : s.CallOk c where
  item j hj := by
    rw [h] at hj
    obtain rfl := Option.some.inj hj
    exact hi
  switched j hj := by simp [h] at hj
  attended j hj := by simp [h] at hj

theorem of_leaving (h : c.stage = .leaving i) (hi : i < s.reg.next)
    (ha : s.world.Attended i c.attr.bHeadOnly) : s.CallOk c where
  item j hj := by
    rw [h] at hj
    obtain rfl := Option.some.inj hj
    exact hi
  switched j hj := by simp [h] at hj
  attended j hj := by
    obtain rfl := PrepareStage.leaving.inj (h.symm.trans hj)
    exact ha

end CallOk

structure Inv (s : Dispatch) : Prop where
  known : s.reg.Known
  count : ∀ i < s.reg.next, (s.fileItem i).nDlRefsCount = s.world.refs i % 2 ^ 32
  vacant : ∀ i, s.reg.next ≤ i → s.world.refs i = 0
  calls : ∀ c ∈ s.calls, s.CallOk c

namespace Inv

theorem start : Inv {} where
  known _ _ h := nomatch h
  count _ h := absurd h (Nat.not_lt_zero _)
  vacant _ _ := rfl
  calls _ h := absurd h List.not_mem_nil

theorem allServed (h : s.Inv) : s.AllServed := by
  intro c hc i hi
  have hok := h.calls c hc
  have hlt := hok.item i (by rw [hi]; rfl)
  obtain hover | hpos | hhead := hok.attended i hi
  · exact .inl hover
  · refine .inr (.inl ⟨hpos, fun hsmall => ?_⟩)
    rw [h.count i hlt, Nat.mod_eq_of_lt hsmall]
    exact hpos
  · exact .inr (.inr hhead)

/-- One call goes on. -/
theorem advance (h : s.Inv) (k : Nat) (c : PrepareCall) (stage : PrepareStage)
    (hok : s.CallOk { c with stage := stage }) : (s.advance k c stage).Inv where
  known := h.known
  count := h.count
  vacant := h.vacant
  calls d hd := by
    obtain hmem | rfl := List.mem_or_eq_of_mem_set hd
    · have hold := h.calls d hmem
      exact ⟨hold.item, hold.switched, hold.attended⟩
    · exact ⟨hok.item, hok.switched, hok.attended⟩

/-- The registry does something, and new items have some class. -/
theorem registry (h : s.Inv) {reg : Registry} {cls : Nat → ItemClass} (hm : s.reg.Mild reg)
    (hcls : ∀ i < s.reg.next, cls i = s.cls i) : Inv { s with reg := reg, cls := cls } where
  known := hm.known h.known
  count i hi := by
    by_cases hlt : i < s.reg.next
    · exact (hm.count i hlt).trans (h.count i hlt)
    · have hr := h.vacant i (not_lt.mp hlt)
      change (reg.items i).fi.nDlRefsCount = s.world.refs i % 2 ^ 32
      rw [hm.fresh i (not_lt.mp hlt) hi, hr, Nat.zero_mod]
  vacant i hi := h.vacant i (hm.next.trans hi)
  calls c hc := by
    have hok := h.calls c hc
    refine ⟨fun i hi => (hok.item i hi).trans_le hm.next, fun i hi => ?_, fun i hi => ?_⟩
    · have hlt := hok.item i (by rw [hi]; rfl)
      exact (hcls i hlt).trans (hok.switched i hi)
    · have hlt := hok.item i (by rw [hi]; rfl)
      exact (hok.attended i hi).calm rfl (hm.calm i hlt)

/-- The downloaders do something. -/
theorem downloader (h : s.Inv) {own : Nat → Bool} {w : World}
    (hs : World.Step cfg.env own s.world w) (hnew : ∀ i, s.reg.next ≤ i → w.refs i = 0) :
    (s.withWorld w).Inv where
  known := h.known
  count i hi := (hs.attended rfl (h.count i hi)).1
  vacant := hnew
  calls c hc := by
    have hok := h.calls c hc
    refine ⟨hok.item, hok.switched, fun i hi => ?_⟩
    have hlt := hok.item i (by rw [hi]; rfl)
    exact (hs.attended rfl (h.count i hlt)).2 _ (hok.attended i hi)

/-- An item is set up. That may harm only those who share a pass-through item. -/
theorem setup (h : s.Inv) (i : Nat) (hpt : s.cls i = .passThrough → s.world.refs i = 0 →
    ∀ c ∈ s.calls, c.stage ≠ .leaving i) : (s.setup i).Inv where
  known := h.known
  count j hj := by
    rw [setup_fileItem]
    split
    · rename_i he
      rw [ItemClass.setup_count, ← he]
      exact h.count j hj
    · exact h.count j hj
  vacant := h.vacant
  calls c hc := by
    have hok := h.calls c hc
    refine ⟨hok.item, hok.switched, fun j hj => ?_⟩
    have ha := hok.attended j hj
    obtain hr | hr := Nat.eq_zero_or_pos (s.world.refs j)
    · have hbegun : .fresh < (s.fileItem j).status := by
        obtain hover | hpos | ⟨-, hhead⟩ := ha
        · exact lt_of_lt_of_le (by decide) hover
        · omega
        · exact lt_of_lt_of_le (by decide) hhead
      have hsame : (s.setup i).fileItem j = s.fileItem j := by
        rw [setup_fileItem]
        split
        · rename_i he
          subst he
          exact ItemClass.setup_begun _ _ (fun hcls => hpt hcls hr c hc hj) hbegun
        · rfl
      exact ha.calm rfl (.inl (congrArg FileItem.status hsame))
    · exact .inr (.inl hr)

end Inv

/-- What a call takes for served behind its `Setup` is served, unless it is misled. -/
theorem setup_attended {k : Nat} {c : PrepareCall} {i : Nat} (hc : s.calls[k]? = some c)
    (hs : c.stage = .created i) (hno : ¬ s.Misled (.setup k))
    (hst : s.fistate i = .complete ∨ (c.bPtMode = false ∧ .dlGotHead ≤ s.fistate i)) :
    (s.setup i).world.Attended i c.attr.bHeadOnly := by
  have hitem : ((s.setup i).world.items i).status = ((s.cls i).setup (s.fileItem i)).2.status := by
    have := setup_fileItem s i i
    rw [if_pos rfl] at this
    exact congrArg FileItem.status this
  obtain hr | hr := Nat.eq_zero_or_pos (s.world.refs i)
  · rw [World.Attended, hitem]
    cases hcls : s.cls i with
    | storage =>
      rw [fistate, hcls] at hst
      simp only [ItemClass.setup] at hst ⊢
      by_cases hover : .complete ≤ (s.fileItem i).setup.status
      · exact .inl hover
      · have hlow := not_le.mp hover
        obtain hdone | ⟨hpt, hhead⟩ := hst
        · exact absurd hdone hlow.ne
        · refine .inr (.inr ⟨?_, hhead⟩)
          by_contra hget
          rw [Bool.not_eq_true] at hget
          exact hno (.storage k c i hc hs hr hpt hcls hget
            ((FileItem.headWithoutData_iff _).mpr ⟨hhead, hlow⟩))
    | plain =>
      rw [fistate, hcls] at hst
      obtain hdone | ⟨hpt, -⟩ := hst
      · cases hdone
      · have hst : ¬ (s.fileItem i).status < if c.attr.bHeadOnly then .dlGotHead else .complete :=
          fun hlow => hno (.plain k c i hc hs hr hpt hcls hlow)
        cases hhead : c.attr.bHeadOnly with
        | true =>
          rw [hhead, if_pos rfl, not_lt] at hst
          exact .inr (.inr ⟨rfl, hst⟩)
        | false =>
          rw [hhead, if_neg Bool.false_ne_true, not_lt] at hst
          exact .inl hst
    | passThrough =>
      rw [fistate, hcls] at hst
      obtain hdone | ⟨-, hhead⟩ := hst
      · cases hdone
      · exact absurd (show FiStatus.dlGotHead ≤ .inited from hhead) (by decide)
  · exact .inr (.inl hr)

theorem newJob_cases (cfg : DispatchCfg) (url : HttpUrl) (fi : FileItem) :
    (∃ src, cfg.newJob url fi = .new cfg.env.cfg fi src) ∨
      ∃ repo path, cfg.newJob url fi = .newForRepo cfg.env.cfg fi repo path := by
  unfold DispatchCfg.newJob
  split
  · exact .inr ⟨_, _, rfl⟩
  · exact .inl ⟨_, rfl⟩

/-- `AddJob` is a step of the download system, and the item has a job behind it. -/
theorem Inv.addJob (h : s.Inv) (spot : Spot) {k : Nat} {c : PrepareCall} {i : Nat}
    (hi : i < s.reg.next) (hq : s.queues = spot.fill []) : (s.addJob cfg spot k c i).Inv := by
  have hstep : World.Step cfg.env (fun i => s.cls i ≠ .storage) s.world _ :=
    .create spot i (cfg.newJob c.url (s.fileItem i)) hq (newJob_cases cfg c.url (s.fileItem i))
  have hrefs : ∀ j, (s.addJob cfg spot k c i).world.refs j =
      s.world.refs j + if j = i then 1 else 0 := by
    intro j
    rw [World.refs_fill s.world spot [] hq, World.refs_fill _ spot
      [⟨s.nextJob, some i, cfg.newJob c.url (s.fileItem i), .running⟩] rfl, List.countP_singleton,
      List.countP_nil]
    by_cases hj : j = i
    · simp [hj, Nat.add_comm]
    · have hij : i ≠ j := fun h => hj h.symm
      simp [hj, hij]
  refine Inv.advance (h.downloader hstep (fun j hj => ?_)) k c (.leaving i) ?_
  · have hne : j ≠ i := by omega
    have hr := hrefs j
    rw [if_neg hne, h.vacant j hj] at hr
    exact hr
  · refine .of_leaving rfl hi (.inr (.inl ?_))
    have hr := hrefs i
    rw [if_pos rfl] at hr
    exact hr.symm ▸ Nat.succ_pos _

/-- Steps keep the calls served, unless one of them is misled. -/
theorem Step.inv {a : Act} (hstep : Step cfg s a t) (h : s.Inv) (hno : ¬ s.Misled a) : t.Inv := by
  cases hstep with
  | arrive hd u sFileLoc attr bPtMode hp hu =>
    refine ⟨h.known, h.count, h.vacant, fun c hc => ?_⟩
    obtain hc | hc := List.mem_append.mp hc
    · have hok := h.calls c hc
      exact ⟨hok.item, hok.switched, hok.attended⟩
    · rw [List.mem_singleton.mp hc]
      exact .of_idle rfl
  | create k c now io degradedMode hc hs =>
    refine Inv.advance (h.registry ?_ (fun i hi => Function.update_of_ne hi.ne _ _)) k c _ ?_
    · exact (Registry.Mild.createFor _ _ _ _ _ _).trans (.of_eq rfl rfl rfl)
    · split
      · exact .of_idle rfl
      · rename_i i hi
        have hlt := Registry.createFor_item h.known hi
        split
        · exact .of_idle rfl
        · refine ⟨fun j hj => ?_, nofun, nofun⟩
          obtain rfl := Option.some.inj hj
          exact hlt
  | setup k c i hc hs =>
    have hok := h.calls c (List.mem_of_getElem? hc)
    have hlt := hok.item i (by rw [hs]; rfl)
    refine Inv.advance (h.setup i (fun hcls hr d hd hst => ?_)) k c _ ?_
    · obtain ⟨k', hk'⟩ := List.mem_iff_getElem?.mp hd
      exact hno (.passThrough k c i k' d hc (.inl hs) hr hcls hk' hst)
    · obtain hidle | hready | ⟨hleaving, hst⟩ := c.afterSetup_cases cfg i (s.fistate i)
      · exact .of_idle hidle
      · exact .of_ready hready hlt
      · have ha := setup_attended hc hs hno hst
        exact .of_leaving hleaving hlt ha
  | switch k c i hc hs hi =>
    obtain rfl := Registry.createCustom_item hi
    refine Inv.advance (h.registry ?_ (fun i hi => Function.update_of_ne hi.ne _ _)) k c _ ?_
    · have hmade := Registry.Mild.make s.reg { sPathRel := c.sFileLoc } rfl
      exact (hmade.trans (Registry.Mild.createCustom _ _ _)).trans (.of_eq rfl rfl rfl)
    · refine ⟨fun j hj => ?_, fun j hj => ?_, nofun⟩
      · obtain rfl := Option.some.inj hj
        exact (Registry.Mild.createCustom _ _ _).next.trans_lt' (Nat.lt_succ_self _)
      · obtain rfl := PrepareStage.switched.inj hj
        exact Function.update_self _ _ _
  | setupSwitched k c i hc hs =>
    have hok := h.calls c (List.mem_of_getElem? hc)
    have hlt := hok.item i (by rw [hs]; rfl)
    have hpt := hok.switched i hs
    refine Inv.advance (h.setup i (fun hcls hr d hd hst => ?_)) k c _ ?_
    · obtain ⟨k', hk'⟩ := List.mem_iff_getElem?.mp hd
      exact hno (.passThrough k c i k' d hc (.inr hs) hr hcls hk' hst)
    · have hinited : s.fistate i = .inited := by
        rw [fistate, hpt]
        rfl
      rw [hinited]
      obtain hidle | hready := c.afterSwitch_cases cfg i
      · exact .of_idle hidle
      · exact .of_ready hready hlt
  | addJob spot k c i hc hs hq =>
    have hok := h.calls c (List.mem_of_getElem? hc)
    exact h.addJob spot (hok.item i (by rw [hs]; rfl)) hq
  | finish k c i hc hs => exact h.advance k c _ (.of_idle rfl)
  | downloader w hw hnew => exact h.downloader hw hnew
  | destroy n rel => exact h.registry (.destroy _ _ _) (fun _ _ => rfl)
  | backgroundCleanup now rel => exact h.registry (.backgroundCleanup _ _ _) (fun _ _ => rfl)

theorem Step.of_setup {k : Nat} {c : PrepareCall} {i : Nat} (hstep : Step cfg s (.setup k) t)
    (hc : s.calls[k]? = some c) (hs : c.stage = .created i ∨ c.stage = .switched i) :
    ∃ stage, t = (s.setup i).advance k c stage ∧
      (c.stage = .created i → stage = c.afterSetup cfg i (s.fistate i)) := by
  cases hstep with
  | setup _ c' i' hc' hs' =>
    obtain rfl := Option.some.inj (hc.symm.trans hc')
    obtain rfl : i' = i := by
      obtain hs | hs := hs
      · exact PrepareStage.created.inj (hs'.symm.trans hs)
      · exact nomatch hs'.symm.trans hs
    exact ⟨_, rfl, fun _ => rfl⟩
  | setupSwitched _ c' i' hc' hs' =>
    obtain rfl := Option.some.inj (hc.symm.trans hc')
    obtain rfl : i' = i := by
      obtain hs | hs := hs
      · exact nomatch hs'.symm.trans hs
      · exact PrepareStage.switched.inj (hs'.symm.trans hs)
    exact ⟨_, rfl, fun hcreated => nomatch hs'.symm.trans hcreated⟩

theorem setup_served {k : Nat} {c : PrepareCall} {i : Nat} {stage : PrepareStage} {bHeadOnly : Bool}
    (hr : s.world.refs i = 0) (hserved : ((s.setup i).advance k c stage).Served i bHeadOnly) :
    .complete ≤ ((s.cls i).setup (s.fileItem i)).2.status ∨
      (bHeadOnly = true ∧ .dlGotHead ≤ ((s.cls i).setup (s.fileItem i)).2.status) := by
  have hitem : ((s.setup i).advance k c stage).fileItem i = ((s.cls i).setup (s.fileItem i)).2 :=
    (setup_fileItem s i i).trans (if_pos rfl)
  rw [Served, hitem] at hserved
  obtain hover | ⟨hpos, -⟩ | hhead := hserved
  · exact .inl hover
  · exact absurd hr hpos.ne'
  · exact .inr hhead

/-- A call that takes the status for a download under way returns at once. -/
theorem headed_served (hoff : cfg.serve.offlinemode = false) {k : Nat} {c : PrepareCall} {i : Nat}
    (hstep : Step cfg s (.setup k) t) (hc : s.calls[k]? = some c) (hs : c.stage = .created i)
    (hr : s.world.refs i = 0) (hpt : c.bPtMode = false) (hst : .dlGotHead ≤ s.fistate i)
    (hall : t.AllServed) :
    .complete ≤ ((s.cls i).setup (s.fileItem i)).2.status ∨
      (c.attr.bHeadOnly = true ∧ .dlGotHead ≤ ((s.cls i).setup (s.fileItem i)).2.status) := by
  obtain ⟨stage, rfl, hstage⟩ := hstep.of_setup hc (.inl hs)
  have hleaving := (hstage hs).trans (PrepareCall.afterSetup_headed hoff hpt hst)
  have hlt : k < (s.setup i).calls.length := (List.getElem?_eq_some_iff.mp hc).1
  exact setup_served hr (hall _ (List.mem_set hlt _) i hleaving)

/-- A misled call, or the one that suffers, is about to return with nobody to serve it. -/
theorem Misled.spoils (hoff : cfg.serve.offlinemode = false) {a : Act} (hbad : s.Misled a)
    (hstep : Step cfg s a t) : ¬ t.AllServed := by
  intro hall
  cases hbad with
  | plain k c i hc hs hr hpt hcls hst =>
    have hfistate : s.fistate i = .dlError := by
      rw [fistate, hcls]
      rfl
    have hserved := headed_served hoff hstep hc hs hr hpt (by rw [hfistate]; decide) hall
    rw [hcls] at hserved
    simp only [ItemClass.setup] at hserved
    obtain hover | ⟨hhead, hgot⟩ := hserved
    · refine absurd hover (not_le.mpr (hst.trans_le ?_))
      split <;> decide
    · rw [hhead, if_pos rfl] at hst
      exact absurd hgot (not_le.mpr hst)
  | storage k c i hc hs hr hpt hcls hget hst =>
    obtain ⟨hgot, hlow⟩ := (FileItem.headWithoutData_iff _).mp hst
    have hserved := headed_served hoff hstep hc hs hr hpt (by rw [fistate, hcls]; exact hgot) hall
    rw [hcls] at hserved
    obtain hover | ⟨hhead, -⟩ := hserved
    · exact absurd hover (not_le.mpr hlow)
    · rw [hget] at hhead
      cases hhead
  | passThrough k c i k' c' hc hs hr hcls hc' hs' =>
    obtain ⟨stage, rfl, -⟩ := hstep.of_setup hc hs
    have hne : k ≠ k' := by
      rintro rfl
      obtain rfl := Option.some.inj (hc.symm.trans hc')
      obtain hs | hs := hs <;> exact nomatch hs.symm.trans hs'
    have hmem : c' ∈ ((s.setup i).advance k c stage).calls :=
      List.mem_of_getElem? ((List.getElem?_set_ne hne).trans hc')
    have hserved := setup_served hr (hall c' hmem i hs')
    rw [hcls] at hserved
    obtain hover | ⟨-, hgot⟩ := hserved
    · exact absurd (show FiStatus.complete ≤ .inited from hover) (by decide)
    · exact absurd (show FiStatus.dlGotHead ≤ .inited from hgot) (by decide)

/-- In every interleaving all requests are served as long as no call of `Setup` misleads one. -/
theorem served_iff (cfg : DispatchCfg) (hoff : cfg.serve.offlinemode = false)
    (tr : List (Dispatch × Act)) (t : Dispatch) (h : StepTrace (Step cfg) {} tr t) :
    ((∀ p ∈ tr, p.1.AllServed) ∧ t.AllServed) ↔ ∀ p ∈ tr, ¬ p.1.Misled p.2 :=
  h.all_iff Inv .start (fun _ hi => hi.allServed) (fun _ _ _ hi hno hstep => hstep.inv hi hno)
    (fun _ _ _ _ hbad hstep => hbad.spoils hoff hstep)

/-- Packages are solid, everything else is volatile. -/
def shelfCfg : DispatchCfg where
  serve := { getFiletype := fun path =>
    if (lit ".deb").isSuffixOf path then some .solid else some .volatile }
  env := plainEnv

/-- A request for a file on one host. -/
def requestFor (path : Bytes) (bVolatile bHeadOnly : Bool) : PrepareCall where
  url := { sHost := lit "m", sPath := squeeze 47 path }
  sFileLoc := lit "m" ++ path
  attr := { bVolatile := bVolatile, bHeadOnly := bHeadOnly }
  bPtMode := false

def requestHeader (line : String) : Header := (Header.load (lit (line ++ " HTTP/1.1\r\n\r\n"))).2.hd

def asked (s : Dispatch) (c : PrepareCall) : Dispatch := { s with calls := s.calls ++ [c] }

/-- A new call has its item, and then its status. -/
def opened (s : Dispatch) (c : PrepareCall) : Dispatch :=
  (s.asked c).create shelfCfg s.calls.length c 0 {} false

def begun (s : Dispatch) (c : PrepareCall) (i : Nat) : Dispatch :=
  ((s.opened c).setup i).advance s.calls.length { c with stage := .created i }
    ({ c with stage := .created i }.afterSetup shelfCfg i ((s.opened c).fistate i))

theorem trace_begun {tr : List (Dispatch × Act)} {s : Dispatch} (h : StepTrace (Step shelfCfg) {} tr s)
    (line : String) (path : Bytes) (bVolatile bHeadOnly : Bool) (i : Nat)
    (hp : prepare shelfCfg.serve (requestHeader line) =
      .create (lit "m" ++ path) { bVolatile := bVolatile, bHeadOnly := bHeadOnly } false)
    (hu : HttpUrl.setHttpUrl (rewriteHttps (urlUnescape (requestHeader line).status.msg)) false =
      some { sHost := lit "m", sPath := path })
    (hi : ((s.opened (requestFor path bVolatile bHeadOnly)).calls[s.calls.length]?) =
      some { requestFor path bVolatile bHeadOnly with stage := .created i }) :
    StepTrace (Step shelfCfg) {} (tr ++ [(s, .other),
      (s.asked (requestFor path bVolatile bHeadOnly), .other),
      (s.opened (requestFor path bVolatile bHeadOnly), .setup s.calls.length)])
      (s.begun (requestFor path bVolatile bHeadOnly) i) := by
  have hasked := h.next (.arrive (requestHeader line) _ _ _ _ hp hu)
  have hopened := hasked.next (.create s.calls.length (requestFor path bVolatile bHeadOnly) 0 {}
    false List.getElem?_concat_length rfl)
  have hbegun := hopened.next (.setup s.calls.length _ i hi rfl)
  rw [List.append_assoc, List.append_assoc] at hbegun
  exact hbegun

/-- The connection makes a downloader and gives it the job. -/
def hired (s : Dispatch) (c : PrepareCall) : Dispatch :=
  (s.withWorld { s.world with queues := [[]] }).addJob shelfCfg (World.inFront []) 0 c 0

theorem trace_hired {tr : List (Dispatch × Act)} {s : Dispatch} (h : StepTrace (Step shelfCfg) {} tr s)
    (c : PrepareCall) (hq : s.queues = []) (hc : s.calls[0]? = some c) (hs : c.stage = .ready 0) :
    StepTrace (Step shelfCfg) {}
      (tr ++ [(s, .other), (s.withWorld { s.world with queues := [[]] }, .other)]) (s.hired c) := by
  have hlive : ([[]] : List (List JobObj)).flatten.Perm s.world.live := by
    rw [World.live, show s.world.queues = [] from hq]
    exact .nil
  have hqueue := h.next (.downloader _ (.splice [[]] hlive) (fun _ _ => rfl))
  have hhired := hqueue.next (.addJob (World.inFront []) 0 c 0 hc hs rfl)
  rw [List.append_assoc] at hhired
  exact hhired

/-- A request for a new package gets its job. -/
theorem package_served : ∃ tr t, StepTrace (Step shelfCfg) {} tr t ∧
    t.calls.map (·.stage) = [.leaving 0] ∧ 0 < t.world.refs 0 ∧
    (∀ p ∈ tr, p.1.AllServed) ∧ t.AllServed := by
  have hbegun := trace_begun .start "GET http://m/x.deb" (lit "/x.deb") false false 0
    (by decide +kernel) (by decide +kernel) (by decide +kernel)
  have hhired := trace_hired hbegun
    { requestFor (lit "/x.deb") false false with stage := .ready 0 } rfl (by decide +kernel) rfl
  refine ⟨_, _, hhired, by decide +kernel, by decide +kernel, ?_⟩
  refine (served_iff shelfCfg rfl _ _ hhired).mpr (fun p hp => ?_)
  simp only [List.nil_append, List.cons_append, List.mem_cons, List.not_mem_nil, or_false] at hp
  obtain rfl | rfl | rfl | rfl | rfl := hp
  · exact nofun
  · exact nofun
  · have hcall : (opened {} (requestFor (lit "/x.deb") false false)).calls[0]? =
        some { requestFor (lit "/x.deb") false false with stage := .created 0 } := by
      decide +kernel
    intro hbad
    cases hbad with
    | plain k c i hc hs hr hpt hcls hst =>
      obtain rfl := Option.some.inj (hcall.symm.trans hc)
      obtain rfl := PrepareStage.created.inj hs
      exact absurd hcls (by decide +kernel)
    | storage k c i hc hs hr hpt hcls hget hst =>
      obtain rfl := Option.some.inj (hcall.symm.trans hc)
      obtain rfl := PrepareStage.created.inj hs
      exact absurd hst (by decide +kernel)
    | passThrough k c i k' c' hc hs hr hcls hc' hs' =>
      obtain rfl := Option.some.inj (hcall.symm.trans hc)
      obtain hs | hs := hs
      · obtain rfl := PrepareStage.created.inj hs
        exact absurd hcls (by decide +kernel)
      · cases hs
  · exact nofun
  · exact nofun

/-- Behind a HEAD request for a new package another request waits for the data without a downloader,
and a HEAD request next to a running download waits for its own item. -/
theorem requests_abandoned :
    (∃ tr t, StepTrace (Step shelfCfg) {} tr t ∧ (t.calls.map (·.stage)) = [.leaving 0, .leaving 0] ∧
      t.calls.map (·.attr.bHeadOnly) = [true, false] ∧ ¬ t.Served 0 false) ∧
    ∃ tr t, StepTrace (Step shelfCfg) {} tr t ∧ (t.calls.map (·.stage)) = [.leaving 0, .leaving 1] ∧
      t.calls.map (·.attr.bHeadOnly) = [false, true] ∧ 0 < t.world.refs 0 ∧ ¬ t.Served 1 true ∧
      ∀ forceUpdateHeader io, (t.fileItem 1).dlFinish forceUpdateHeader io = t.fileItem 1 := by
  refine ⟨?_, ?_⟩
  · have hhead := trace_begun .start "HEAD http://m/x.deb" (lit "/x.deb") false true 0
      (by decide +kernel) (by decide +kernel) (by decide +kernel)
    have hget := trace_begun hhead "GET http://m/x.deb" (lit "/x.deb") false false 0
      (by decide +kernel) (by decide +kernel) (by decide +kernel)
    refine ⟨_, _, hget, by decide +kernel, by decide +kernel, ?_⟩
    unfold Served
    decide +kernel
  · have hbegun := trace_begun .start "GET http://m/Release" (lit "/Release") true false 0
      (by decide +kernel) (by decide +kernel) (by decide +kernel)
    have hget := trace_hired hbegun
      { requestFor (lit "/Release") true false with stage := .ready 0 } rfl (by decide +kernel) rfl
    have hhead := trace_begun hget "HEAD http://m/Release" (lit "/Release") true true 1
      (by decide +kernel) (by decide +kernel) (by decide +kernel)
    refine ⟨_, _, hhead, by decide +kernel, by decide +kernel, by decide +kernel, ?_, ?_⟩
    · unfold Served
      decide +kernel
    · exact fun _ _ => if_pos (by decide +kernel)

end Dispatch

end Acng
