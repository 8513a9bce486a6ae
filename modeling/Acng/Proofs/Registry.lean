import Acng.Registry
import Mathlib.Data.List.Perm.Basic

namespace Acng
open Lib

namespace Registry

/-- The entries of the map and the items refer to each other, and an item without an entry
refers to nothing. -/
structure Linked (w : Registry) : Prop where
  key : ∀ k s, w.mapItems k = some s → (w.items s.item).fi.sPathRel = k
  globRef : ∀ k s, w.mapItems k = some s → (w.items s.item).globRef = some ⟨k, s.node⟩
  owner : ∀ k s, w.mapItems k = some s → (w.items s.item).owner = true
  known : ∀ k s, w.mapItems k = some s → s.item < w.next
  gone : ∀ i, (∀ k s, w.mapItems k = some s → s.item ≠ i) →
    (w.items i).owner = false ∧ (w.items i).globRef = none

theorem setItem_self (w : Registry) (i : Nat) (it : RegItem) : (w.setItem i it).items i = it := by
  simp [setItem]

theorem setItem_other (w : Registry) (i j : Nat) (it : RegItem) (h : j ≠ i) :
    (w.setItem i it).items j = w.items j := by
  simp [setItem, h]

namespace Linked

theorem empty : Linked {} where
  key _ _ h := by cases h
  globRef _ _ h := by cases h
  owner _ _ h := by cases h
  known _ _ h := by cases h
  gone _ _ := ⟨rfl, rfl⟩

/-- The keys of two entries with one item are equal. -/
theorem once {w : Registry} (h : w.Linked) {k k' : Bytes} {s s' : Slot}
    (hs : w.mapItems k = some s) (hs' : w.mapItems k' = some s') (he : s'.item = s.item) :
    k' = k := by
  rw [← h.key k s hs, ← h.key k' s' hs', he]

/-- An item is in the map or refers to nothing. -/
theorem entry_or_gone {w : Registry} (h : w.Linked) (i : Nat) :
    (∃ s, w.mapItems (w.items i).fi.sPathRel = some s ∧ s.item = i) ∨
      ((∀ k s, w.mapItems k = some s → s.item ≠ i) ∧ (w.items i).owner = false ∧
        (w.items i).globRef = none) := by
  by_cases hex : ∃ k s, w.mapItems k = some s ∧ s.item = i
  · obtain ⟨k, s, hs, he⟩ := hex
    have hk := h.key k s hs
    rw [he] at hk
    exact .inl ⟨s, by rw [hk]; exact hs, he⟩
  · have hno : ∀ k s, w.mapItems k = some s → s.item ≠ i :=
      fun k s hs he => hex ⟨k, s, hs, he⟩
    exact .inr ⟨hno, h.gone i hno⟩

theorem entry_of_owner {w : Registry} (h : w.Linked) {i : Nat} (ho : (w.items i).owner = true) :
    ∃ s, w.mapItems (w.items i).fi.sPathRel = some s ∧ s.item = i ∧
      (w.items i).globRef = some ⟨(w.items i).fi.sPathRel, s.node⟩ := by
  rcases h.entry_or_gone i with ⟨s, hs, he⟩ | ⟨-, hn, -⟩
  · have hg := h.globRef _ s hs
    rw [he] at hg
    exact ⟨s, hs, he, hg⟩
  · rw [hn] at ho
    cases ho

/-- The links are not affected by the holders. -/
theorem congr {w w' : Registry} (h : w.Linked) (hi : w'.items = w.items)
    (hm : w'.mapItems = w.mapItems) (hn : w'.next = w.next) : w'.Linked where
  key := by rw [hi, hm]; exact h.key
  globRef := by rw [hi, hm]; exact h.globRef
  owner := by rw [hi, hm]; exact h.owner
  known := by rw [hm, hn]; exact h.known
  gone := by rw [hi, hm]; exact h.gone

/-- An update of one item that leaves its links and its path. -/
theorem update {w : Registry} (h : w.Linked) (i : Nat) (it : RegItem)
    (hp : it.fi.sPathRel = (w.items i).fi.sPathRel) (hg : it.globRef = (w.items i).globRef)
    (ho : it.owner = (w.items i).owner) : (w.setItem i it).Linked := by
  have hsame : ∀ j, ((w.setItem i it).items j).fi.sPathRel = (w.items j).fi.sPathRel ∧
      ((w.setItem i it).items j).globRef = (w.items j).globRef ∧
      ((w.setItem i it).items j).owner = (w.items j).owner := by
    intro j
    by_cases hj : j = i
    · rw [hj, setItem_self]
      exact ⟨hp, hg, ho⟩
    · rw [setItem_other _ _ _ _ hj]
      exact ⟨rfl, rfl, rfl⟩
  refine ⟨fun k s hs => ?_, fun k s hs => ?_, fun k s hs => ?_, h.known, fun j hj => ?_⟩
  · rw [(hsame s.item).1]
    exact h.key k s hs
  · rw [(hsame s.item).2.1]
    exact h.globRef k s hs
  · rw [(hsame s.item).2.2]
    exact h.owner k s hs
  · rw [(hsame j).2.1, (hsame j).2.2]
    exact h.gone j hj

theorem use {w : Registry} (h : w.Linked) (i : Nat) : (w.use i).Linked := h.update i _ rfl rfl rfl

theorem touch {w : Registry} (h : w.Linked) (i : Nat) (fi : FileItem) : (w.touch i fi).Linked :=
  h.update i _ rfl rfl rfl

theorem make {w : Registry} (h : w.Linked) (fi : FileItem) : (w.make fi).Linked := by
  have hold : ∀ k s, w.mapItems k = some s → (w.make fi).items s.item = w.items s.item := by
    intro k s hs
    have := h.known k s hs
    exact setItem_other w w.next s.item _ (by omega)
  refine ⟨fun k s hs => ?_, fun k s hs => ?_, fun k s hs => ?_, fun k s hs => ?_, fun j hj => ?_⟩
  · rw [hold k s hs]
    exact h.key k s hs
  · rw [hold k s hs]
    exact h.globRef k s hs
  · rw [hold k s hs]
    exact h.owner k s hs
  · exact Nat.lt_succ_of_lt (h.known k s hs)
  · by_cases hjn : j = w.next
    · rw [hjn]
      simp [Registry.make, setItem]
    · have : (w.make fi).items j = w.items j := setItem_other w w.next j _ hjn
      rw [this]
      exact h.gone j hj

theorem emplace {w : Registry} (h : w.Linked) (i : Nat) (hi : i < w.next)
    (hfree : w.mapItems (w.items i).fi.sPathRel = none) : (w.emplace i).Linked := by
  have hno : ∀ k s, w.mapItems k = some s → s.item ≠ i := by
    intro k s hs he
    have := h.key k s hs
    rw [he] at this
    rw [this, hs] at hfree
    cases hfree
  have hentry : ∀ k s, (w.emplace i).mapItems k = some s →
      (k = (w.items i).fi.sPathRel ∧ s = ⟨w.nextNode, i⟩) ∨
        (w.mapItems k = some s ∧ (w.emplace i).items s.item = w.items s.item) := by
    intro k s hs
    by_cases hk : k = (w.items i).fi.sPathRel
    · refine .inl ⟨hk, ?_⟩
      simpa [Registry.emplace, hk] using hs.symm
    · have hs' : w.mapItems k = some s := by simpa [Registry.emplace, hk] using hs
      exact .inr ⟨hs', by simp [Registry.emplace, setItem, hno k s hs']⟩
  refine ⟨fun k s hs => ?_, fun k s hs => ?_, fun k s hs => ?_, fun k s hs => ?_, fun j hj => ?_⟩
  · rcases hentry k s hs with ⟨rfl, rfl⟩ | ⟨hs', he⟩
    · simp [Registry.emplace, setItem]
    · rw [he]
      exact h.key k s hs'
  · rcases hentry k s hs with ⟨rfl, rfl⟩ | ⟨hs', he⟩
    · simp [Registry.emplace, setItem]
    · rw [he]
      exact h.globRef k s hs'
  · rcases hentry k s hs with ⟨rfl, rfl⟩ | ⟨hs', he⟩
    · simp [Registry.emplace, setItem]
    · rw [he]
      exact h.owner k s hs'
  · rcases hentry k s hs with ⟨rfl, rfl⟩ | ⟨hs', -⟩
    · exact hi
    · exact h.known k s hs'
  · have hji : i ≠ j := by
      refine hj (w.items i).fi.sPathRel ⟨w.nextNode, i⟩ ?_
      simp [Registry.emplace]
    have hjw : ∀ k s, w.mapItems k = some s → s.item ≠ j := by
      intro k s hs
      refine hj k s ?_
      have hk : k ≠ (w.items i).fi.sPathRel := by
        intro hk
        rw [hk, hfree] at hs
        cases hs
      simpa [Registry.emplace, hk] using hs
    have : (w.emplace i).items j = w.items j := by
      simp [Registry.emplace, setItem, hji.symm]
    rw [this]
    exact h.gone j hjw

/-- The entry of an item is taken out, and the item is unlinked. -/
theorem cut {w w' : Registry} (h : w.Linked) {k : Bytes} {s : Slot} (hs : w.mapItems k = some s)
    (hm : w'.mapItems = Function.update w.mapItems k none) (hn : w'.next = w.next)
    (hi : ∀ j, j ≠ s.item → w'.items j = w.items j)
    (ho : (w'.items s.item).owner = false) (hg : (w'.items s.item).globRef = none) : w'.Linked := by
  have hentry : ∀ k' s', w'.mapItems k' = some s' → w.mapItems k' = some s' ∧ s'.item ≠ s.item := by
    intro k' s' hs'
    rw [hm] at hs'
    by_cases hk : k' = k
    · rw [hk, Function.update_self] at hs'
      cases hs'
    · rw [Function.update_of_ne hk] at hs'
      exact ⟨hs', fun he => hk (h.once hs hs' he)⟩
  refine ⟨fun k' s' hs' => ?_, fun k' s' hs' => ?_, fun k' s' hs' => ?_, fun k' s' hs' => ?_,
    fun j hj => ?_⟩
  · obtain ⟨h1, h2⟩ := hentry k' s' hs'
    rw [hi _ h2]
    exact h.key k' s' h1
  · obtain ⟨h1, h2⟩ := hentry k' s' hs'
    rw [hi _ h2]
    exact h.globRef k' s' h1
  · obtain ⟨h1, h2⟩ := hentry k' s' hs'
    rw [hi _ h2]
    exact h.owner k' s' h1
  · rw [hn]
    exact h.known k' s' (hentry k' s' hs').1
  · by_cases hj' : j = s.item
    · rw [hj']
      exact ⟨ho, hg⟩
    · rw [hi j hj']
      refine h.gone j ?_
      intro k' s' hs' he
      by_cases hk : k' = k
      · rw [hk, hs] at hs'
        cases hs'
        exact hj' he.symm
      · refine hj k' s' ?_ he
        rw [hm, Function.update_of_ne hk]
        exact hs'

end Linked

theorem erase_entry (w : Registry) {k : Bytes} {s : Slot} (hs : w.mapItems k = some s) :
    w.erase (some ⟨k, s.node⟩) = { w with mapItems := Function.update w.mapItems k none } := by
  simp [erase, hs]

/-- Everything that the critical section of a destructor can do. -/
inductive Dropped (cfg : RegistryCfg) (w : Registry) (i : Nat) (manger : Bool) (rel : Release) :
    Registry → Prop
  | used (h : 1 < (w.items i).usercount) :
      Dropped cfg w i manger rel
        (w.setItem i { w.items i with usercount := (w.items i).usercount - 1 })
  | ready (h : (w.items i).usercount ≤ 1) (hr : (w.items i).heldReady cfg manger rel = true) :
      Dropped cfg w i manger rel
        (w.addToProlongedQueue i ((w.items i).expDate cfg rel.now))
  | last (h : (w.items i).usercount ≤ 1) (hr : (w.items i).heldReady cfg manger rel = false)
      (ho : manger = false) :
      Dropped cfg w i manger rel
        (w.setItem i { w.items i with
          usercount := (w.items i).usercount - 1, fi := (w.items i).fi.expire })
  | unreg (h : (w.items i).usercount ≤ 1) (hr : (w.items i).heldReady cfg manger rel = false)
      (ho : manger = true) :
      Dropped cfg w i manger rel
        ((w.setItem i { w.items i with
          usercount := (w.items i).usercount - 1, fi := (w.items i).fi.expire }).unreg i)

theorem setItem_items_self (w : Registry) (i : Nat) : w.setItem i (w.items i) = w := by
  simp [setItem]

theorem drop_cases (cfg : RegistryCfg) (w : Registry) (i : Nat) (manger : Bool) (rel : Release) :
    Dropped cfg w i manger rel (w.drop cfg i manger rel) := by
  unfold drop
  simp only
  split
  · rename_i h
    exact .used (by omega)
  · rename_i h
    split
    · rename_i hr
      have hback : { w.items i with usercount := (w.items i).usercount - 1 + 1 } = w.items i := by
        rw [Int.sub_add_cancel]
      rw [hback, setItem_items_self]
      exact .ready (by omega) hr
    · rename_i hr
      rw [Bool.not_eq_true] at hr
      split
      · rename_i ho
        exact .unreg (by omega) hr ho
      · rename_i ho
        exact .last (by omega) hr (by simpa using ho)

theorem unreg_next (w : Registry) (i : Nat) : (w.unreg i).next = w.next := by
  unfold unreg erase
  split
  · rfl
  · split <;> rfl

theorem drop_next (cfg : RegistryCfg) (w : Registry) (i : Nat) (manger : Bool) (rel : Release) :
    (w.drop cfg i manger rel).next = w.next := by
  have hc := drop_cases cfg w i manger rel
  generalize w.drop cfg i manger rel = w' at hc ⊢
  cases hc with
  | used _ => rfl
  | ready _ _ => rfl
  | last _ _ _ => rfl
  | unreg _ _ _ => exact unreg_next _ i

/-- Everything that `Create` for a path can do. -/
inductive Created (cfg : RegistryCfg) (w : Registry) (k : Bytes) (how : ESharingHow)
    (spattr : SpecialPurposeAttr) (now : Int) (io : CreateIo) : Registry × Option Nat → Prop
  | new (h : w.mapItems k = none) :
      Created cfg w k how spattr now io (w.regnew k spattr io.disk)
  | shared (s : Slot) (h : w.mapItems k = some s)
      (hv : (w.items s.item).verdict cfg how spattr now = .share) :
      Created cfg w k how spattr now io (w.share s.item)
  | side (s : Slot) (h : w.mapItems k = some s)
      (hv : (w.items s.item).verdict cfg how spattr now = .side) :
      Created cfg w k how spattr now io (w.sideTrack k spattr)
  | failed (s : Slot) (h : w.mapItems k = some s)
      (hv : (w.items s.item).verdict cfg how spattr now = .displace)
      (hm : (w.items s.item).fi.sPathRel.isEmpty = true ∨ io.moved = false) :
      Created cfg w k how spattr now io (w, none)
  | displaced (s : Slot) (h : w.mapItems k = some s)
      (hv : (w.items s.item).verdict cfg how spattr now = .displace)
      (hp : (w.items s.item).fi.sPathRel.isEmpty = false) (hm : io.moved = true) :
      Created cfg w k how spattr now io
        ((w.abandon cfg k s.item now).regnew k spattr io.disk)

theorem createFor_cases (cfg : RegistryCfg) (w : Registry) (path : Bytes) (how : ESharingHow)
    (spattr : SpecialPurposeAttr) (now : Int) (io : CreateIo) :
    Created cfg w (cfg.normalizePath path) how spattr now io
      (w.createFor cfg path how spattr now io) := by
  unfold createFor
  simp only
  split
  · rename_i h
    exact .new h
  · rename_i s h
    split
    · rename_i hv
      exact .shared s h hv
    · rename_i hv
      exact .side s h hv
    · rename_i hv
      split
      · rename_i hm
        exact .failed s h hv (by simpa using hm)
      · rename_i hm
        simp only [Bool.or_eq_true, Bool.not_eq_true', not_or, Bool.not_eq_true,
          Bool.not_eq_false] at hm
        exact .displaced s h hv hm.1 hm.2

/-- Everything that `Create` for an item made elsewhere can do. -/
inductive Customized (w : Registry) (i : Nat) (isShareable : Bool) : Registry × Option Nat → Prop
  | null (h : w.next ≤ i ∨ (w.items i).fi.sPathRel.isEmpty = true) :
      Customized w i isShareable (w, none)
  | conflict (h : i < w.next) (hp : (w.items i).fi.sPathRel ≠ []) (s : Slot)
      (hs : w.mapItems (w.items i).fi.sPathRel = some s) :
      Customized w i isShareable (w, if isShareable then none else some i)
  | installed (h : i < w.next) (hp : (w.items i).fi.sPathRel ≠ [])
      (hs : w.mapItems (w.items i).fi.sPathRel = none) :
      Customized w i isShareable ((w.emplace i).use i, some i)

theorem createCustom_cases (w : Registry) (i : Nat) (isShareable : Bool) :
    Customized w i isShareable (w.createCustom i isShareable) := by
  unfold createCustom
  simp only
  split
  · rename_i h
    exact .null (by simpa using h)
  · rename_i h
    simp only [Bool.or_eq_true, decide_eq_true_eq, not_or, not_le, List.isEmpty_iff] at h
    split
    · rename_i hs
      obtain ⟨s, hs⟩ := Option.isSome_iff_exists.mp hs
      exact .conflict h.1 h.2 s hs
    · rename_i hs
      exact .installed h.1 h.2 (by simpa using hs)

namespace Linked

theorem regnew {w : Registry} (h : w.Linked) (k : Bytes) (spattr : SpecialPurposeAttr) (disk : Disk)
    (hfree : w.mapItems k = none) : (w.regnew k spattr disk).1.Linked := by
  refine ((h.make _).use _).emplace w.next (Nat.lt_succ_self _) ?_
  simpa [Registry.use, Registry.make, setItem] using hfree

theorem unreg {w : Registry} (h : w.Linked) (i : Nat) : (w.unreg i).Linked := by
  rcases h.entry_or_gone i with ⟨s, hs, he⟩ | ⟨hno, ho, hg⟩
  · have hgr := h.globRef _ s hs
    rw [he] at hgr
    have hu : w.unreg i = ({ w with
        mapItems := Function.update w.mapItems (w.items i).fi.sPathRel none } : Registry).setItem i
          { w.items i with globRef := none, owner := false } := by
      simp only [Registry.unreg, hgr, erase_entry w hs]
    refine h.cut hs (by rw [hu]; rfl) (by rw [hu]; rfl) ?_ ?_ ?_
    · intro j hj
      rw [hu, setItem_other _ _ _ _ (by rw [← he]; exact hj)]
    · rw [hu, he, setItem_self]
    · rw [hu, he, setItem_self]
  · have hu : w.unreg i = w.setItem i { w.items i with globRef := none, owner := false } := by
      simp only [Registry.unreg, hg, erase]
    rw [hu]
    exact h.update i _ rfl hg.symm ho.symm

theorem drop {w : Registry} (h : w.Linked) (cfg : RegistryCfg) (i : Nat) (manger : Bool)
    (rel : Release) : (w.drop cfg i manger rel).Linked := by
  have hc := drop_cases cfg w i manger rel
  generalize w.drop cfg i manger rel = w' at hc ⊢
  cases hc with
  | used _ => exact h.update i _ rfl rfl rfl
  | ready _ _ => exact h.congr rfl rfl rfl
  | last _ _ _ => exact h.update i _ rfl rfl rfl
  | unreg _ _ _ =>
    refine Linked.unreg ?_ i
    exact h.update i _ rfl rfl rfl

theorem abandon {w : Registry} (h : w.Linked) (cfg : RegistryCfg) {k : Bytes} {s : Slot}
    (hs : w.mapItems k = some s) (now : Int) : (w.abandon cfg k s.item now).Linked := by
  refine h.cut hs rfl rfl ?_ ?_ ?_
  · intro j hj
    exact setItem_other w s.item j _ hj
  · simp [Registry.abandon, setItem]
  · simp [Registry.abandon, setItem]

theorem createFor {w : Registry} (h : w.Linked) (cfg : RegistryCfg) (path : Bytes)
    (how : ESharingHow) (spattr : SpecialPurposeAttr) (now : Int) (io : CreateIo) :
    (w.createFor cfg path how spattr now io).1.Linked := by
  have hc := createFor_cases cfg w path how spattr now io
  generalize w.createFor cfg path how spattr now io = r at hc ⊢
  cases hc with
  | new hn => exact h.regnew _ _ _ hn
  | shared s hs hv => exact h.use _
  | side s hs hv => exact (h.make _).use _
  | failed s hs hv hm => exact h
  | displaced s hs hv hp hm =>
    refine (h.abandon cfg hs now).regnew _ _ _ ?_
    simp [Registry.abandon]

theorem createCustom {w : Registry} (h : w.Linked) (i : Nat) (isShareable : Bool) :
    (w.createCustom i isShareable).1.Linked := by
  have hc := createCustom_cases w i isShareable
  generalize w.createCustom i isShareable = r at hc ⊢
  cases hc with
  | null _ => exact h
  | conflict _ _ _ _ => exact h
  | installed hi _ hs => exact (h.emplace i hi hs).use i

theorem call {w : Registry} (h : w.Linked) (cfg : RegistryCfg) (c : Call) : (w.call cfg c).Linked := by
  cases c with
  | make fi => exact h.make fi
  | createFor path how spattr now io => exact (h.createFor cfg path how spattr now io).congr rfl rfl rfl
  | createCustom i isShareable => exact (h.createCustom i isShareable).congr rfl rfl rfl
  | moveConstruct src =>
    simp only [Registry.call, Registry.moveConstruct]
    split
    · exact h
    · exact h.congr rfl rfl rfl
  | moveAssign dst src =>
    simp only [Registry.call, Registry.moveAssign]
    split
    · exact h.congr rfl rfl rfl
    · exact h
  | touch i fi => exact h.touch i fi

end Linked

namespace Linked

theorem dropAll (cfg : RegistryCfg) (is : List Nat) (rel : Nat → Release) {w : Registry}
    (h : w.Linked) : (Registry.dropAll cfg is rel w).Linked := by
  induction is generalizing rel w with
  | nil => exact h
  | cons i is ih => exact ih (fun n => rel (n + 1)) (h.drop cfg i _ (rel 0))

theorem apply {w : Registry} (h : w.Linked) (cfg : RegistryCfg) (op : Op) : (w.apply cfg op).Linked := by
  cases op with
  | call c => exact h.call cfg c
  | destroy k rel =>
    have hrest : ({ w with holders := w.holders.eraseIdx k } : Registry).Linked := h.congr rfl rfl rfl
    simp only [Registry.apply, Registry.destroy]
    split
    · exact hrest.drop cfg _ _ rel
    · exact hrest
  | backgroundCleanup now rel =>
    have hrest : (w.expired now).2.Linked := h.congr rfl rfl rfl
    exact hrest.dropAll cfg _ rel

theorem run (cfg : RegistryCfg) (ops : List Op) {w : Registry} (h : w.Linked) :
    (w.run cfg ops).Linked := by
  induction ops generalizing w with
  | nil => exact h
  | cons op ops ih => exact ih (h.apply cfg op)

end Linked

/-- The invariant of the registry. The pending holders are those that a running
`BackgroundCleanup` or destructor still has to drop. -/
structure Inv (w : Registry) (pending : List Nat := []) : Prop extends Linked w where
  count : ∀ i, (w.items i).usercount = (w.users i + pending.count i : Nat)
  used : ∀ k s, w.mapItems k = some s → 1 ≤ (w.items s.item).usercount
  fresh : ∀ i, w.next ≤ i → w.users i + pending.count i = 0

theorem setItem_usercount (w : Registry) (i j : Nat) (it : RegItem) :
    ((w.setItem i it).items j).usercount = if j = i then it.usercount else (w.items j).usercount := by
  by_cases h : j = i
  · simp [setItem, h]
  · simp [setItem, h]

theorem unreg_items (w : Registry) (i : Nat) : (w.unreg i).items =
    Function.update w.items i { w.items i with globRef := none, owner := false } := by
  unfold unreg erase
  split
  · rfl
  · split <;> rfl

theorem unreg_usercount (w : Registry) (i j : Nat) :
    ((w.unreg i).items j).usercount = (w.items j).usercount := by
  rw [unreg_items]
  by_cases h : j = i
  · rw [h, Function.update_self]
  · rw [Function.update_of_ne h]

theorem unreg_users (w : Registry) (i j : Nat) : (w.unreg i).users j = w.users j := by
  unfold unreg erase
  split
  · rfl
  · split <;> rfl

theorem unreg_entry {w : Registry} (h : w.Linked) {i : Nat} {k : Bytes} {s : Slot}
    (hs : (w.unreg i).mapItems k = some s) : w.mapItems k = some s ∧ s.item ≠ i := by
  have hl := h.unreg i
  have hne : s.item ≠ i := by
    intro he
    have ho := hl.owner k s hs
    rw [unreg_items, he, Function.update_self] at ho
    cases ho
  refine ⟨?_, hne⟩
  unfold unreg erase at hs
  split at hs
  · exact hs
  · split at hs
    · rename_i it _ _
      by_cases hkey : k = it.key
      · simp [setItem, hkey] at hs
      · simpa [setItem, hkey] using hs
    · exact hs

theorem drop_entry {cfg : RegistryCfg} {w : Registry} (h : w.Linked) {i : Nat} {manger : Bool}
    {rel : Release} {k : Bytes} {s : Slot} (hs : (w.drop cfg i manger rel).mapItems k = some s) :
    w.mapItems k = some s := by
  have hc := drop_cases cfg w i manger rel
  generalize w.drop cfg i manger rel = w' at hc hs
  cases hc with
  | used _ => exact hs
  | ready _ _ => exact hs
  | last _ _ _ => exact hs
  | unreg _ _ _ =>
    have hl : (w.setItem i { w.items i with
        usercount := (w.items i).usercount - 1, fi := (w.items i).fi.expire }).Linked :=
      h.update i _ rfl rfl rfl
    exact (unreg_entry hl hs).1

theorem drop_path (cfg : RegistryCfg) (w : Registry) (i j : Nat) (manger : Bool) (rel : Release) :
    ((w.drop cfg i manger rel).items j).fi.sPathRel = (w.items j).fi.sPathRel := by
  have hc := drop_cases cfg w i manger rel
  generalize w.drop cfg i manger rel = w' at hc ⊢
  by_cases hj : j = i
  · subst hj
    cases hc with
    | used _ => rw [setItem_self]
    | ready _ _ => rfl
    | last _ _ _ =>
      rw [setItem_self]
      rfl
    | unreg _ _ _ =>
      rw [unreg_items, Function.update_self, setItem_self]
      rfl
  · cases hc with
    | used _ => rw [setItem_other _ _ _ _ hj]
    | ready _ _ => rfl
    | last _ _ _ => rw [setItem_other _ _ _ _ hj]
    | unreg _ _ _ => rw [unreg_items, Function.update_of_ne hj, setItem_other _ _ _ _ hj]

namespace Inv

variable {w : Registry} {pending : List Nat}

theorem empty : Inv {} := ⟨Linked.empty, fun _ => rfl, (fun _ _ h => nomatch h), fun _ _ => rfl⟩

theorem congr {w' : Registry} {pending' : List Nat} (h : w.Inv pending) (hi : w'.items = w.items)
    (hm : w'.mapItems = w.mapItems) (hn : w'.next = w.next)
    (hu : ∀ i, w'.users i + pending'.count i = w.users i + pending.count i) : w'.Inv pending' where
  toLinked := h.toLinked.congr hi hm hn
  count i := by rw [hi, hu i]; exact h.count i
  used := by rw [hi, hm]; exact h.used
  fresh i hi' := by rw [hu i]; exact h.fresh i (by rw [← hn]; exact hi')

/-- One holder is added to the count and to the holders. -/
theorem use (h : w.Inv pending) (i : Nat) (hi : i < w.next) : (w.use i).Inv (i :: pending) where
  toLinked := h.toLinked.use i
  count j := by
    have hc := h.count j
    change ((w.setItem i _).items j).usercount = ((w.users j + (i :: pending).count j : Nat) : Int)
    rw [setItem_usercount, List.count_cons]
    by_cases hj : j = i
    · subst hj
      simp only [if_true, beq_self_eq_true, hc]
      push_cast
      omega
    · simp only [if_neg hj, hc, beq_iff_eq, if_neg (Ne.symm hj), Nat.add_zero]
  used k s hs := by
    have hu := h.used k s hs
    change 1 ≤ ((w.setItem i _).items s.item).usercount
    rw [setItem_usercount]
    split
    · rename_i he
      rw [he] at hu
      simp only
      omega
    · exact hu
  fresh j hj := by
    have hf := h.fresh j hj
    have hne : i ≠ j := by
      change w.next ≤ j at hj
      omega
    rw [List.count_cons_of_ne hne]
    exact hf

theorem make (h : w.Inv pending) (fi : FileItem) : (w.make fi).Inv pending where
  toLinked := h.toLinked.make fi
  count j := by
    change ((w.setItem w.next _).items j).usercount = ((w.users j + pending.count j : Nat) : Int)
    rw [setItem_usercount]
    split
    · rename_i hj
      rw [hj, h.fresh w.next (Nat.le_refl _)]
      rfl
    · exact h.count j
  used k s hs := by
    have hlt := h.known k s hs
    have : (w.make fi).items s.item = w.items s.item := setItem_other w w.next s.item _ (by omega)
    rw [this]
    exact h.used k s hs
  fresh j hj := by
    change w.next + 1 ≤ j at hj
    exact h.fresh j (by omega)

theorem emplace (h : w.Inv pending) (i : Nat) (hi : i < w.next)
    (hfree : w.mapItems (w.items i).fi.sPathRel = none) (hu : 1 ≤ (w.items i).usercount) :
    (w.emplace i).Inv pending := by
  have husers : ∀ j, ((w.emplace i).items j).usercount = (w.items j).usercount := by
    intro j
    change ((w.setItem i _).items j).usercount = _
    rw [setItem_usercount]
    split
    · rename_i hj
      rw [hj]
    · rfl
  refine ⟨h.toLinked.emplace i hi hfree, fun j => ?_, fun k s hs => ?_, h.fresh⟩
  · rw [husers]
    exact h.count j
  · rw [husers]
    by_cases hk : k = (w.items i).fi.sPathRel
    · have he : s = ⟨w.nextNode, i⟩ := by simpa [Registry.emplace, hk] using hs.symm
      rw [he]
      exact hu
    · exact h.used k s (by simpa [Registry.emplace, hk] using hs)

theorem touch (h : w.Inv pending) (i : Nat) (fi : FileItem) : (w.touch i fi).Inv pending := by
  have husers : ∀ j, ((w.touch i fi).items j).usercount = (w.items j).usercount := by
    intro j
    change ((w.setItem i _).items j).usercount = _
    rw [setItem_usercount]
    split
    · rename_i hj
      rw [hj]
    · rfl
  exact ⟨h.toLinked.touch i fi, fun j => by rw [husers]; exact h.count j,
    fun k s hs => by rw [husers]; exact h.used k s hs, h.fresh⟩

theorem abandon (h : w.Inv pending) (cfg : RegistryCfg) {k : Bytes} {s : Slot}
    (hs : w.mapItems k = some s) (now : Int) : (w.abandon cfg k s.item now).Inv pending := by
  have husers : ∀ j, ((w.abandon cfg k s.item now).items j).usercount = (w.items j).usercount := by
    intro j
    change ((w.setItem s.item _).items j).usercount = _
    rw [setItem_usercount]
    split
    · rename_i hj
      rw [hj]
    · rfl
  refine ⟨h.toLinked.abandon cfg hs now, fun j => ?_, fun k' s' hs' => ?_, h.fresh⟩
  · rw [husers]
    exact h.count j
  · rw [husers]
    refine h.used k' s' ?_
    have hk : k' ≠ k := by
      intro hk
      simp [Registry.abandon, hk] at hs'
    simpa [Registry.abandon, hk] using hs'

/-- One holder less: the counts are right again without the pending one. -/
theorem count_left (h : w.Inv (i :: pending)) (it : RegItem)
    (hit : it.usercount = (w.items i).usercount - 1) (j : Nat) :
    ((w.setItem i it).items j).usercount = ((w.users j + pending.count j : Nat) : Int) := by
  have hj := h.count j
  rw [List.count_cons] at hj
  rw [setItem_usercount]
  by_cases he : j = i
  · subst he
    simp only [beq_self_eq_true, if_true] at hj ⊢
    push_cast at hj ⊢
    omega
  · simp only [beq_iff_eq, if_neg (Ne.symm he), Nat.add_zero] at hj
    rw [if_neg he, hj]

/-- The critical section of a destructor takes its holder off the count. -/
theorem drop (h : w.Inv (i :: pending)) (cfg : RegistryCfg) (manger : Bool) (rel : Release)
    (hm : (w.items i).owner = true → manger = true) : (w.drop cfg i manger rel).Inv pending := by
  have hl := h.toLinked.drop cfg i manger rel
  have hc := drop_cases cfg w i manger rel
  have hfresh : ∀ j, w.next ≤ j → w.users j + pending.count j = 0 := by
    intro j hj
    have := h.fresh j hj
    rw [List.count_cons] at this
    omega
  generalize w.drop cfg i manger rel = w' at hl hc ⊢
  cases hc with
  | used hu =>
    refine ⟨hl, h.count_left _ rfl, fun k s hs => ?_, hfresh⟩
    rw [setItem_usercount]
    split
    · simp only
      omega
    · exact h.used k s hs
  | ready hu hr =>
    refine h.congr rfl rfl rfl (fun j => ?_)
    simp only [users, addToProlongedQueue, List.map_append, List.map_cons, List.map_nil,
      List.count_append, List.count_cons, List.count_nil]
    omega
  | last hu hr ho =>
    refine ⟨hl, h.count_left _ rfl, fun k s hs => ?_, hfresh⟩
    have hne : s.item ≠ i := by
      intro he
      have := h.owner k s hs
      rw [he] at this
      rw [hm this] at ho
      cases ho
    rw [setItem_usercount, if_neg hne]
    exact h.used k s hs
  | unreg hu hr ho =>
    refine ⟨hl, fun j => ?_, fun k s hs => ?_, ?_⟩
    · rw [unreg_usercount, unreg_users]
      exact h.count_left _ rfl j
    · have hl' : (w.setItem i { w.items i with
          usercount := (w.items i).usercount - 1, fi := (w.items i).fi.expire }).Linked :=
        h.toLinked.update i _ rfl rfl rfl
      obtain ⟨hs', hne⟩ := unreg_entry hl' hs
      rw [unreg_usercount, setItem_other _ _ _ _ hne]
      exact h.used k s hs'
    · intro j hj
      rw [unreg_next] at hj
      rw [unreg_users]
      exact hfresh j hj

theorem dropAll (cfg : RegistryCfg) : ∀ (is : List Nat) (rel : Nat → Release) {w : Registry},
    w.Inv (is ++ pending) → (Registry.dropAll cfg is rel w).Inv pending
  | [], _, _, h => h
  | _ :: is, rel, _, h => dropAll cfg is (fun n => rel (n + 1)) (h.drop cfg _ (rel 0) id)

/-- The pointer of the last call gets its holder. -/
theorem handOut {i : Nat} (h : w.Inv [i]) : (Registry.handOut (w, some i)).Inv := by
  refine h.congr rfl rfl rfl (fun j => ?_)
  simp only [Registry.handOut, users, List.count_append, List.count_cons, List.count_nil,
    beq_iff_eq, Option.some.injEq]
  omega

theorem handOut_none (h : w.Inv) : (Registry.handOut (w, none)).Inv := by
  refine h.congr rfl rfl rfl (fun j => ?_)
  simp [Registry.handOut, users]

theorem regnew (h : w.Inv) (k : Bytes) (spattr : SpecialPurposeAttr) (disk : Disk)
    (hfree : w.mapItems k = none) : (Registry.handOut (w.regnew k spattr disk)).Inv := by
  refine Inv.handOut ?_
  refine ((h.make _).use w.next (Nat.lt_succ_self _)).emplace w.next (Nat.lt_succ_self _) ?_ ?_
  · simpa [Registry.use, Registry.make, setItem] using hfree
  · simp [Registry.use, Registry.make, setItem]

theorem createFor (h : w.Inv) (cfg : RegistryCfg) (path : Bytes) (how : ESharingHow)
    (spattr : SpecialPurposeAttr) (now : Int) (io : CreateIo) :
    (Registry.handOut (w.createFor cfg path how spattr now io)).Inv := by
  have hc := createFor_cases cfg w path how spattr now io
  generalize w.createFor cfg path how spattr now io = r at hc ⊢
  cases hc with
  | new hn => exact h.regnew _ _ _ hn
  | shared s hs hv => exact Inv.handOut (h.use s.item (h.known _ s hs))
  | side s hs hv => exact Inv.handOut ((h.make _).use w.next (Nat.lt_succ_self _))
  | failed s hs hv hm => exact h.handOut_none
  | displaced s hs hv hp hm =>
    refine (h.abandon cfg hs now).regnew _ _ _ ?_
    simp [Registry.abandon]

end Inv

theorem emplace_use (w : Registry) (i : Nat) : (w.emplace i).use i = (w.use i).emplace i := by
  simp [emplace, use, setItem]

theorem count_some_set (l : List (Option Nat)) (n i : Nat) (p : Option Nat) (q : Option Nat)
    (h : l[n]? = some p) :
    (l.set n q).count (some i) + (if p = some i then 1 else 0) =
      l.count (some i) + (if q = some i then 1 else 0) := by
  obtain ⟨hn, hp⟩ := List.getElem?_eq_some_iff.mp h
  have hle : (if p = some i then 1 else 0) ≤ l.count (some i) := by
    split
    · rename_i he
      exact List.count_pos_iff.mpr (by rw [← he, ← hp]; exact List.getElem_mem hn)
    · exact Nat.zero_le _
  rw [List.count_set hn, hp]
  simp only [beq_iff_eq]
  omega

namespace Inv

variable {w : Registry}

theorem call (h : w.Inv) (cfg : RegistryCfg) (c : Call) (hc : c.ConflictFree w) :
    (w.call cfg c).Inv := by
  cases c with
  | make fi => exact h.make fi
  | createFor path how spattr now io => exact h.createFor cfg path how spattr now io
  | createCustom i isShareable =>
    have hcc := createCustom_cases w i isShareable
    simp only [Registry.call]
    generalize w.createCustom i isShareable = r at hcc ⊢
    cases hcc with
    | null _ => exact h.handOut_none
    | conflict hi hp s hs =>
      have := hc hi hp
      rw [hs] at this
      cases this
    | installed hi _ hs =>
      rw [emplace_use]
      have hu := h.use i hi
      have hcount := h.count i
      refine Inv.handOut (hu.emplace i hi ?_ ?_)
      · simpa [Registry.use, setItem] using hs
      · simp only [Registry.use, setItem_self, hcount]
        omega
  | moveConstruct src =>
    simp only [Registry.call, Registry.moveConstruct]
    split
    · exact h
    · rename_i p hp
      refine h.congr rfl rfl rfl (fun j => ?_)
      have := count_some_set w.holders src j p none hp
      simp only [reduceCtorEq, if_false] at this
      simp only [users, List.count_append, List.count_cons, List.count_nil, beq_iff_eq]
      omega
  | moveAssign dst src =>
    simp only [Registry.call, Registry.moveAssign]
    split
    · rename_i p q hp hq
      refine h.congr rfl rfl rfl (fun j => ?_)
      have h1 := count_some_set w.holders dst j p q hp
      have hq' : (w.holders.set dst q)[src]? = some q := by
        rw [List.getElem?_set]
        split
        · rw [if_pos (List.getElem?_eq_some_iff.mp hp).1]
        · exact hq
      have h2 := count_some_set (w.holders.set dst q) src j q p hq'
      simp only [users]
      omega
    · exact h
  | touch i fi => exact h.touch i fi

theorem count_eraseIdx {l : List (Option Nat)} {k : Nat} {p : Option Nat} (hp : l[k]? = some p)
    (j : Nat) : (l.eraseIdx k).count (some j) + (if p = some j then 1 else 0) = l.count (some j) := by
  obtain ⟨hk, hpk⟩ := List.getElem?_eq_some_iff.mp hp
  rw [← (List.getElem_cons_eraseIdx_perm hk).count_eq (some j), List.count_cons, hpk]
  simp only [beq_iff_eq]

/-- A holder in its destructor is no longer in the list but still counted. -/
theorem destroy_pending (h : w.Inv) (k : Nat) {i : Nat} (hp : w.holders[k]? = some (some i)) :
    ({ w with holders := w.holders.eraseIdx k } : Registry).Inv [i] := by
  refine h.congr rfl rfl rfl (fun j => ?_)
  have := count_eraseIdx hp j
  simp only [Option.some.injEq] at this
  simp only [users, List.count_cons, List.count_nil, beq_iff_eq]
  omega

theorem destroy (h : w.Inv) (cfg : RegistryCfg) (k : Nat) (rel : Release) :
    (w.destroy cfg k rel).Inv := by
  unfold Registry.destroy
  simp only
  split
  · rename_i i hp
    exact Inv.drop (h.destroy_pending k hp) cfg _ rel id
  · rename_i hp
    refine h.congr rfl rfl rfl (fun j => ?_)
    cases hk : w.holders[k]? with
    | none => rw [List.eraseIdx_of_length_le (List.getElem?_eq_none_iff.mp hk)]
    | some p =>
      cases p with
      | none =>
        have := count_eraseIdx hk j
        simp only [reduceCtorEq, if_false] at this
        simp only [users]
        omega
      | some i => exact absurd hk (hp i)

theorem expired (h : w.Inv) (now : Int) : (w.expired now).2.Inv ((w.expired now).1 ++ []) := by
  refine h.congr rfl rfl rfl (fun j => ?_)
  have hq : (w.prolongedLifetimeQ.map (·.hodler)).count j =
      ((w.prolongedLifetimeQ.takeWhile (fun el => el.timeExpired ≤ now)).map (·.hodler)).count j +
        ((w.prolongedLifetimeQ.dropWhile (fun el => el.timeExpired ≤ now)).map (·.hodler)).count j := by
    rw [← List.count_append, ← List.map_append, List.takeWhile_append_dropWhile]
  simp only [Registry.expired, users, List.append_nil, List.count_nil]
  omega

theorem apply (h : w.Inv) (cfg : RegistryCfg) (op : Op) (hc : op.ConflictFree w) :
    (w.apply cfg op).Inv := by
  cases op with
  | call c => exact h.call cfg c hc
  | destroy k rel => exact h.destroy cfg k rel
  | backgroundCleanup now rel => exact Inv.dropAll cfg _ rel (h.expired now)

end Inv

/-- The operation puts a new item in the place of the one under this key. -/
def Displaces (cfg : RegistryCfg) (w : Registry) (k : Bytes) : Op → Prop
  | .call (.createFor path how spattr now io) =>
    cfg.normalizePath path = k ∧ k ≠ [] ∧ io.moved = true ∧
      ∃ s, w.mapItems k = some s ∧ (w.items s.item).verdict cfg how spattr now = .displace
  | _ => False

theorem regnew_mapItems (w : Registry) (k k' : Bytes) (spattr : SpecialPurposeAttr) (disk : Disk) :
    (w.regnew k spattr disk).1.mapItems k' =
      if k' = k then some ⟨w.nextNode, w.next⟩ else w.mapItems k' := by
  simp only [regnew, emplace, use, make, setItem_self]
  by_cases h : k' = k
  · simp [h, setItem]
  · simp [h, setItem]

/-- Calls leave an entry in the map unless they displace it. -/
theorem call_keeps (cfg : RegistryCfg) (w : Registry) (c : Call) {k : Bytes} {s : Slot}
    (hs : w.mapItems k = some s) (hd : ¬ w.Displaces cfg k (.call c)) (hl : w.Linked) :
    (w.call cfg c).mapItems k = some s := by
  cases c with
  | make fi => exact hs
  | createFor path how spattr now io =>
    have hc := createFor_cases cfg w path how spattr now io
    simp only [call, handOut]
    generalize w.createFor cfg path how spattr now io = r at hc ⊢
    cases hc with
    | new hn =>
      rw [regnew_mapItems, if_neg ?_]
      · exact hs
      · intro he
        rw [← he, hs] at hn
        cases hn
    | shared s' hs' hv => exact hs
    | side s' hs' hv => exact hs
    | failed s' hs' hv hm => exact hs
    | displaced s' hs' hv hp hm =>
      have hne : k ≠ cfg.normalizePath path := by
        intro he
        rw [hl.key _ s' hs', ← he] at hp
        refine hd ⟨he.symm, ?_, hm, s', by rw [he]; exact hs', hv⟩
        rintro rfl
        cases hp
      rw [regnew_mapItems, if_neg hne]
      simpa [abandon, hne] using hs
  | createCustom i isShareable =>
    have hc := createCustom_cases w i isShareable
    simp only [call, handOut]
    generalize w.createCustom i isShareable = r at hc ⊢
    cases hc with
    | null _ => exact hs
    | conflict _ _ _ _ => exact hs
    | installed _ _ hn =>
      have hne : k ≠ (w.items i).fi.sPathRel := by
        intro he
        rw [← he, hs] at hn
        cases hn
      simpa [use, emplace, setItem, hne] using hs
  | moveConstruct src =>
    simp only [call, moveConstruct]
    split <;> exact hs
  | moveAssign dst src =>
    simp only [call, moveAssign]
    split <;> exact hs
  | touch i fi => exact hs

/-- A displaced entry is taken by another item, and nothing else changes in the map. -/
theorem displaces_mapItems {cfg : RegistryCfg} {w : Registry} {op : Op} {k : Bytes}
    (hd : w.Displaces cfg k op) (hl : w.Linked) (k' : Bytes) :
    (w.apply cfg op).mapItems k' =
      if k' = k then some ⟨w.nextNode, w.next⟩ else w.mapItems k' := by
  cases op with
  | call c =>
    cases c with
    | createFor path how spattr now io =>
      obtain ⟨rfl, hne, hm, s', hs', hv⟩ := hd
      have hp : (w.items s'.item).fi.sPathRel.isEmpty = false := by
        rw [hl.key _ s' hs']
        simpa using hne
      simp only [apply, call, handOut, createFor, hs', hv, hp, hm]
      change ((w.abandon cfg _ s'.item now).regnew _ spattr io.disk).1.mapItems k' = _
      rw [regnew_mapItems]
      split
      · rfl
      · rename_i hk
        simp [abandon, hk]
    | make fi => cases hd
    | createCustom i b => cases hd
    | moveConstruct src => cases hd
    | moveAssign dst src => cases hd
    | touch i fi => cases hd
  | destroy n rel => cases hd
  | backgroundCleanup now rel => cases hd

theorem drop_usercount_le (cfg : RegistryCfg) (w : Registry) (i j : Nat) (manger : Bool)
    (rel : Release) : ((w.drop cfg i manger rel).items j).usercount ≤ (w.items j).usercount := by
  have hleft : ∀ it : RegItem, it.usercount = (w.items i).usercount - 1 →
      ((w.setItem i it).items j).usercount ≤ (w.items j).usercount := by
    intro it hit
    rw [setItem_usercount]
    split
    · rename_i he
      subst he
      omega
    · exact le_refl _
  have hc := drop_cases cfg w i manger rel
  generalize w.drop cfg i manger rel = w' at hc ⊢
  cases hc with
  | used hu => exact hleft _ rfl
  | ready _ _ => exact le_refl _
  | last hu _ _ => exact hleft _ rfl
  | unreg hu _ _ =>
    rw [unreg_usercount]
    exact hleft _ rfl

/-- A destructor leaves the entries of other items. -/
theorem drop_other {w : Registry} (h : w.Linked) (cfg : RegistryCfg) (i : Nat) (manger : Bool)
    (rel : Release) {k : Bytes} {s : Slot} (hs : w.mapItems k = some s) (hne : s.item ≠ i) :
    (w.drop cfg i manger rel).mapItems k = some s := by
  have hc := drop_cases cfg w i manger rel
  generalize w.drop cfg i manger rel = w' at hc ⊢
  cases hc with
  | used _ => exact hs
  | ready _ _ => exact hs
  | last _ _ _ => exact hs
  | unreg _ _ _ =>
    rcases h.entry_or_gone i with ⟨s', hs', he⟩ | ⟨-, -, hg⟩
    · have hg := h.globRef _ s' hs'
      rw [he] at hg
      have hk : k ≠ (w.items i).fi.sPathRel := by
        intro hk
        rw [← hk, hs] at hs'
        cases hs'
        exact hne he
      simp only [unreg, setItem_self, hg]
      simpa [erase, setItem, hs', hk] using hs
    · simp only [unreg, setItem_self, hg]
      exact hs

/-- An entry that a destructor takes out has lost its last holder. -/
theorem drop_lost {cfg : RegistryCfg} {w : Registry} {i : Nat} {manger : Bool}
    {rel : Release} (h : w.Linked) {k : Bytes} {s : Slot} (hs : w.mapItems k = some s)
    (hlost : (w.drop cfg i manger rel).mapItems k ≠ some s) :
    s.item = i ∧ ((w.drop cfg i manger rel).items i).usercount ≤ 0 := by
  refine ⟨?_, ?_⟩
  · by_contra hne
    exact hlost (drop_other h cfg i manger rel hs hne)
  · have hc := drop_cases cfg w i manger rel
    generalize w.drop cfg i manger rel = w' at hc hlost ⊢
    cases hc with
    | used _ => exact absurd hs hlost
    | ready _ _ => exact absurd hs hlost
    | last _ _ _ => exact absurd hs hlost
    | unreg hu _ _ =>
      rw [unreg_items, Function.update_self, setItem_self]
      simp only
      omega

/-- An item whose last holder is gone stays so. -/
theorem dropAll_usercount_le (cfg : RegistryCfg) (j : Nat) : ∀ (is : List Nat) (rel : Nat → Release)
    (w : Registry), ((dropAll cfg is rel w).items j).usercount ≤ (w.items j).usercount
  | [], _, _ => le_refl _
  | i :: is, rel, w =>
    (dropAll_usercount_le cfg j is (fun n => rel (n + 1)) _).trans
      (drop_usercount_le cfg w i j _ (rel 0))

theorem dropAll_lost {cfg : RegistryCfg} {k : Bytes} {s : Slot} : ∀ (is : List Nat)
    (rel : Nat → Release) {w : Registry}, w.Inv (is ++ []) → w.mapItems k = some s →
    (dropAll cfg is rel w).mapItems k ≠ some s →
    ((dropAll cfg is rel w).items s.item).usercount ≤ 0
  | [], _, _, _, hs, hlost => absurd hs hlost
  | i :: is, rel, w, h, hs, hlost => by
    simp only [dropAll] at hlost ⊢
    by_cases hfirst : (w.dropRef cfg i (rel 0)).mapItems k = some s
    · exact dropAll_lost is (fun n => rel (n + 1)) (h.drop cfg _ (rel 0) id) hfirst hlost
    · obtain ⟨he, hu⟩ := drop_lost h.toLinked hs hfirst
      rw [he]
      exact (dropAll_usercount_le cfg i is (fun n => rel (n + 1)) _).trans hu

/-- What an operation takes out of the map without displacing it has lost its last holder. -/
theorem apply_lost {cfg : RegistryCfg} {w : Registry} (h : w.Inv) (op : Op) {k : Bytes} {s : Slot}
    (hs : w.mapItems k = some s) (hd : ¬ w.Displaces cfg k op)
    (hlost : (w.apply cfg op).mapItems k ≠ some s) :
    ((w.apply cfg op).items s.item).usercount ≤ 0 := by
  cases op with
  | call c => exact absurd (call_keeps cfg w c hs hd h.toLinked) hlost
  | destroy n rel =>
    simp only [apply, destroy] at hlost ⊢
    split at hlost
    · rename_i i hp
      have hrest := h.destroy_pending n hp
      obtain ⟨he, hu⟩ := drop_lost hrest.toLinked hs hlost
      rw [he]
      exact hu
    · exact absurd hs hlost
  | backgroundCleanup now rel => exact dropAll_lost _ rel (h.expired now) hs hlost

theorem Inv.run (cfg : RegistryCfg) : ∀ (ops : List Op) {w : Registry}, w.Inv →
    w.ConflictFree cfg ops → (w.run cfg ops).Inv
  | [], _, h, _ => h
  | op :: ops, _, h, hc => Inv.run cfg ops (h.apply cfg op hc.1) hc.2

/-- What has left the map is not reachable from it under any key. -/
theorem Inv.left {cfg : RegistryCfg} {w : Registry} (h : w.Inv) {op : Op}
    (h' : (w.apply cfg op).Inv) {k : Bytes} {s : Slot} (hs : w.mapItems k = some s)
    (hlost : (w.apply cfg op).mapItems k ≠ some s) :
    ∀ k' s', (w.apply cfg op).mapItems k' = some s' → s'.item ≠ s.item := by
  intro k' s' hs' he
  by_cases hd : w.Displaces cfg k op
  · have hlt := h.known k s hs
    rw [displaces_mapItems hd h.toLinked] at hs'
    split at hs'
    · cases hs'
      exact absurd he (by simp only; omega)
    · rename_i hk
      exact hk (h.once hs hs' he)
  · have hu := apply_lost h op hs hd hlost
    have := h'.used k' s' hs'
    rw [he] at this
    omega

/-- The invariant holds after every history, and the next operation takes an entry out of the
map exactly if its last holder dies or if it displaces the item, which is then unlinked. -/
theorem registry_consistent (cfg : RegistryCfg) (ops : List Op) (op : Op)
    (hops : ConflictFree cfg {} ops) (hop : op.ConflictFree (run cfg {} ops)) :
    (run cfg {} ops).Inv ∧
      ∀ k s, (run cfg {} ops).mapItems k = some s →
        (((run cfg {} ops).apply cfg op).mapItems k ≠ some s ↔
          ((run cfg {} ops).apply cfg op).users s.item = 0 ∨ (run cfg {} ops).Displaces cfg k op) ∧
        (((run cfg {} ops).apply cfg op).mapItems k ≠ some s →
          (((run cfg {} ops).apply cfg op).items s.item).owner = false ∧
          (((run cfg {} ops).apply cfg op).items s.item).globRef = none ∧
          ∀ k' s', ((run cfg {} ops).apply cfg op).mapItems k' = some s' → s'.item ≠ s.item) := by
  have h := Inv.run cfg ops Inv.empty hops
  have h' := h.apply cfg op hop
  refine ⟨h, fun k s hs => ⟨⟨fun hlost => ?_, fun hwhy hkept => ?_⟩, fun hlost => ?_⟩⟩
  · by_cases hd : (run cfg {} ops).Displaces cfg k op
    · exact .inr hd
    · have hu := apply_lost h op hs hd hlost
      have hc := h'.count s.item
      simp only [List.count_nil, Nat.add_zero] at hc
      exact .inl (by omega)
  · rcases hwhy with hu | hd
    · have h1 := h'.used k s hkept
      have hc := h'.count s.item
      simp only [List.count_nil, Nat.add_zero, hu] at hc
      omega
    · rw [displaces_mapItems hd h.toLinked, if_pos rfl] at hkept
      have hlt := h.known k s hs
      cases hkept
      exact absurd hlt (Nat.lt_irrefl _)
  · have hno := h.left h' hs hlost
    obtain ⟨ho, hg⟩ := h'.gone s.item hno
    exact ⟨ho, hg, hno⟩

/-- The only holder of an item goes, and the entry with it. -/
theorem registry_consistent_one :
    ((run {} {} [.call (.createFor (lit "a") .autoMoveOutOfTheWay {} 100 {})]).apply {}
      (.destroy 0 ⟨101, false⟩)).mapItems (lit "a") ≠ some ⟨0, 0⟩ := by
  have h := registry_consistent {} [.call (.createFor (lit "a") .autoMoveOutOfTheWay {} 100 {})]
    (.destroy 0 ⟨101, false⟩) ⟨trivial, trivial⟩ trivial
  exact (h.2 (lit "a") ⟨0, 0⟩ (by decide)).1.mpr (.inl (by decide))

end Registry

end Acng
