import Acng.Proofs.Registry

namespace Acng
open Lib

namespace Contended

/-- The reference of the item into the map is valid and leads back to the item. -/
def EntryOf (w : Registry) (i : Nat) : Prop :=
  ∃ it s, (w.items i).globRef = some it ∧ w.mapItems it.key = some s ∧ s.node = it.node ∧ s.item = i

/-- An `Unreg` in this step is for an entry of its item, and leaves all other entries. -/
def UnregValid (cfg : RegistryCfg) (w : Contended) : Event → Prop
  | .leave n rel => ∀ l, w.leaving[n]? = some l → w.unregisters cfg l rel = true →
      EntryOf w.reg l.item ∧
        ∀ k s, w.reg.mapItems k = some s → s.item ≠ l.item →
          (w.step cfg (.leave n rel)).reg.mapItems k = some s
  | _ => True

/-- An item whose last holder comes to `Unreg` has not been displaced since its owner was read. -/
def StillOwned (cfg : RegistryCfg) (w : Contended) : Event → Prop
  | .leave n rel => ∀ l, w.leaving[n]? = some l → w.unregisters cfg l rel = true →
      (w.reg.items l.item).owner = true
  | _ => True

theorem linked_step {w : Contended} (h : w.reg.Linked) (cfg : RegistryCfg) (e : Event) :
    (w.step cfg e).reg.Linked := by
  cases e with
  | call c => exact h.call cfg c
  | readOwner k =>
    simp only [step]
    split <;> exact h.congr rfl rfl rfl
  | leave n rel =>
    simp only [step]
    split
    · exact h.drop cfg _ _ rel
    · exact h
  | backgroundCleanup now => exact h.congr rfl rfl rfl

theorem entryOf_iff {w : Registry} (h : w.Linked) (i : Nat) :
    EntryOf w i ↔ (w.items i).owner = true := by
  constructor
  · rintro ⟨it, s, -, hs, -, he⟩
    rw [← he]
    exact h.owner _ s hs
  · intro ho
    obtain ⟨s, hs, he, hg⟩ := h.entry_of_owner ho
    exact ⟨_, s, hg, hs, rfl, he⟩

theorem unregValid_iff {w : Contended} (h : w.reg.Linked) (cfg : RegistryCfg) (e : Event) :
    w.UnregValid cfg e ↔ w.StillOwned cfg e := by
  cases e with
  | call c => exact Iff.rfl
  | readOwner k => exact Iff.rfl
  | backgroundCleanup now => exact Iff.rfl
  | leave n rel =>
    refine ⟨fun hv l hl hu => ?_, fun ho l hl hu => ⟨?_, fun k s hs hne => ?_⟩⟩
    · exact (entryOf_iff h l.item).mp (hv l hl hu).1
    · exact (entryOf_iff h l.item).mpr (ho l hl hu)
    · simp only [step, hl]
      exact Registry.drop_other h cfg l.item l.manger rel hs hne

theorem unregValid_along_iff (cfg : RegistryCfg) : ∀ (es : List Event) {w : Contended},
    w.reg.Linked → (w.Along cfg (UnregValid cfg) es ↔ w.Along cfg (StillOwned cfg) es)
  | [], _, _ => Iff.rfl
  | e :: es, _, h => and_congr (unregValid_iff h cfg e)
      (unregValid_along_iff cfg es (linked_step h cfg e))

/-- In an interleaving every `Unreg` is for the entry of its item exactly if no item is displaced
between the two steps of the destructor of its last holder. -/
theorem unreg_own_entry_iff (cfg : RegistryCfg) (es : List Event) :
    ({} : Contended).Along cfg (UnregValid cfg) es ↔ ({} : Contended).Along cfg (StillOwned cfg) es :=
  unregValid_along_iff cfg es Registry.Linked.empty

/-- The only holder of an item has read the owner when a second `Create` displaces the item. -/
def displacedMeanwhile : List Event :=
  [.call (.createFor (lit "a") .forceMoveOutOfTheWay {} 100 {}), .readOwner 0,
    .call (.createFor (lit "a") .forceMoveOutOfTheWay {} 101 {}), .leave 0 ⟨102, false⟩]

/-- Its critical section then erases `end()`. -/
theorem displaced_unregistered :
    ¬ ({} : Contended).Along {} (UnregValid {}) displacedMeanwhile := by
  rintro ⟨-, -, -, hv, -⟩
  obtain ⟨⟨it, s, hg, -⟩, -⟩ := hv ⟨0, true⟩ (by decide) (by decide)
  cases hg

end Contended

end Acng
