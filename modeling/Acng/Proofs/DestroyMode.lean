import Acng.Response
import Acng.Proofs.HeadCases

namespace Acng
open Lib

/-- A call that declares an error on a storage item. -/
inductive ErrorCall
  | dlSetError (errState : RemoteStatus) (kmode : EDestroyMode)
  | markFaulty (killFile : Bool)
  | dlRefCountDec (reason : RemoteStatus)
  | withError (destruction : EDestroyMode)
  | sizeDisagreement
deriving DecidableEq, Repr

namespace ErrorCall

def apply (fi : FileItem) : ErrorCall → FileItem
  | dlSetError errState kmode => fi.dlSetError errState kmode
  | markFaulty killFile => fi.markFaulty killFile
  | dlRefCountDec reason => fi.dlRefCountDec reason
  | withError destruction => fi.withError destruction
  | sizeDisagreement => fi.dlSetError ⟨503, lit "Disagreement on file size, cleaning up"⟩ .truncate

def run (fi : FileItem) (calls : List ErrorCall) : FileItem := calls.foldl apply fi

/-- The mode that a call asks for. `DlRefCountDec` passes on the one that is stored. -/
def request : ErrorCall → Option EDestroyMode
  | dlSetError _ kmode => some kmode
  | markFaulty killFile => some (if killFile then .delete else .truncate)
  | dlRefCountDec _ => none
  | withError destruction => some destruction
  | sizeDisagreement => some .truncate

def mostSevere (calls : List ErrorCall) : EDestroyMode :=
  (calls.filterMap request).foldr max .keep

/-- The mode at destruction is the most severe one that was requested, and the files
that are left show it. -/
structure Fused (fi : FileItem) (calls : List ErrorCall) : Prop where
  mode : (run fi calls).eDestroy = mostSevere calls
  killed : .markFaulty true ∈ calls → (run fi calls).destroy = { file := none, head := none }
  faulty : .markFaulty false ∈ calls →
    (run fi calls).destroy.file.getD [] = [] ∧
      ((run fi calls).destroy.head = none ∨
        ∃ origSrc, (run fi calls).destroy.head = some (.fields none none origSrc))
  disagreed : .sizeDisagreement ∈ calls → (run fi calls).destroy.file.getD [] = []

theorem keep_le (m : EDestroyMode) : .keep ≤ m := by
  change EDestroyMode.rank .keep ≤ m.rank
  exact Nat.zero_le _

/-- A 416 response to a job that has data ends in the call for it. -/
theorem checkAndSaveHeader_disagreement (env : Env) (io : Io) (d : Dl) (h : Header) (raw : Nat)
    (contLen : Int) (hcode : h.status.code = 416) (hst : d.fi.status < .complete)
    (hmine : d.job.bFileItemAssigned = true) (hsize : 0 ≤ d.fi.nSizeChecked) :
    (d.checkAndSaveHeader env io h raw contLen).2.fi =
      sizeDisagreement.apply { d.fi with
        nIncommingCount := d.fi.nIncommingCount + raw, nTimeDlStarted := env.now } := by
  have hst' : ¬ FiStatus.complete ≤ d.fi.status := not_le.mpr hst
  have hsize' : ¬ d.fi.nSizeChecked < 0 := by omega
  unfold Dl.checkAndSaveHeader
  simp only [hst', hmine, hcode, hsize', Bool.not_true, Bool.false_and, Bool.false_eq_true,
    if_false, if_true, show ¬ (416 : Int) = 200 by decide, show ¬ (416 : Int) = 206 by decide]
  rfl

/-- The comparison of `DlSetError` keeps the milder one of two modes. -/
theorem dlSetError_mode (fi : FileItem) (errState : RemoteStatus) (kmode : EDestroyMode) :
    (fi.dlSetError errState kmode).eDestroy = min kmode fi.eDestroy := by
  unfold FileItem.dlSetError
  simp only
  split
  · rename_i h
    exact (min_eq_left h.le).symm
  · rename_i h
    exact (min_eq_right (not_lt.mp h)).symm

theorem apply_mode (fi : FileItem) (c : ErrorCall) :
    (c.apply fi).eDestroy = c.request.elim fi.eDestroy (min · fi.eDestroy) := by
  cases c with
  | dlSetError errState kmode => exact dlSetError_mode _ _ _
  | markFaulty killFile => exact dlSetError_mode _ _ _
  | withError destruction => exact dlSetError_mode _ _ _
  | sizeDisagreement => exact dlSetError_mode _ _ _
  | dlRefCountDec reason =>
    simp only [apply, FileItem.dlRefCountDec, request, Option.elim_none]
    split
    · rfl
    · split
      · rw [dlSetError_mode]
        exact min_self _
      · rfl

/-- Over a whole run the mode is the mildest one of those requested and the first. -/
theorem run_mode (fi : FileItem) (calls : List ErrorCall) :
    (run fi calls).eDestroy = (calls.filterMap request).foldr min fi.eDestroy := by
  induction calls generalizing fi with
  | nil => rfl
  | cons c calls ih =>
    have hmin : ∀ (ms : List EDestroyMode) (a b : EDestroyMode),
        ms.foldr min (min a b) = min a (ms.foldr min b) := by
      intro ms a b
      induction ms with
      | nil => rfl
      | cons m ms ih => rw [List.foldr_cons, ih, List.foldr_cons, min_left_comm]
    change (run (c.apply fi) calls).eDestroy = _
    rw [ih, apply_mode]
    cases hc : c.request with
    | none => simp [hc]
    | some m => simp [hc, hmin]

theorem mostSevere_keep (calls : List ErrorCall) :
    mostSevere calls = .keep ↔ ∀ c ∈ calls, ∀ m ∈ c.request, m = .keep := by
  have hmax : ∀ ms : List EDestroyMode, ms.foldr max .keep = .keep ↔ ∀ m ∈ ms, m = .keep := by
    intro ms
    induction ms with
    | nil => simp
    | cons m ms ih =>
      rw [List.foldr_cons, List.forall_mem_cons, ← ih]
      constructor
      · intro h
        exact ⟨le_antisymm ((le_max_left _ _).trans h.le) (keep_le _),
          le_antisymm ((le_max_right _ _).trans h.le) (keep_le _)⟩
      · rintro ⟨h1, h2⟩
        rw [h1, h2, max_self]
  rw [mostSevere, hmax]
  simp only [List.mem_filterMap, forall_exists_index, and_imp, Option.mem_def]
  exact ⟨fun h c hc m hm => h m c hc hm, fun h m c hc hm => h c hc m hm⟩

/-- On an item as it is constructed the errors are fused as documented exactly when
no call asks for anything but KEEP. -/
theorem fused_iff (fi : FileItem) (calls : List ErrorCall) (h0 : fi.eDestroy = .keep) :
    Fused fi calls ↔ ∀ c ∈ calls, ∀ m ∈ c.request, m = .keep := by
  have hmode : (run fi calls).eDestroy = .keep := by
    rw [run_mode, h0]
    induction calls.filterMap request with
    | nil => rfl
    | cons m ms ih => rw [List.foldr_cons, ih, min_eq_right (keep_le m)]
  rw [← mostSevere_keep]
  constructor
  · intro h
    rw [← h.mode, hmode]
  · intro h
    have hnone := (mostSevere_keep calls).mp h
    refine ⟨by rw [hmode, h], ?_, ?_, ?_⟩
    · intro hc
      exact absurd (hnone _ hc .delete rfl) (by decide)
    · intro hc
      exact absurd (hnone _ hc .truncate rfl) (by decide)
    · intro hc
      exact absurd (hnone _ hc .truncate rfl) (by decide)

/-- An item with both of its files. -/
def cachedItem : FileItem :=
  { sPathRel := lit "m/a", disk := ⟨some (lit "bad"), some (.fields (some 3) none none)⟩ }

theorem fused_plain_error : Fused cachedItem [.withError .keep, .dlRefCountDec ⟨503, []⟩] :=
  (fused_iff cachedItem _ rfl).mpr (by decide)

/-- A file that is known to be bad and shall be removed survives with its head. -/
theorem killed_file_survives :
    ¬ Fused cachedItem [.markFaulty true] ∧
      (run cachedItem [.markFaulty true]).destroy = cachedItem.disk := by
  refine ⟨?_, by decide⟩
  intro h
  exact absurd h.mode (by decide)

end ErrorCall

end Acng
