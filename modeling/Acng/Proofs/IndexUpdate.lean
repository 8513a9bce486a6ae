import Acng.IndexUpdate
import Acng.Lib.Runs
import Acng.Proofs.Download

namespace Acng
open Lib

theorem SameErrorFlags.noneHidden {cache cache' : CacheState} (h : SameErrorFlags cache cache')
    (hnone : NoneHidden cache) : NoneHidden cache' :=
  fun path => ((h path).2).trans (hnone path)

/-- The failure of a reported download was swallowed. -/
def DlReport.Swallowed (cfg : CachemanCfg) (ios : Nat → DownloadIo) (rep : DlReport) : Prop :=
  Acng.Swallowed cfg ios rep.args rep.before

/-- A report is one of a real call. -/
def DlReport.Made (cfg : CachemanCfg) (ios : Nat → DownloadIo) (rep : DlReport) : Prop :=
  rep.answer = (download cfg ios rep.args rep.before).1

namespace UpdateState

/-- If no failure was swallowed so far, each one that nobody forgives was counted. -/
structure Counted (cfg : CachemanCfg) (ios : Nat → DownloadIo) (st : UpdateState) : Prop where
  noneHidden : NoneHidden st.dl.cache
  made : ∀ rep ∈ st.reports, rep.Made cfg ios
  counted : (∀ rep ∈ st.reports, ¬ rep.Swallowed cfg ios) →
    (st.reports.filter DlReport.unforgiven).length ≤ st.nErrorCount

variable {cfg : CachemanCfg} {ios : Nat → DownloadIo} {stages : UpdateStages} {st : UpdateState}

theorem Counted.addErrors (h : st.Counted cfg ios) (n : Nat) : (st.addErrors n).Counted cfg ios :=
  ⟨h.noneHidden, h.made, fun hnone => (h.counted hnone).trans (Nat.le_add_right ..)⟩

theorem Counted.onCache {α : Type} (h : st.Counted cfg ios) (stage : CacheStage α) :
    (st.onCache stage).2.Counted cfg ios :=
  ⟨stage.noneHidden _ h.noneHidden, h.made, h.counted⟩

theorem Counted.setFlags (h : st.Counted cfg ios) {path : Bytes}
    {change : IfileAttribs → IfileAttribs}
    (hsame : ∀ atts, (change atts).forgiveDlErrors = atts.forgiveDlErrors ∧
      (change atts).hideDlErrors = atts.hideDlErrors) :
    (st.setFlags path change).Counted cfg ios :=
  ⟨(SameErrorFlags.setFlags _ _ _ hsame).noneHidden h.noneHidden, h.made, h.counted⟩

/-- The report that a download adds is counted if nothing was swallowed and enough errors are added,
and no errors are enough where the result is OK or none. -/
theorem Counted.download (h : st.Counted cfg ios) (args : DlArgs) {n : Nat}
    (hn : (st.download cfg ios args).1.all (· == .ok) = true ∨
      (!(st.flags args.sFilePathRel).forgiveDlErrors).toNat ≤ n) :
    ((st.download cfg ios args).2.addErrors n).Counted cfg ios := by
  obtain ⟨hflags, -, hreturns⟩ := download_sane cfg ios args st.dl
  have hswallowed := download_swallowed_iff cfg ios args st.dl
  refine ⟨hflags.noneHidden h.noneHidden, ?_, ?_⟩
  · intro rep hrep
    obtain hold | hnew := List.mem_append.mp hrep
    · exact h.made rep hold
    · obtain rfl := List.mem_singleton.mp hnew
      rfl
  · intro hnone
    obtain ⟨hold, hnew⟩ := List.forall_mem_append.mp hnone
    have hlast : ¬ Swallowed cfg ios args st.dl := hnew _ (List.mem_singleton.mpr rfl)
    rw [← hswallowed] at hlast
    have hcounted := h.counted hold
    simp only [UpdateState.download, UpdateState.addErrors, List.filter_append, List.length_append]
    have hone : ([⟨args, st.dl, (Acng.download cfg ios args st.dl).1⟩].filter
        DlReport.unforgiven).length ≤ n := by
      rw [List.filter_singleton]
      cases hunforgiven :
          (⟨args, st.dl, (Acng.download cfg ios args st.dl).1⟩ : DlReport).unforgiven with
      | false => exact Nat.zero_le n
      | true =>
        simp only [DlReport.unforgiven, Bool.and_eq_true] at hunforgiven
        obtain ⟨hfail, hforgive⟩ := hunforgiven
        obtain hok | hn := hn
        · cases hresult : (Acng.download cfg ios args st.dl).1.result with
          | none => exact absurd hresult (hreturns hfail)
          | some result =>
            simp only [UpdateState.download, hresult, Option.all_some, beq_iff_eq] at hok
            exact absurd ⟨hresult.trans (congrArg some hok), hfail⟩ hlast
        · rw [UpdateState.flags, hforgive] at hn
          exact hn
    omega

theorem download_ne_gone (cfg : CachemanCfg) (ios : Nat → DownloadIo) (st : UpdateState)
    (args : DlArgs) : (st.download cfg ios args).1 ≠ some .gone :=
  (download_sane cfg ios args st.dl).2.1

theorem download_flags (cfg : CachemanCfg) (ios : Nat → DownloadIo) (st : UpdateState)
    (args : DlArgs) (path : Bytes) :
    ((st.download cfg ios args).2.flags path).forgiveDlErrors = (st.flags path).forgiveDlErrors :=
  ((download_sane cfg ios args st.dl).1 path).1

theorem Counted.forceFile (h : st.Counted cfg ios) (path : Bytes) :
    (st.forceFile cfg ios path).Counted cfg ios := by
  unfold UpdateState.forceFile
  have hdone := fun n => h.download { sFilePathRel := path, bIsVolatileFile := true } (n := n)
  have hgone := download_ne_gone cfg ios st
    { sFilePathRel := path, bIsVolatileFile := true }
  split
  · exact h
  · simp only
    generalize st.download cfg ios { sFilePathRel := path, bIsVolatileFile := true } = r
      at hdone hgone ⊢
    split
    · next hnone => exact hdone 0 (.inl (by rw [hnone]; rfl))
    · next hok => exact hdone 0 (.inl (by rw [hok]; rfl))
    · next heq => exact absurd heq hgone
    · exact hdone _ (.inr (Nat.le_refl _))
    · exact hdone _ (.inr (Nat.le_refl _))

theorem Counted.releaseFile (h : st.Counted cfg ios) (path : Bytes) :
    (st.releaseFile cfg ios stages path).Counted cfg ios := by
  unfold UpdateState.releaseFile
  split
  · exact h
  · simp only
    have hrestored := h.onCache (stages.processByHashReleaseFileRestoreFiles path)
    generalize st.onCache (stages.processByHashReleaseFileRestoreFiles path) = restored
      at hrestored ⊢
    split
    · exact hrestored.addErrors 1
    · have hdone := fun n => hrestored.download
        { sFilePathRel := path, bIsVolatileFile := true, guessReplacement := true } (n := n)
      generalize restored.2.download cfg ios _ = r at hdone ⊢
      split
      · next hok => exact hdone 0 (.inl hok)
      · have hcounted := hdone 1 (.inr (Bool.toNat_le _))
        have hshown : (r.2.flags path).hideDlErrors = false := hcounted.noneHidden path
        rw [hshown, if_neg Bool.false_ne_true]
        exact ⟨hcounted.noneHidden, hcounted.made, hcounted.counted⟩

theorem Counted.remainingFile (h : st.Counted cfg ios) (path : Bytes) :
    (st.remainingFile cfg ios stages path).Counted cfg ios := by
  unfold UpdateState.remainingFile
  split
  · exact h
  · simp only
    have hdone := fun n => h.download
      { sFilePathRel := path, bIsVolatileFile := true, guessReplacement := true } (n := n)
    have hsame := download_flags cfg ios st
      { sFilePathRel := path, bIsVolatileFile := true, guessReplacement := true } path
    generalize st.download cfg ios _ = r at hdone hsame ⊢
    split
    · next hok => exact hdone 0 (.inl hok)
    · rw [hsame]
      exact hdone _ (.inr (Nat.le_refl _))

theorem Counted.groupFile (h : st.Counted cfg ios) (paths : List Bytes) (path : Bytes) :
    (st.groupFile cfg ios stages paths path).Counted cfg ios := by
  unfold UpdateState.groupFile
  split
  · exact h
  · simp only
    generalize hr : (if (st.flags path).uptodate then (some DlResult.ok, st)
      else st.download cfg ios { sFilePathRel := path, bIsVolatileFile := true }) = r
    obtain ⟨hdone, hsame⟩ : (∀ n, r.1.all (· == .ok) = true ∨
        (!(st.flags path).forgiveDlErrors).toNat ≤ n → (r.2.addErrors n).Counted cfg ios) ∧
        (r.2.flags path).forgiveDlErrors = (st.flags path).forgiveDlErrors := by
      subst hr
      split
      · exact ⟨fun n _ => h.addErrors n, rfl⟩
      · exact ⟨fun _ hn => h.download _ hn, download_flags cfg ios st _ path⟩
    split
    · have hforgive := (SameErrorFlags.setFlags r.2.dl.cache path
        (fun atts => { atts with parseignore := true }) (fun _ => ⟨rfl, rfl⟩) path).1
      refine (hdone _ (.inr ?_)).setFlags fun _ => ⟨rfl, rfl⟩
      rw [← hsame]
      exact Nat.le_of_eq (congrArg (fun b => (!b).toNat) hforgive.symm)
    · next hok =>
      have hcounted := hdone 0 (.inl (by simpa using hok))
      split
      · exact hcounted.onCache _
      · exact hcounted

theorem Counted.syncGroup (h : st.Counted cfg ios) (paths : List Bytes) :
    (st.syncGroup stages paths).Counted cfg ios := by
  refine foldl_keep (Counted cfg ios) (fun st path h => ?_) h paths
  split
  · exact h.onCache _
  · exact h

theorem Counted.updateGroup (h : st.Counted cfg ios) (paths : List Bytes) :
    (st.updateGroup cfg ios stages paths).Counted cfg ios :=
  foldl_keep (Counted cfg ios) (fun _ path h => h.groupFile paths path) h _

theorem Counted.updateIndexes (h : st.Counted cfg ios) :
    (st.updateIndexes cfg ios stages).Counted cfg ios := by
  unfold UpdateState.updateIndexes
  simp only
  have hfixed := h.onCache stages.fixMissingByHashLinks
  split
  · exact hfixed.addErrors 1
  · have hgroups := (hfixed.onCache stages.groups).addErrors
      ((st.onCache stages.fixMissingByHashLinks).2.onCache stages.groups).1.2
    split
    · exact hgroups
    · refine foldl_keep (Counted cfg ios) (fun _ path h => h.remainingFile path) ?_ _
      refine foldl_keep (Counted cfg ios) (fun _ paths h => h.updateGroup paths) ?_ _
      refine foldl_keep (Counted cfg ios) (fun _ paths h => h.onCache _) ?_ _
      exact foldl_keep (Counted cfg ios) (fun _ paths h => h.syncGroup paths) hgroups _

theorem Counted.updateVolatileFiles (h : st.Counted cfg ios) (stages : UpdateStages) :
    (st.updateVolatileFiles cfg ios stages).Counted cfg ios := by
  unfold UpdateState.updateVolatileFiles
  split
  · exact foldl_keep (Counted cfg ios) (fun _ path h => h.forceFile path) h stages.metaFiles
  · simp only
    have hreleases : ((st.onCache stages.getGoodReleaseFiles).1.foldl
        (UpdateState.releaseFile cfg ios stages)
        (st.onCache stages.getGoodReleaseFiles).2).Counted cfg ios :=
      foldl_keep (Counted cfg ios) (fun _ path h => h.releaseFile path) (h.onCache _) _
    split
    · exact hreleases
    · exact hreleases.updateIndexes

end UpdateState

/-- No failure of an index file goes unnoticed: a download is only OK if the file is there or the failure
is forgiven, other failures are counted, and none of them is followed by a removal if errors are to
abort the run. -/
structure ActionOutcome.Reported (cfg : CachemanCfg) (out : ActionOutcome) : Prop where
  ok : ∀ rep ∈ out.update.reports, rep.answer.result = some .ok → rep.answer.ending.isFailure = false
  counted : (out.update.reports.filter DlReport.unforgiven).length ≤ out.update.nErrorCount
  stops : cfg.bErrAbort = true → (∃ rep ∈ out.update.reports, rep.unforgiven = true) →
    out.removal = none

namespace MaintRun

end MaintRun

end Acng
