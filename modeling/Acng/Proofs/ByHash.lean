import Acng.ByHash
import Acng.Lib.Runs
import Acng.Proofs.Inject

namespace Acng
open Lib

/-- The file that was installed has the size and the checksum of its entry. -/
def Restored.Sound (tools : RestoreTools) (r : Restored) : Prop :=
  r.entry.fpr.checkFile tools.hash r.file = true

/-- The entry is restored although its target is missing: the by-hash file is there with a head from
a by-hash folder, and it is installed on the way that nobody else stops. -/
def RestoresMissing (tools : RestoreTools) (stripPrefix : Bytes) (cache : CacheState)
    (entry : RemoteFileInfo) (io : InjectIo) : Prop :=
  (cache.disk (wantedPathRel stripPrefix entry)).file = none ∧ 29 ≤ entry.fpr.size ∧
    checkSolidHashOnDisk tools stripPrefix entry cache = true ∧
    (cache.flags (wantedPathRel stripPrefix entry)).uptodate = false ∧
    ∃ source, byHashOrigin entry (cache.disk (solidPathRel stripPrefix entry)).head = some source ∧
      (cache.inject tools.lib io (solidPathRel stripPrefix entry) (wantedPathRel stripPrefix entry)
        false (-1) source.2 (some source.1)).1 = true

/-- A missing target is only restored from a by-hash file that is what the entry says. -/
def MissingChecked (tools : RestoreTools) (stripPrefix : Bytes) (st : RestoreState)
    (step : RemoteFileInfo × RestoreIo) : Prop :=
  RestoresMissing tools stripPrefix (step.2.others st.cache) step.1 step.2.toInjectIo →
    step.1.fpr.checkFile tools.hash
      ((step.2.others st.cache).disk (solidPathRel stripPrefix step.1)).file = true

/-- One step adds nothing, or it adds the by-hash file, checked unless the target was missing. -/
theorem restoreEntry_restored (tools : RestoreTools) (stripPrefix : Bytes) (st : RestoreState)
    (step : RemoteFileInfo × RestoreIo) :
    ((st.restoreEntry tools stripPrefix step).restored = st.restored ∧
      ¬ RestoresMissing tools stripPrefix (step.2.others st.cache) step.1 step.2.toInjectIo) ∨
    ((st.restoreEntry tools stripPrefix step).restored = st.restored ++
        [⟨step.1, ((step.2.others st.cache).disk (solidPathRel stripPrefix step.1)).file⟩] ∧
      (RestoresMissing tools stripPrefix (step.2.others st.cache) step.1 step.2.toInjectIo ∨
        step.1.fpr.checkFile tools.hash
          ((step.2.others st.cache).disk (solidPathRel stripPrefix step.1)).file = true)) := by
  obtain ⟨entry, io⟩ := step
  unfold RestoreState.restoreEntry RestoresMissing
  simp only
  generalize io.others st.cache = cache
  generalize hwanted : wantedPathRel stripPrefix entry = wanted
  generalize hsolid : solidPathRel stripPrefix entry = solid
  split
  · next hskip =>
    refine .inl ⟨rfl, ?_⟩
    rintro ⟨hmissing, hsize, hthere, -⟩
    have hwants : wantsRestore tools stripPrefix entry cache = true := by
      unfold wantsRestore
      rw [hwanted, hmissing]
    rw [hthere, hwants] at hskip
    simp only [Bool.not_true, Bool.or_false, decide_eq_true_eq] at hskip
    omega
  · next hpass =>
    simp only [Bool.or_eq_true, decide_eq_true_eq, not_or, Bool.not_eq_true', Bool.not_eq_false]
      at hpass
    obtain ⟨⟨hsize, hthere⟩, hwants⟩ := hpass
    cases horigin : byHashOrigin entry (cache.disk solid).head with
    | none =>
      refine .inl ⟨rfl, ?_⟩
      rintro ⟨-, -, -, -, source, hsource, -⟩
      cases hsource
    | some source =>
      cases hdone : (cache.inject tools.lib io.toInjectIo solid wanted false (-1) source.2
          (some source.1)).1 with
      | false =>
        refine .inl ⟨by simp only [hdone, Bool.not_false, if_true], ?_⟩
        rintro ⟨-, -, -, -, source', hsource, hrestored⟩
        obtain rfl := Option.some.inj hsource
        rw [hdone] at hrestored
        cases hrestored
      | true =>
        simp only [hdone, Bool.not_true, Bool.false_eq_true, if_false]
        cases hold : (cache.flags wanted).uptodate with
        | true =>
          refine .inl ⟨if_pos rfl, ?_⟩
          rintro ⟨-, -, -, hnot, -⟩
          cases hnot
        | false =>
          obtain ⟨data, disk, hdata, hdisk, -, hr⟩ := CacheState.injectFile_true hold hdone
          rw [if_neg Bool.false_ne_true] at hr
          refine .inr ⟨?_, ?_⟩
          · rw [if_neg Bool.false_ne_true, CacheState.inject, hr, CacheState.setDisk]
            simp only [Function.update_self, hdisk, hdata]
          · cases hfile : (cache.disk wanted).file with
            | none => exact .inl ⟨rfl, by omega, hthere, rfl, source, rfl, hdone⟩
            | some old =>
              unfold wantsRestore at hwants
              rw [hwanted, hfile, hsolid, Bool.and_eq_true] at hwants
              exact .inr hwants.2

/-- The steps of a run before which everything was checked restore sound files only, and the other
way around. -/
theorem restored_sound_iff (tools : RestoreTools) (stripPrefix : Bytes)
    (steps : List (RemoteFileInfo × RestoreIo)) (st : RestoreState) :
    (∀ r ∈ (steps.foldl (RestoreState.restoreEntry tools stripPrefix) st).restored,
        r.Sound tools) ↔
      (∀ r ∈ st.restored, r.Sound tools) ∧ ∀ before step after, steps = before ++ step :: after →
        MissingChecked tools stripPrefix
          (before.foldl (RestoreState.restoreEntry tools stripPrefix) st) step := by
  refine (foldl_keep_iff (fun _ => True) (fun st => ∀ r ∈ st.restored, r.Sound tools)
    (fun st step => ¬ MissingChecked tools stripPrefix st step) (fun _ _ _ => trivial)
    (fun st step _ => ?_) trivial steps).trans ?_
  · rw [not_not]
    obtain ⟨hsame, hnot⟩ | ⟨hadded, hwhy⟩ := restoreEntry_restored tools stripPrefix st step
    · rw [hsame]
      exact (and_iff_left fun hmissing => absurd hmissing hnot).symm
    · rw [hadded, List.forall_mem_append, List.forall_mem_singleton]
      refine and_congr_right fun _ => ?_
      exact ⟨fun hsound _ => hsound, fun hchecked => hwhy.elim hchecked id⟩
  · simp only [not_not]

/-- Every file that is restored from the by-hash folders has the size and the checksum of its entry if
and only if every by-hash file that is restored to a missing target has them. -/
theorem restoreFiles_sound_iff (tools : RestoreTools) (ios : Nat → RestoreIo)
    (releasePathRel stripPrefix : Bytes) (cache : CacheState) :
    (∀ r ∈ (processByHashReleaseFileRestoreFiles tools ios releasePathRel stripPrefix
        cache).restored, r.Sound tools) ↔
      ∀ before step after, restoreSteps stripPrefix releasePathRel ios cache =
          before ++ step :: after →
        MissingChecked tools stripPrefix
          (before.foldl (RestoreState.restoreEntry tools stripPrefix) { cache }) step := by
  unfold processByHashReleaseFileRestoreFiles
  rw [restored_sound_iff]
  exact and_iff_right fun r hr => absurd hr List.not_mem_nil

/-! A partial download is restored. -/

def sampleSum : Bytes := List.replicate 32 171

def sampleRelease : Bytes :=
  lit "Acquire-By-Hash: yes\nSHA256:\n " ++ bytesToHexString sampleSum ++
    lit " 100 main/binary-amd64/Packages\n"

def sampleSolid : Bytes :=
  lit "debrep/dists/sid/main/binary-amd64/by-hash/SHA256/" ++ bytesToHexString sampleSum

/-- The Release file in the side store, and ten bytes of the index in the by-hash folder. -/
def sampleCache : CacheState where
  disk path :=
    if path = lit "_xstore/rsnap/debrep/dists/sid/InRelease" then { file := some sampleRelease }
    else if path = sampleSolid then
      { file := some (List.replicate 10 80)
        head := some (.fields (some 100) none
          (some (lit "http://deb.debian.org/debian/dists/sid/main/binary-amd64/by-hash/SHA256/"))) }
    else {}

def sampleRestoreTools : RestoreTools where
  hash csType _ := List.replicate csType.len 0
  lib := { parseDate := fun _ => none, formatNorm := id }

/-- The ten bytes are installed as the index of a hundred bytes. -/
theorem partial_restored : ¬ ∀ r ∈ (processByHashReleaseFileRestoreFiles sampleRestoreTools
    (fun _ => {}) (lit "debrep/dists/sid/InRelease") (lit "_xstore/rsnap/") sampleCache).restored,
    r.Sound sampleRestoreTools := by
  unfold Restored.Sound sampleCache sampleSolid sampleRelease lit
  repeat rw [String.toList_ofList]
  decide +kernel

end Acng
