import Acng.Lib.Runs
import Acng.Lib.Scan
import Acng.Patch
import Acng.Proofs.Inject

namespace Acng
open Lib

/-- The last separator of a path stands between its parts. -/
theorem splitDirPath_parts (path : Bytes) :
    (splitDirPath path).2 = path ∨ ∃ dir, path = dir ++ 47 :: (splitDirPath path).2 := by
  unfold splitDirPath
  cases hpos : rfind 47 path with
  | none => exact .inl rfl
  | some pos => exact .inr ⟨path.take pos, rfind_some hpos⟩

theorem sfx_noSlash : ∀ sfx ∈ sfxXzBz2GzLzma, (47 : UInt8) ∉ sfx := by decide

/-- A suffix of a path is one of the file name. -/
theorem suffix_name {sfx : Bytes} (h : sfx ∈ sfxXzBz2GzLzma) (path : Bytes) :
    sfx.isSuffixOf path = sfx.isSuffixOf (splitDirPath path).2 := by
  rw [Bool.eq_iff_iff, List.isSuffixOf_iff_suffix, List.isSuffixOf_iff_suffix]
  obtain hname | ⟨dir, hpath⟩ := splitDirPath_parts path
  · rw [hname]
  · have hnot := sfx_noSlash sfx h
    constructor
    · intro hsfx
      obtain hinner | houter := List.suffix_or_suffix_of_suffix hsfx ⟨dir, hpath.symm⟩
      · obtain rfl | hinner := List.suffix_cons_iff.mp hinner
        · exact absurd List.mem_cons_self hnot
        · exact hinner
      · exact absurd (houter.subset List.mem_cons_self) hnot
    · intro hsfx
      have hcons := hsfx.trans (List.suffix_cons 47 (splitDirPath path).2)
      exact hcons.trans ⟨dir, hpath.symm⟩

theorem findCompIdx_name (path : Bytes) : findCompIdx path = findCompIdx (splitDirPath path).2 := by
  unfold findCompIdx
  have hall : ∀ sfx ∈ sfxXzBz2GzLzma,
      sfx.isSuffixOf path = sfx.isSuffixOf (splitDirPath path).2 := fun _ h => suffix_name h path
  generalize sfxXzBz2GzLzma = sfxs at hall ⊢
  induction sfxs with
  | nil => rfl
  | cons sfx sfxs ih =>
    rw [List.findIdx?_cons, List.findIdx?_cons, hall sfx List.mem_cons_self,
      ih (fun sfx' h => hall sfx' (List.mem_cons_of_mem _ h))]

/-- The content of a file that was flagged is what the index announces, as it is or decompressed. -/
def Marked.Sound (tools : PatchTools) (wanted : Fingerprint) (m : Marked) : Prop :=
  ∃ data, m.file = some data ∧ (Fingerprint.scan tools.hash .sha256 data = wanted ∨
    ∃ plain, tools.unpack (findCompIdx m.path) data = some plain ∧
      Fingerprint.scan tools.hash .sha256 plain = wanted)

/-- Soundness goes by the file name and the content. -/
theorem Marked.sound_name {tools : PatchTools} {wanted : Fingerprint} {path path' : Bytes}
    {file : Option Bytes} (h : (splitDirPath path).2 = (splitDirPath path').2) :
    Marked.Sound tools wanted ⟨path, file⟩ ↔ Marked.Sound tools wanted ⟨path', file⟩ := by
  unfold Marked.Sound
  rw [findCompIdx_name path, findCompIdx_name path', h]

namespace PatchState

def Sound (tools : PatchTools) (wanted : Fingerprint) (st : PatchState) : Prop :=
  ∀ m ∈ st.marked, m.Sound tools wanted

/-- `SyncSiblings` copies the source to this target, which is on disk under the same name in another
folder and not up to date yet, and nobody stops it. -/
structure SyncsTo (tools : PatchTools) (srcPathRel : Bytes) (st : PatchState) (tgt : Bytes) :
    Prop where
  byPath : tools.bByPath = true
  onDisk : (st.cache.flags tgt).vfile_ondisk = true
  folder : (splitDirPath tgt).1 ≠ (splitDirPath srcPathRel).1
  name : (splitDirPath srcPathRel).2 = (splitDirPath tgt).2
  outdated : (st.cache.flags tgt).uptodate = false
  injected : (st.cache.injectFile tools.lib (tools.ios st.calls) (st.cache.disk srcPathRel).file tgt
    true (-1) tools.oldDate none).1 = true

/-- Some target is copied to. -/
def Spreads (tools : PatchTools) (srcPathRel : Bytes) (targets : List Bytes) (st : PatchState) :
    Prop :=
  ∃ before tgt after, targets = before ++ tgt :: after ∧
    (st.syncSiblings tools srcPathRel before).SyncsTo tools srcPathRel tgt

variable {tools : PatchTools} {st : PatchState}

theorem inject_frame (file : Option Bytes) (toRel : Bytes) (contLen : Int)
    (forceOrig : Option Bytes) :
    (st.inject tools file toRel contLen forceOrig).2.dir = st.dir ∧ ∀ path, path ≠ toRel →
      (st.inject tools file toRel contLen forceOrig).2.cache.disk path = st.cache.disk path :=
  ⟨rfl, fun _ h => CacheState.injectFile_disk h⟩

/-- What is marked is the file that was given, and it is in the cache then. -/
theorem inject_marked {file : Option Bytes} {toRel : Bytes} {contLen : Int}
    {forceOrig : Option Bytes} (hold : (st.cache.flags toRel).uptodate = false)
    (h : (st.inject tools file toRel contLen forceOrig).1 = true) :
    (∃ data, file = some data) ∧
      ((st.inject tools file toRel contLen forceOrig).2.cache.disk toRel).file = file ∧
      (st.inject tools file toRel contLen forceOrig).2.marked = st.marked ++ [⟨toRel, file⟩] := by
  have hdone : (st.cache.injectFile tools.lib (tools.ios st.calls) file toRel true contLen
    tools.oldDate forceOrig).1 = true := h
  obtain ⟨data, disk, hdata, hdisk, -, hr⟩ := CacheState.injectFile_true hold hdone
  have hfile : ((st.inject tools file toRel contLen forceOrig).2.cache.disk toRel).file = file := by
    rw [if_pos rfl] at hr
    simp only [inject]
    rw [hr, CacheState.setFlags_disk]
    simp only [CacheState.setDisk, Function.update_self, hdisk, hdata]
  refine ⟨⟨data, hdata⟩, hfile, ?_⟩
  conv_rhs => rw [← hfile]
  simp only [inject, hdone, hold, Bool.not_false, Bool.and_self, if_true]

theorem inject_unmarked {file : Option Bytes} {toRel : Bytes} {contLen : Int}
    {forceOrig : Option Bytes} (h : (st.cache.flags toRel).uptodate = true ∨
      (st.inject tools file toRel contLen forceOrig).1 = false) :
    (st.inject tools file toRel contLen forceOrig).2.marked = st.marked := by
  simp only [inject] at h ⊢
  obtain h | h := h
  · simp only [h, Bool.not_true, Bool.and_false, Bool.false_eq_true, if_false]
  · simp only [h, Bool.false_and, Bool.false_eq_true, if_false]

/-- One target keeps the source, and it is marked with the file of the source if it is copied to. -/
theorem syncSibling_cases (srcPathRel tgt : Bytes) :
    (st.syncSibling tools srcPathRel tgt).dir = st.dir ∧
      (st.syncSibling tools srcPathRel tgt).cache.disk srcPathRel = st.cache.disk srcPathRel ∧
      ((¬ st.SyncsTo tools srcPathRel tgt ∧
          (st.syncSibling tools srcPathRel tgt).marked = st.marked) ∨
        (st.SyncsTo tools srcPathRel tgt ∧ (st.syncSibling tools srcPathRel tgt).marked =
          st.marked ++ [⟨tgt, (st.cache.disk srcPathRel).file⟩])) := by
  unfold syncSibling
  by_cases hskip : (!(st.cache.flags tgt).vfile_ondisk || tgt == srcPathRel) = true
  · rw [if_pos hskip]
    refine ⟨rfl, rfl, .inl ⟨fun hsync => ?_, rfl⟩⟩
    rw [hsync.onDisk, Bool.not_true, Bool.false_or, beq_iff_eq] at hskip
    exact hsync.folder (by rw [hskip])
  · rw [if_neg hskip]
    simp only [Bool.or_eq_true, Bool.not_eq_true', beq_iff_eq, not_or, Bool.not_eq_false] at hskip
    obtain ⟨honDisk, hother⟩ := hskip
    simp only
    by_cases hcopy : (!((splitDirPath tgt).1 == (splitDirPath srcPathRel).1) && tools.bByPath &&
        (splitDirPath srcPathRel).2 == (splitDirPath tgt).2) = true
    · simp only [Bool.and_eq_true, Bool.not_eq_true', beq_eq_false_iff_ne, beq_iff_eq] at hcopy
      obtain ⟨⟨hfolder, hbyPath⟩, hname⟩ := hcopy
      simp only [beq_false_of_ne hfolder, hbyPath, hname, Bool.not_false, Bool.not_true,
        Bool.or_self, Bool.false_eq_true, if_false, Bool.and_self, BEq.rfl, if_true]
      obtain ⟨hdir, hdisk⟩ := @inject_frame tools st
        (st.cache.disk srcPathRel).file tgt (-1) none
      refine ⟨hdir, hdisk srcPathRel (Ne.symm hother), ?_⟩
      cases hold : (st.cache.flags tgt).uptodate with
      | true =>
        refine .inl ⟨fun hsync => ?_, inject_unmarked (.inl hold)⟩
        exact Bool.false_ne_true (hsync.outdated.symm.trans hold)
      | false =>
        cases hdone : (st.inject tools (st.cache.disk srcPathRel).file tgt (-1) none).1 with
        | false =>
          refine .inl ⟨fun hsync => ?_, inject_unmarked (.inr hdone)⟩
          exact Bool.false_ne_true (hdone.symm.trans hsync.injected)
        | true =>
          exact .inr ⟨⟨hbyPath, honDisk, hfolder, hname, hold, hdone⟩, (inject_marked hold hdone).2.2⟩
    · rw [if_neg hcopy]
      refine ⟨rfl, ?_, .inl ⟨fun hsync => hcopy ?_, rfl⟩⟩
      · split
        · rw [CacheState.setFlags_disk]
        · rfl
      · rw [hsync.byPath, hsync.name, beq_false_of_ne hsync.folder, BEq.rfl]
        rfl

/-- The siblings are flagged soundly, unless the source is not what was announced and it is copied. -/
theorem syncSiblings_sound_iff {wanted : Fingerprint} (srcPathRel : Bytes) (targets : List Bytes) :
    (st.syncSiblings tools srcPathRel targets).Sound tools wanted ↔
      st.Sound tools wanted ∧
        (st.Spreads tools srcPathRel targets →
          Marked.Sound tools wanted ⟨srcPathRel, (st.cache.disk srcPathRel).file⟩) := by
  unfold syncSiblings Spreads
  rw [foldl_keep_iff (fun s => s.cache.disk srcPathRel = st.cache.disk srcPathRel)
    (Sound tools wanted) (fun s tgt => s.SyncsTo tools srcPathRel tgt ∧
      ¬ Marked.Sound tools wanted ⟨srcPathRel, (st.cache.disk srcPathRel).file⟩)
    (fun s tgt hs => (syncSibling_cases srcPathRel tgt).2.1.trans hs) ?_ rfl]
  · unfold syncSiblings
    refine and_congr_right fun _ => ?_
    constructor
    · rintro hkept ⟨before, tgt, after, hsplit, hsync⟩
      exact not_not.mp fun hnot => hkept before tgt after hsplit ⟨hsync, hnot⟩
    · rintro hsound before tgt after hsplit ⟨hsync, hnot⟩
      exact hnot (hsound ⟨before, tgt, after, hsplit, hsync⟩)
  · intro s tgt hs
    obtain ⟨-, -, ⟨hnot, hmarked⟩ | ⟨hsync, hmarked⟩⟩ :=
      @syncSibling_cases tools s srcPathRel tgt
    · unfold Sound
      rw [hmarked]
      exact (and_iff_left fun hbad => hnot hbad.1).symm
    · unfold Sound
      rw [hmarked, List.forall_mem_append, List.forall_mem_singleton, hs,
        ← Marked.sound_name hsync.name]
      refine and_congr_right fun _ => ?_
      exact ⟨fun hsound hbad => hbad.2 hsound, fun hkept => not_not.mp fun h => hkept ⟨hsync, h⟩⟩

theorem syncSiblings_dir (srcPathRel : Bytes) (targets : List Bytes) :
    (st.syncSiblings tools srcPathRel targets).dir = st.dir :=
  foldl_keep (fun s : PatchState => s.dir = st.dir)
    (fun _ tgt hs => (syncSibling_cases srcPathRel tgt).1.trans hs) rfl targets

/-- An attempt marks nothing, and one that succeeds leaves the announced state behind. -/
theorem tryPatch_true (index : PatchIndex) (pindexPathRel pb : Bytes) (probeOrig : Fingerprint) :
    (st.tryPatch tools index pindexPathRel pb probeOrig).2.marked = st.marked ∧
      ((st.tryPatch tools index pindexPathRel pb probeOrig).1 = true →
        ∃ result, (st.tryPatch tools index pindexPathRel pb probeOrig).2.dir.result = some result ∧
          Fingerprint.scan tools.hash .sha256 result = index.probeStateWanted) := by
  unfold tryPatch
  cases PatchIndex.patchName (bytesToHexString probeOrig.csum) (decDigits probeOrig.size.toNat)
      index.csHist [] with
  | none => exact ⟨rfl, fun h => absurd h Bool.false_ne_true⟩
  | some pname =>
    simp only
    split
    · exact ⟨rfl, fun h => absurd h Bool.false_ne_true⟩
    · split
      · exact ⟨rfl, fun h => absurd h Bool.false_ne_true⟩
      · split
        · exact ⟨rfl, fun h => absurd h Bool.false_ne_true⟩
        · split
          · exact ⟨rfl, fun h => absurd h Bool.false_ne_true⟩
          · split
            · exact ⟨rfl, fun h => absurd h Bool.false_ne_true⟩
            · refine ⟨rfl, fun h => ?_⟩
              rw [Bool.and_eq_true, Option.any_eq_true] at h
              obtain ⟨-, result, hresult, hscan⟩ := h
              exact ⟨result, hresult, of_decide_eq_true hscan⟩

end PatchState

/-- Nothing was marked yet, and the file or the result that was found is what was announced. -/
def PatchSearch.Verified (tools : PatchTools) (wanted : Fingerprint) : PatchSearch → Prop
  | .ended _ st => st.marked = []
  | .current pb st => st.marked = [] ∧ Marked.Sound tools wanted ⟨pb, (st.cache.disk pb).file⟩
  | .patched st => st.marked = [] ∧ ∃ result, st.dir.result = some result ∧
      Fingerprint.scan tools.hash .sha256 result = wanted

theorem search_verified (tools : PatchTools) (index : PatchIndex) (pindexPathRel : Bytes)
    (pbs : List Bytes) {st : PatchState} (h : st.marked = []) :
    (PatchSearch.search tools index pindexPathRel pbs st).Verified tools
      index.probeStateWanted := by
  induction pbs generalizing st with
  | nil => exact h
  | cons pb rest ih =>
    unfold PatchSearch.search
    split
    · exact h
    · split
      · exact ih h
      · next plain hplain =>
        simp only
        split
        · next hcurrent =>
          obtain ⟨data, hdata, hunpack⟩ := Option.bind_eq_some_iff.mp hplain
          exact ⟨h, data, hdata, .inr ⟨plain, hunpack, hcurrent.symm⟩⟩
        · have htry := @PatchState.tryPatch_true tools { st with dir := { base := some plain } }
            index pindexPathRel pb (Fingerprint.scan tools.hash .sha256 plain)
          generalize PatchState.tryPatch tools index pindexPathRel pb _ _ = r at htry ⊢
          obtain ⟨success, st'⟩ := r
          obtain ⟨hmarked, hresult⟩ := htry
          cases success with
          | true => exact ⟨hmarked.trans h, hresult rfl⟩
          | false => exact ih (hmarked.trans h)

namespace InstallState

/-- An uncompressed sibling that is not what was announced is skipped as up to date, and copied to
others of its name. -/
structure SpreadsStale (tools : PatchTools) (wanted : Fingerprint) (pindexPathRel : Bytes)
    (siblings : List Bytes) (loop : InstallState) (path : Bytes) : Prop where
  running : loop.failed = false
  origin : indexOrigin (loop.st.cache.disk pindexPathRel).head ≠ none
  plain : findCompIdx path = none
  uptodate : (loop.st.cache.flags path).uptodate = true
  stale : ¬ Marked.Sound tools wanted ⟨path, (loop.st.cache.disk path).file⟩
  spread : { loop.st with calls := loop.st.calls + 1 }.Spreads tools path siblings

variable {tools : PatchTools} {wanted : Fingerprint}

theorem install_dir (pindexPathRel : Bytes) (siblings : List Bytes) (loop : InstallState)
    (path : Bytes) :
    (loop.install tools wanted pindexPathRel siblings path).st.dir = loop.st.dir := by
  unfold install
  split
  · rfl
  · split
    · rfl
    · split
      · rfl
      · simp only
        split
        · exact PatchState.syncSiblings_dir path siblings
        · rfl

/-- What one step of the installation marks is what was announced, or it was copied from a stale
sibling. -/
theorem install_sound_iff (pindexPathRel : Bytes) (siblings : List Bytes) {loop : InstallState}
    {result : Bytes} (hresult : loop.st.dir.result = some result)
    (hscan : Fingerprint.scan tools.hash .sha256 result = wanted) (path : Bytes) :
    (loop.install tools wanted pindexPathRel siblings path).st.Sound tools wanted ↔
      loop.st.Sound tools wanted ∧
        ¬ loop.SpreadsStale tools wanted pindexPathRel siblings path := by
  unfold install
  by_cases hfailed : loop.failed = true
  · rw [if_pos hfailed]
    refine (and_iff_left fun hstale => ?_).symm
    exact Bool.false_ne_true (hstale.running.symm.trans hfailed)
  · rw [if_neg hfailed]
    cases horigin : indexOrigin (loop.st.cache.disk pindexPathRel).head with
    | none => exact (and_iff_left fun hstale => hstale.origin horigin).symm
    | some origin =>
      simp only
      by_cases hpacked : (findCompIdx path).isSome = true
      · rw [if_pos hpacked]
        refine (and_iff_left fun hstale => ?_).symm
        rw [hstale.plain] at hpacked
        exact Bool.false_ne_true hpacked
      · rw [if_neg hpacked]
        cases hold : (loop.st.cache.flags path).uptodate with
        | true =>
          -- the result is not installed, and the old file is taken for it
          have hinject : loop.st.inject tools loop.st.dir.result path wanted.size origin =
              (true, { loop.st with calls := loop.st.calls + 1 }) := by
            simp only [PatchState.inject, CacheState.injectFile, hold, if_true, Bool.not_true,
              Bool.and_false, Bool.false_eq_true, if_false]
          rw [hinject, if_pos rfl, PatchState.syncSiblings_sound_iff]
          refine and_congr_right fun _ => ⟨fun hkept hstale => ?_, fun hnot hspread => ?_⟩
          · exact hstale.stale (hkept hstale.spread)
          · refine not_not.mp fun hbad => hnot ⟨by simpa using hfailed, ?_, ?_, hold, hbad, hspread⟩
            · rw [horigin]
              exact Option.some_ne_none origin
            · exact Option.not_isSome_iff_eq_none.mp hpacked
        | false =>
          have hfresh : ¬ loop.SpreadsStale tools wanted pindexPathRel siblings path := fun hstale =>
            Bool.false_ne_true (hold.symm.trans hstale.uptodate)
          rw [and_iff_left hfresh]
          cases hdone : (loop.st.inject tools loop.st.dir.result path wanted.size origin).1 with
          | false =>
            simp only [Bool.false_eq_true, if_false, PatchState.Sound,
              PatchState.inject_unmarked (.inr hdone)]
          | true =>
            obtain ⟨-, hfile, hmarked⟩ := PatchState.inject_marked hold hdone
            have hsound : Marked.Sound tools wanted ⟨path, loop.st.dir.result⟩ :=
              ⟨result, hresult, .inl hscan⟩
            rw [if_pos rfl, PatchState.syncSiblings_sound_iff, hfile, and_iff_left fun _ => hsound]
            unfold PatchState.Sound
            rw [hmarked, List.forall_mem_append, List.forall_mem_singleton, and_iff_left hsound]

theorem install_loop_sound_iff (pindexPathRel : Bytes) (siblings : List Bytes) {loop : InstallState}
    {result : Bytes} (hresult : loop.st.dir.result = some result)
    (hscan : Fingerprint.scan tools.hash .sha256 result = wanted) (paths : List Bytes) :
    (paths.foldl (install tools wanted pindexPathRel siblings) loop).st.Sound tools wanted ↔
      loop.st.Sound tools wanted ∧ ∀ before path after, paths = before ++ path :: after →
        ¬ (before.foldl (install tools wanted pindexPathRel siblings) loop).SpreadsStale tools
          wanted pindexPathRel siblings path :=
  foldl_keep_iff (fun loop : InstallState => loop.st.dir.result = some result)
    (fun loop => loop.st.Sound tools wanted)
    (fun loop path => loop.SpreadsStale tools wanted pindexPathRel siblings path)
    (fun loop path h => by rw [install_dir]; exact h)
    (fun _ path h => install_sound_iff pindexPathRel siblings h hscan path) hresult paths

end InstallState

/-- The end of a search flags sound files only, unless a stale sibling is spread by the installation. -/
theorem finishPatch_sound_iff {tools : PatchTools} {wanted : Fingerprint} (pindexPathRel : Bytes)
    (siblings : List Bytes) {found : PatchSearch} (h : found.Verified tools wanted) :
    (finishPatch tools wanted pindexPathRel siblings found).2.Sound tools wanted ↔
      ∀ st, found = .patched st → ∀ before path after, siblings = before ++ path :: after →
        ¬ (before.foldl (InstallState.install tools wanted pindexPathRel siblings)
          { st }).SpreadsStale tools wanted pindexPathRel siblings path := by
  cases found with
  | ended result st =>
    have hnone : st.marked = [] := h
    refine iff_of_true (fun m hm => ?_) (fun st' heq => nomatch heq)
    change m ∈ st.marked at hm
    rw [hnone] at hm
    exact absurd hm List.not_mem_nil
  | current pb st =>
    obtain ⟨hnone, hsound⟩ := h
    refine iff_of_true ?_ (fun st' heq => nomatch heq)
    unfold finishPatch
    simp only
    rw [PatchState.syncSiblings_sound_iff]
    simp only [CacheState.setFlags_disk, PatchState.Sound, hnone, List.nil_append,
      List.forall_mem_singleton]
    exact ⟨hsound, fun _ => hsound⟩
  | patched st =>
    obtain ⟨hnone, result, hresult, hscan⟩ := h
    have hstart : st.Sound tools wanted := by
      unfold PatchState.Sound
      rw [hnone]
      exact fun m hm => absurd hm List.not_mem_nil
    have hloop := @InstallState.install_loop_sound_iff tools wanted pindexPathRel siblings { st } result
      hresult hscan siblings
    refine hloop.trans ?_
    rw [and_iff_right hstart]
    constructor
    · rintro hkept st' heq
      obtain rfl := PatchSearch.patched.inj heq
      exact hkept
    · exact fun hall => hall st rfl

/-- Some sibling is on disk, in use and not up to date. -/
def NeedsUpdate (siblings : List Bytes) (cache : CacheState) : Prop :=
  ∃ pb ∈ siblings, (cache.flags pb).vfile_ondisk = true ∧ (cache.flags pb).parseignore = false ∧
    (cache.flags pb).uptodate = false

/-- Whatever the patching flags as up to date or installs has the announced content if and only if no
stale sibling, flagged as up to date before, is copied to others after a successful patch. -/
theorem patchOne_sound_iff (tools : PatchTools) (pindexPathRel : Bytes) (siblings : List Bytes)
    (cache : CacheState) :
    (∀ m ∈ (patchOne tools pindexPathRel siblings cache).2.marked, ∃ index,
        (cache.disk pindexPathRel).file.bind PatchIndex.ofText = some index ∧
          m.Sound tools index.probeStateWanted) ↔
      (NeedsUpdate siblings cache → ∀ index,
        (cache.disk pindexPathRel).file.bind PatchIndex.ofText = some index → ∀ st,
        PatchSearch.search tools index pindexPathRel (PatchSearch.candidates siblings) { cache } =
          .patched st →
        ∀ before path after, siblings = before ++ path :: after →
          ¬ (before.foldl (InstallState.install tools index.probeStateWanted pindexPathRel siblings)
            { st }).SpreadsStale tools index.probeStateWanted pindexPathRel siblings path) := by
  unfold patchOne
  have hneed : NeedsUpdate siblings cache ↔ siblings.any (fun pb =>
      (cache.flags pb).vfile_ondisk && !(cache.flags pb).parseignore &&
        !(cache.flags pb).uptodate) = true := by
    simp [NeedsUpdate, and_assoc]
  rw [hneed]
  simp only
  generalize siblings.any _ = needUpdate
  cases needUpdate with
  | false =>
    refine iff_of_true (fun m hm => absurd hm List.not_mem_nil) (fun h => ?_)
    exact absurd h Bool.false_ne_true
  | true =>
    rw [Bool.not_true, if_neg Bool.false_ne_true]
    cases (cache.disk pindexPathRel).file.bind PatchIndex.ofText with
    | none =>
      refine iff_of_true (fun m hm => absurd hm List.not_mem_nil) (fun _ index heq => ?_)
      cases heq
    | some index =>
      have hsearch := @search_verified tools index pindexPathRel (PatchSearch.candidates siblings)
        { cache } rfl
      have hfinish := finishPatch_sound_iff pindexPathRel siblings hsearch
      simp only [Option.some.injEq, exists_eq_left', forall_eq', forall_const]
      exact hfinish

/-! A foreign file that counts as up to date is copied over the one that was patched. -/

def samplePatchTools : PatchTools where
  hash csType data := (data ++ List.replicate 64 0).take csType.len
  unpack _ data := some data
  lib := { parseDate := fun _ => none, formatNorm := id }
  oldDate := {}
  bByPath := true
  download _ cache := (true, cache)
  command disk dir := (true, disk, { dir with result := some (lit "newer") })
  ios _ := { moved := true }

def sampleStateLine (data : Bytes) : Bytes :=
  bytesToHexString (samplePatchTools.hash .sha256 data) ++ 32 :: decDigits data.length

def sampleIndex : Bytes :=
  lit "SHA256-Current: " ++ sampleStateLine (lit "newer") ++
    lit "\nSHA256-History:\n " ++ sampleStateLine (lit "older") ++ lit " T-2024" ++
    lit "\nSHA256-Patches:\n " ++ sampleStateLine (lit "1d\n") ++ lit " T-2024\n"

/-- The index of the first mirror was replaced already, the one of the second mirror is patched. -/
def sampleSiblings : CacheState where
  disk path :=
    if path = lit "debrep/dists/sid/Packages.diff/Index" then { file := some sampleIndex }
    else if path = lit "debrep/dists/sid/Packages.diff/T-2024.gz" then { file := some (lit "1d\n") }
    else if path = lit "debrep/dists/sid/Packages" then { file := some (lit "other") }
    else if path = lit "ftp.de/dists/sid/Packages" then { file := some (lit "older") }
    else {}
  flags path :=
    if path = lit "debrep/dists/sid/Packages" then { vfile_ondisk := true, uptodate := true }
    else if path = lit "ftp.de/dists/sid/Packages" then { vfile_ondisk := true }
    else {}

/-- The result is verified, but the other file is what the second mirror gets. -/
theorem stale_spread : ¬ ∀ m ∈ (patchOne samplePatchTools
    (lit "debrep/dists/sid/Packages.diff/Index")
    [lit "debrep/dists/sid/Packages", lit "ftp.de/dists/sid/Packages"] sampleSiblings).2.marked,
    ∃ index, (sampleSiblings.disk (lit "debrep/dists/sid/Packages.diff/Index")).file.bind
        PatchIndex.ofText = some index ∧ m.Sound samplePatchTools index.probeStateWanted := by
  intro h
  have hmarked : (⟨lit "ftp.de/dists/sid/Packages", some (lit "other")⟩ : Marked) ∈
      (patchOne samplePatchTools (lit "debrep/dists/sid/Packages.diff/Index")
        [lit "debrep/dists/sid/Packages", lit "ftp.de/dists/sid/Packages"]
        sampleSiblings).2.marked := by
    unfold sampleSiblings sampleIndex lit
    repeat rw [String.toList_ofList]
    decide +kernel
  have hwanted : ((sampleSiblings.disk (lit "debrep/dists/sid/Packages.diff/Index")).file.bind
      PatchIndex.ofText).map PatchIndex.probeStateWanted =
        some (Fingerprint.scan samplePatchTools.hash .sha256 (lit "newer")) := by
    decide +kernel
  obtain ⟨index, hindex, data, hdata, hsound⟩ := h _ hmarked
  obtain rfl := Option.some.inj hdata
  rw [hindex] at hwanted
  have hnewer : index.probeStateWanted = _ := Option.some.inj hwanted
  rw [hnewer] at hsound
  obtain hplain | ⟨plain, hplain, hscan⟩ := hsound
  · exact absurd hplain (by decide)
  · obtain rfl := Option.some.inj hplain
    exact absurd hscan (by decide)

end Acng
