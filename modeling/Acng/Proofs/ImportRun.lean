import Acng.Proofs.PkgImport

namespace Acng
open Lib LinkedFiles

variable {π : Type} [DecidableEq π] {nm : PathNaming π}

theorem fileCopy_beside {result : CopyResult} {disk : FileTree π} {sFrom sTo : Bytes}
    (hto : nm.stat disk sTo = none) : Beside [] disk (fileCopy nm result disk sFrom sTo).2 := by
  have hwrite : ∀ content, Beside [] disk (nm.write disk sTo content) := fun content => beside_write content hto
  rw [fileCopy]
  split
  · exact Beside.refl disk
  · split
    · exact Beside.refl disk
    · split
      · split
        · exact hwrite _
        · exact Beside.refl disk
      · exact hwrite _
      · exact Beside.refl disk

theorem linkThenCopy_beside {io : LinkIo} {disk : FileTree π} {sFrom sTo : Bytes}
    (hto : nm.stat disk sTo = none) : Beside [] disk (linkThenCopy nm io disk sFrom sTo).2 := by
  have hcopy := @fileCopy_beside π _ nm io.copy disk sFrom sTo hto
  rw [linkThenCopy]
  split
  · rename_i hlink
    rw [Bool.and_eq_true, Option.isNone_iff_eq_none] at hlink
    exact beside_link hlink.2
  · split
    · rename_i hresult
      rw [hresult] at hcopy
      exact hcopy
    · rename_i hresult
      rw [hresult] at hcopy
      split
      · exact hcopy
      · exact hcopy

theorem stat_unlink_self {disk : FileTree π} {path : Bytes} :
    nm.stat (disk.unlink (nm.place path)) path = none := by
  have hgone : (disk.unlink (nm.place path)).node (nm.place path) = none := Function.update_self _ _ _
  rw [PathNaming.stat, LinkedFiles.stat, follow_end (by rw [hgone]; simp), Option.bind_some, hgone]

/-- Only the target is taken away. -/
def takenAway (nm : PathNaming π) (unlink : Bool) (path : Bytes) : List π := if unlink then [nm.place path] else []

theorem beside_takenAway (nm : PathNaming π) (disk : FileTree π) (unlink : Bool) (path : Bytes) :
    Beside (takenAway nm unlink path) disk (if unlink then disk.unlink (nm.place path) else disk) := by
  cases unlink with
  | false => exact Beside.refl disk
  | true => exact beside_unlink disk (nm.place path)

theorem linkOrCopy_beside {io : LinkIo} {disk : FileTree π} {sFrom sTo : Bytes} :
    Beside (takenAway nm io.unlink sTo) disk (linkOrCopy nm io disk sFrom sTo).2 := by
  unfold linkOrCopy
  split
  · split
    · exact Beside.refl disk
    · have haway := beside_takenAway nm disk io.unlink sTo
      dsimp only
      generalize (if io.unlink = true then disk.unlink (nm.place sTo) else disk) = disk' at haway ⊢
      split
      · rename_i hfree
        rw [Bool.and_eq_true, Option.isNone_iff_eq_none] at hfree
        exact haway.trans (beside_symlink hfree.2)
      · exact haway
  · split
    · exact Beside.refl disk
    · split
      · rename_i hto
        exact (linkThenCopy_beside hto).mono (List.nil_subset _)
      · split
        · exact Beside.refl disk
        · split
          · exact Beside.refl disk
          · rename_i hunlink
            rw [Bool.not_eq_true', Bool.not_eq_false] at hunlink
            have haway := beside_takenAway nm disk io.unlink sTo
            rw [hunlink, if_pos rfl] at haway
            rw [hunlink]
            exact haway.trans ((linkThenCopy_beside stat_unlink_self).mono (List.nil_subset _))

/-- What an import must not take away: the names of its files, and what is on the way to a matched location. -/
def Needed (nm : PathNaming π) (st : ImportState π) (p : π) : Prop :=
  (∃ fpr info, st.importMap fpr = some info ∧ nm.place info.sPath = p) ∨ ∃ m ∈ st.matched, p ∈ nm.trail st.disk m.dest

/-- If another file is brought to a location, nothing that is needed is there, and the link is made as it should be. -/
def CarefulLink (nm : PathNaming π) (cfg : RegistryCfg) (io : ImportIo) (st : ImportState π) (entry : RemoteFileInfo)
    (hit : ImpFileInfo) : Prop :=
  sameFile nm st.disk (destAbs cfg entry) hit.sPath = false →
    (io.unlink = true ∨ io.link.unlink = true → ¬ Needed nm st (nm.place (destAbs cfg entry))) ∧
    LinksWell nm io.link (if io.unlink then st.disk.unlink (nm.place (destAbs cfg entry)) else st.disk) hit.sPath
      (destAbs cfg entry)

/-- The head file is not in the way of anything that is needed, and not another name of it. -/
def CarefulHeader (nm : PathNaming π) (cfg : RegistryCfg) (io : ImportIo) (st : ImportState π)
    (entry : RemoteFileInfo) :
    Prop :=
  if io.unlinkHead = true then
    ¬ Needed nm st (nm.place (destHeadAbs cfg entry)) ∧
      nm.place (destHeadAbs cfg entry) ∉ nm.trail st.disk (destAbs cfg entry)
  else
    nm.stat st.disk (destHeadAbs cfg entry) ≠ none →
      nm.stat st.disk (destHeadAbs cfg entry) ≠ nm.stat st.disk (destAbs cfg entry) ∧
        ∀ m ∈ st.matched, nm.stat st.disk (destHeadAbs cfg entry) ≠ nm.stat st.disk m.dest

/-- No matched location leads over the name that is deleted. -/
def CarefulDelete (nm : PathNaming π) (st : ImportState π) (fpr : Fingerprint) (ok : Bool) : Prop :=
  ∀ info, st.importMap fpr = some info → info.bFileUsed = true → ok = true →
    ∀ m ∈ st.matched, nm.place info.sPath ∉ nm.trail st.disk m.dest

def CarefulEntries (nm : PathNaming π) (cfg : RegistryCfg) : ImportState π → List (RemoteFileInfo × ImportIo) → Prop
  | _, [] => True
  | st, (entry, io) :: rest =>
    (∀ hit, st.importMap entry.fpr = some hit → CarefulLink nm cfg io st entry hit ∧
      ((beforeHeader nm cfg io st entry hit).1 = true →
        CarefulHeader nm cfg io (beforeHeader nm cfg io st entry hit).2 entry)) ∧
    ∀ st', handlePkgEntry nm cfg io st entry = some st' → CarefulEntries nm cfg st' rest

def CarefulDeletes (nm : PathNaming π) : ImportState π → List (Fingerprint × Bool) → Prop
  | _, [] => True
  | st, (fpr, ok) :: rest => CarefulDelete nm st fpr ok ∧ CarefulDeletes nm (deleteUsed nm st fpr ok) rest

/-- Every step of the import is careful. -/
def CarefulImport (nm : PathNaming π) (cfg : RegistryCfg) (start : ImportState π)
    (entries : List (RemoteFileInfo × ImportIo)) (unlinks : List (Fingerprint × Bool)) : Prop :=
  CarefulEntries nm cfg start entries ∧
    ∀ st, handleEntries nm cfg start entries = some st → CarefulDeletes nm st unlinks

/-- The map as it is made. -/
structure Unused (start : ImportState π) : Prop where
  unused : ∀ fpr info, start.importMap fpr = some info → info.bFileUsed = false
  matched : start.matched = []
  deleted : start.deleted = []

/-- Each import file is in place, or it was deleted and what it had in it is where it was matched to. -/
structure NothingLost (nm : PathNaming π) (start st : ImportState π) : Prop where
  inPlace : ∀ fpr info, start.importMap fpr = some info → start.disk.node (nm.place info.sPath) ≠ none →
    nm.place info.sPath ∉ st.deleted → st.disk.node (nm.place info.sPath) = start.disk.node (nm.place info.sPath)
  available : ∀ p ∈ st.deleted, (∃ m ∈ st.matched, nm.place m.source = p) ∧
    ∀ m ∈ st.matched, nm.place m.source = p →
      ∃ content, m.content = some content ∧ nm.read st.disk m.dest = some content

/-- What holds all the time. -/
structure Kept (nm : PathNaming π) (start st : ImportState π) : Prop where
  paths : ∀ fpr, (st.importMap fpr).map (·.sPath) = (start.importMap fpr).map (·.sPath)
  inPlace : ∀ fpr info, start.importMap fpr = some info → start.disk.node (nm.place info.sPath) ≠ none →
    nm.place info.sPath ∉ st.deleted → st.disk.node (nm.place info.sPath) = start.disk.node (nm.place info.sPath)
  content : ∀ m ∈ st.matched, ∃ content, m.content = some content ∧ nm.read st.disk m.dest = some content
  used : ∀ fpr info, st.importMap fpr = some info → info.bFileUsed = true → ∃ m ∈ st.matched, m.source = info.sPath
  deleted : ∀ p ∈ st.deleted, ∃ m ∈ st.matched, nm.place m.source = p

variable {start st : ImportState π}

omit [DecidableEq π] in
theorem Kept.nothingLost (h : Kept nm start st) : NothingLost nm start st :=
  ⟨h.inPlace, fun p hp => ⟨h.deleted p hp, fun m hm _ => h.content m hm⟩⟩

omit [DecidableEq π] in
theorem Kept.needed (h : Kept nm start st) {fpr : Fingerprint} {info : ImpFileInfo}
    (hinfo : start.importMap fpr = some info) : Needed nm st (nm.place info.sPath) := by
  have hpath := h.paths fpr
  rw [hinfo, Option.map_some, Option.map_eq_some_iff] at hpath
  obtain ⟨info', hinfo', heq⟩ := hpath
  exact .inl ⟨fpr, info', hinfo', by rw [heq]⟩

omit [DecidableEq π] in
theorem Kept.beside (h : Kept nm start st) {removed : List π} {disk : FileTree π}
    (hbeside : Beside removed st.disk disk) (hneeded : ∀ p ∈ removed, ¬ Needed nm st p) :
    Kept nm start { st with disk } := by
  refine ⟨h.paths, fun fpr info hinfo hnode hkept => ?_, fun m hm => ?_, h.used, h.deleted⟩
  · have hsame := h.inPlace fpr info hinfo hnode hkept
    have hfree : nm.place info.sPath ∉ removed := fun hmem => hneeded _ hmem (h.needed hinfo)
    exact (hbeside.node _ hfree (hsame ▸ hnode)).trans hsame
  · obtain ⟨content, hcontent, hread⟩ := h.content m hm
    exact ⟨content, hcontent, hbeside.read hread (fun p hp hmem => hneeded p hp (.inr ⟨m, hm, hmem⟩))⟩

omit [DecidableEq π] in
theorem use_importMap (fpr : Fingerprint) (hit : ImpFileInfo) (dest : Bytes) (content : Option Bytes) :
    (st.use fpr hit dest content).importMap =
      Function.update st.importMap fpr (some { hit with bFileUsed := true }) := rfl

omit [DecidableEq π] in
theorem Kept.use (h : Kept nm start st) {fpr : Fingerprint} {hit : ImpFileInfo} {dest content : Bytes}
    (hhit : (st.importMap fpr).map (·.sPath) = some hit.sPath) (hread : nm.read st.disk dest = some content) :
    Kept nm start (st.use fpr hit dest (some content)) := by
  refine ⟨fun fpr' => ?_, h.inPlace, fun m hm => ?_, fun fpr' info hinfo hused => ?_, fun p hp => ?_⟩
  · rw [← h.paths fpr', use_importMap, Function.update_apply]
    split
    · rename_i heq
      rw [heq, hhit]
      rfl
    · rfl
  · obtain rfl | hm := List.mem_cons.mp hm
    · exact ⟨content, rfl, hread⟩
    · exact h.content m hm
  · rw [use_importMap, Function.update_apply] at hinfo
    split at hinfo
    · obtain rfl := Option.some.inj hinfo
      exact ⟨_, List.mem_cons_self, rfl⟩
    · obtain ⟨m, hm, hsource⟩ := h.used fpr' info hinfo hused
      exact ⟨m, List.mem_cons_of_mem _ hm, hsource⟩
  · obtain ⟨m, hm, hsource⟩ := h.deleted p hp
    exact ⟨m, List.mem_cons_of_mem _ hm, hsource⟩

theorem Kept.write (h : Kept nm start st) {path : Bytes} (content : Bytes)
    (hother : nm.stat st.disk path ≠ none → ∀ m ∈ st.matched, nm.stat st.disk path ≠ nm.stat st.disk m.dest) :
    Kept nm start { st with disk := nm.write st.disk path content } := by
  refine ⟨h.paths, fun fpr info hinfo hnode hkept => ?_, fun m hm => ?_, h.used, h.deleted⟩
  · have hsame := h.inPlace fpr info hinfo hnode hkept
    exact (node_write content (hsame ▸ hnode)).trans hsame
  · obtain ⟨c, hcontent, hread⟩ := h.content m hm
    refine ⟨c, hcontent, read_write content hread ?_⟩
    change nm.stat st.disk path ≠ nm.stat st.disk m.dest
    cases hstat : nm.stat st.disk path with
    | some i =>
      rw [← hstat]
      exact hother (by rw [hstat]; simp) m hm
    | none =>
      obtain ⟨i, hi, -⟩ := PathNaming.read_eq_some.mp hread
      rw [hi]
      simp

omit [DecidableEq π] in
theorem sameFile_iff {disk : FileTree π} {sDestAbs sFromAbs : Bytes} :
    sameFile nm disk sDestAbs sFromAbs = true ↔
      nm.stat disk sDestAbs ≠ none ∧ nm.stat disk sDestAbs = nm.stat disk sFromAbs := by
  rw [sameFile, Bool.and_eq_true, Option.isSome_iff_ne_none, beq_iff_eq]

omit [DecidableEq π] in
theorem takenAway_or (unlink unlink' : Bool) (path : Bytes) :
    takenAway nm unlink path ⊆ takenAway nm (unlink || unlink') path ∧
      takenAway nm unlink' path ⊆ takenAway nm (unlink || unlink') path := by
  cases unlink <;> cases unlink' <;> simp [takenAway]

/-- Up to the header: the source shows at its location if the header is written. -/
theorem Kept.beforeHeader (h : Kept nm start st) {cfg : RegistryCfg} {io : ImportIo} {entry : RemoteFileInfo}
    {hit : ImpFileInfo} (hhit : st.importMap entry.fpr = some hit) (hcareful : CarefulLink nm cfg io st entry hit) :
    Kept nm start (beforeHeader nm cfg io st entry hit).2 ∧
      ((Acng.beforeHeader nm cfg io st entry hit).1 = true → ∃ content, nm.read st.disk hit.sPath = some content ∧
        nm.read (Acng.beforeHeader nm cfg io st entry hit).2.disk (destAbs cfg entry) = some content) := by
  have hpath : (st.importMap entry.fpr).map (·.sPath) = some hit.sPath := by rw [hhit]; rfl
  rw [Acng.beforeHeader]
  cases hsame : sameFile nm st.disk (destAbs cfg entry) hit.sPath with
  | true =>
    obtain ⟨hsome, heq⟩ := sameFile_iff.mp hsame
    obtain ⟨i, hi⟩ := Option.ne_none_iff_exists'.mp hsome
    have hdest : nm.read st.disk (destAbs cfg entry) = some (st.disk.data i) := PathNaming.read_eq_some.mpr ⟨i, hi, rfl⟩
    have hsource : nm.read st.disk hit.sPath = some (st.disk.data i) :=
      PathNaming.read_eq_some.mpr ⟨i, heq ▸ hi, rfl⟩
    rw [if_pos rfl, hsource]
    exact ⟨h.use hpath hdest, fun _ => ⟨st.disk.data i, rfl, hdest⟩⟩
  | false =>
    obtain ⟨hfree, hwell⟩ := hcareful hsame
    have haway := beside_takenAway nm st.disk io.unlink (destAbs cfg entry)
    have hback : ∀ content, nm.read (if io.unlink then st.disk.unlink (nm.place (destAbs cfg entry)) else st.disk)
        hit.sPath = some content → nm.read st.disk hit.sPath = some content := by
      intro content hread
      cases hunlink : io.unlink with
      | false =>
        rw [hunlink] at hread
        exact hread
      | true =>
        rw [hunlink, if_pos rfl] at hread
        have hgone : (st.disk.unlink (nm.place (destAbs cfg entry))).node (nm.place (destAbs cfg entry)) = none :=
          Function.update_self _ _ _
        refine (beside_unlink_back st.disk _).read hread (fun p hp => ?_)
        rw [List.mem_singleton.mp hp]
        exact not_mem_trail hread hgone
    simp only [if_false, Bool.false_eq_true]
    generalize (if io.unlink then st.disk.unlink (nm.place (destAbs cfg entry)) else st.disk) = disk
      at haway hback hwell ⊢
    have hlink := @linkOrCopy_beside π _ nm io.link disk hit.sPath (destAbs cfg entry)
    obtain ⟨hsub, hsub'⟩ := @takenAway_or π nm io.unlink io.link.unlink (destAbs cfg entry)
    refine ⟨h.beside ((haway.mono hsub).trans (hlink.mono hsub')) (fun p hp => ?_), fun hresult => ?_⟩
    · cases hunlink : (io.unlink || io.link.unlink) with
      | false =>
        rw [hunlink] at hp
        cases hp
      | true =>
        rw [hunlink] at hp
        rw [List.mem_singleton.mp hp]
        exact hfree (Bool.or_eq_true _ _ ▸ hunlink)
    · obtain ⟨content, hread, hdest⟩ := (linkOrCopy_right_iff.mpr hwell).1 hresult
      exact ⟨content, hback content hread, hdest⟩

/-- From there on. -/
theorem Kept.genHeader (h : Kept nm start st) {cfg : RegistryCfg} {io : ImportIo} {entry : RemoteFileInfo}
    {hit : ImpFileInfo} {content : Bytes} (hhit : (st.importMap entry.fpr).map (·.sPath) = some hit.sPath)
    (hread : nm.read st.disk (destAbs cfg entry) = some content) (hcareful : CarefulHeader nm cfg io st entry)
    {st' : ImportState π} (hst' : genHeader nm cfg io st entry hit (some content) = some st') :
    Kept nm start st' := by
  -- What is left when the head file is removed, and what is kept when something is written there.
  obtain ⟨disk, hdisk, hkept, hdest, hother⟩ : ∃ disk,
      disk = (if io.unlinkHead then st.disk.unlink (nm.place (destHeadAbs cfg entry)) else st.disk) ∧
      Kept nm start { st with disk } ∧ nm.read disk (destAbs cfg entry) = some content ∧
      (nm.stat disk (destHeadAbs cfg entry) ≠ none →
        nm.stat disk (destHeadAbs cfg entry) ≠ nm.stat disk (destAbs cfg entry) ∧
        ∀ m ∈ st.matched, nm.stat disk (destHeadAbs cfg entry) ≠ nm.stat disk m.dest) := by
    refine ⟨_, rfl, ?_⟩
    rw [CarefulHeader] at hcareful
    cases hunlink : io.unlinkHead with
    | false =>
      rw [hunlink, if_neg (by simp)] at hcareful
      exact ⟨h, hread, hcareful⟩
    | true =>
      rw [hunlink, if_pos rfl] at hcareful
      obtain ⟨hfree, hway⟩ := hcareful
      have haway := beside_unlink st.disk (nm.place (destHeadAbs cfg entry))
      refine ⟨h.beside haway (fun p hp => ?_), haway.read hread (fun p hp => ?_), ?_⟩
      · rw [List.mem_singleton.mp hp]
        exact hfree
      · rw [List.mem_singleton.mp hp]
        exact hway
      · intro hne
        exact absurd stat_unlink_self hne
  rw [Acng.genHeader, ← hdisk] at hst'
  simp only at hst'
  split at hst'
  · cases hst'
  · rename_i stored head hstored
    have hend : ∀ disk', Kept nm start { st with disk := disk' } →
        nm.read disk' (destAbs cfg entry) = some content →
        (if !stored then some { st with disk := disk' }
          else some ({ st with disk := disk' : ImportState π }.use entry.fpr hit (destAbs cfg entry) (some content))) =
          some st' → Kept nm start st' := by
      intro disk' hkept' hdest' hst'
      split at hst'
      · obtain rfl := Option.some.inj hst'
        exact hkept'
      · obtain rfl := Option.some.inj hst'
        exact hkept'.use hhit hdest'
    -- The head file is left alone or written.
    cases head with
    | none => exact hend disk hkept hdest hst'
    | some head =>
      refine hend _ (hkept.write head (fun hne => (hother hne).2)) (read_write head hdest ?_) hst'
      change nm.stat disk (destHeadAbs cfg entry) ≠ nm.stat disk (destAbs cfg entry)
      cases hstat : nm.stat disk (destHeadAbs cfg entry) with
      | some i =>
        rw [← hstat]
        exact (hother (by rw [hstat]; simp)).1
      | none =>
        obtain ⟨i, hi, -⟩ := PathNaming.read_eq_some.mp hdest
        rw [hi]
        simp

theorem Kept.handlePkgEntry (h : Kept nm start st) {cfg : RegistryCfg} {io : ImportIo} {entry : RemoteFileInfo}
    (hcareful : ∀ hit, st.importMap entry.fpr = some hit → CarefulLink nm cfg io st entry hit ∧
      ((Acng.beforeHeader nm cfg io st entry hit).1 = true →
        CarefulHeader nm cfg io (Acng.beforeHeader nm cfg io st entry hit).2 entry))
    {st' : ImportState π} (hst' : handlePkgEntry nm cfg io st entry = some st') : Kept nm start st' := by
  rw [Acng.handlePkgEntry] at hst'
  cases hhit : st.importMap entry.fpr with
  | none =>
    rw [hhit] at hst'
    obtain rfl := Option.some.inj hst'
    exact h
  | some hit =>
    rw [hhit] at hst'
    obtain ⟨hlink, hheader⟩ := hcareful hit hhit
    obtain ⟨hkept, hread⟩ := h.beforeHeader hhit hlink
    have hpath : ((Acng.beforeHeader nm cfg io st entry hit).2.importMap entry.fpr).map (·.sPath) = some hit.sPath := by
      rw [hkept.paths, ← h.paths, hhit]
      rfl
    cases hresult : Acng.beforeHeader nm cfg io st entry hit with
    | mk go st'' =>
      rw [hresult] at hkept hread hheader hpath
      simp only [hresult] at hst'
      cases go with
      | false =>
        obtain rfl := Option.some.inj hst'
        exact hkept
      | true =>
        obtain ⟨content, hsource, hdest⟩ := hread rfl
        simp only [hsource] at hst'
        exact hkept.genHeader hpath hdest (hheader rfl) hst'

theorem Kept.deleteUsed (h : Kept nm start st) {fpr : Fingerprint} {ok : Bool}
    (hcareful : CarefulDelete nm st fpr ok) : Kept nm start (deleteUsed nm st fpr ok) := by
  rw [Acng.deleteUsed]
  cases hinfo : st.importMap fpr with
  | none => exact h
  | some info =>
    dsimp only
    split
    · rename_i hcond
      rw [Bool.and_eq_true, Bool.and_eq_true] at hcond
      obtain ⟨⟨hused, hok⟩, -⟩ := hcond
      have hway := hcareful info hinfo hused hok
      have haway := beside_unlink st.disk (nm.place info.sPath)
      refine ⟨h.paths, fun fpr' info' hinfo' hnode hkept => ?_, fun m hm => ?_, h.used, fun p hp => ?_⟩
      · rw [List.mem_cons, not_or] at hkept
        have hsame := h.inPlace fpr' info' hinfo' hnode hkept.2
        exact (haway.node _ (fun hmem => hkept.1 (List.mem_singleton.mp hmem)) (hsame ▸ hnode)).trans hsame
      · obtain ⟨content, hcontent, hread⟩ := h.content m hm
        refine ⟨content, hcontent, haway.read hread (fun p hp => ?_)⟩
        rw [List.mem_singleton.mp hp]
        exact hway m hm
      · obtain rfl | hp := List.mem_cons.mp hp
        · obtain ⟨m, hm, hsource⟩ := h.used fpr info hinfo hused
          exact ⟨m, hm, by rw [hsource]⟩
        · exact h.deleted p hp
    · exact h

theorem Kept.handleEntries {cfg : RegistryCfg} {entries : List (RemoteFileInfo × ImportIo)} {st st' : ImportState π}
    (h : Kept nm start st) (hcareful : CarefulEntries nm cfg st entries)
    (hst' : handleEntries nm cfg st entries = some st') : Kept nm start st' := by
  induction entries generalizing st with
  | nil =>
    obtain rfl := Option.some.inj hst'
    exact h
  | cons entry rest ih =>
    rw [Acng.handleEntries, List.foldlM_cons] at hst'
    obtain ⟨next, hnext, hrest⟩ := Option.bind_eq_some_iff.mp hst'
    exact ih (h.handlePkgEntry hcareful.1 hnext) (hcareful.2 next hnext) hrest

theorem Kept.deleteAll {unlinks : List (Fingerprint × Bool)} {st : ImportState π} (h : Kept nm start st)
    (hcareful : CarefulDeletes nm st unlinks) : Kept nm start (deleteAll nm st unlinks) := by
  induction unlinks generalizing st with
  | nil => exact h
  | cons pass rest ih => exact ih (h.deleteUsed hcareful.1) hcareful.2

omit [DecidableEq π] in
theorem Unused.kept (h : Unused start) : Kept nm start start := by
  refine ⟨fun _ => rfl, fun _ _ _ _ _ => rfl, fun m hm => ?_, fun fpr info hinfo hused => ?_, fun p hp => ?_⟩
  · rw [h.matched] at hm
    cases hm
  · rw [h.unused fpr info hinfo] at hused
    cases hused
  · rw [h.deleted] at hp
    cases hp

/-- When `LinkOrCopy` does what is said of it, and an import that is careful at each step loses nothing. -/
theorem import_keeps (nm : PathNaming π) (cfg : RegistryCfg) :
    (∀ io disk sFrom sTo, LinkOrCopyRight nm io disk sFrom sTo ↔ LinksWell nm io disk sFrom sTo) ∧
    ∀ start entries unlinks st, Unused start → CarefulImport nm cfg start entries unlinks →
      importFiles nm cfg start entries unlinks = some st → NothingLost nm start st := by
  refine ⟨fun io disk sFrom sTo => linkOrCopy_right_iff, fun start entries unlinks st hunused hcareful hst => ?_⟩
  obtain ⟨handled, hhandled, rfl⟩ := Option.map_eq_some_iff.mp hst
  have hkept := hunused.kept.handleEntries hcareful.1 hhandled
  exact (hkept.deleteAll (hcareful.2 handled hhandled)).nothingLost

section Example

/-- Paths without links among the directories. -/
def plainNaming : PathNaming Bytes := ⟨id, fun _ text => text, id, fun _ _ => rfl⟩

def importSource : Bytes := lit "/c/_import/a"

def importDest : Bytes := lit "/c/r/a"

/-- One file to import, and perhaps a link where it is to go. -/
def importDisk (dest : Option Bytes) : FileTree Bytes where
  node := fun p =>
    if p = importSource then some (.file 0)
    else if p = importDest then dest.map .link
    else none
  data := fun _ => lit "data"
  next := 1
  bound := by
    intro p i h
    split at h
    · cases h
      exact Nat.one_pos
    · split at h
      · cases dest <;> cases h
      · cases h

def importStart (dest : Option Bytes) : ImportState Bytes where
  disk := importDisk dest
  importMap := fun fpr => if fpr = {} then some ⟨importSource, false⟩ else none

def importCfg : RegistryCfg := { cacheDirSlash := lit "/c/" }

def importEntry : RemoteFileInfo := { sDirectory := lit "r/", sFileName := lit "a" }

def importIo (link : LinkIo) : ImportIo := { link, head := { opened := false, writes := [], ends := [] } }

/-- An import of this file. -/
def importRun (dest : Option Bytes) (link : LinkIo) : Option (ImportState Bytes) :=
  importFiles plainNaming importCfg (importStart dest) [(importEntry, importIo link)] [({}, true)]

/-- A copy between two file systems that succeeds is taken for a failure, and one that fails is taken for a success if
it left as many bytes. The file is deleted then, and also if its location is a link to it. -/
theorem import_loses :
    ¬ LinkOrCopyRight plainNaming { link := false, copy := .done } (importDisk none) importSource importDest ∧
    ¬ LinkOrCopyRight plainNaming { link := false, copy := .failed (some (lit "junk")) } (importDisk none)
      importSource importDest ∧
    (∃ st, importRun none { link := false, copy := .failed (some (lit "junk")) } = some st ∧
      ¬ NothingLost plainNaming (importStart none) st) ∧
    ∃ st, importRun (some importSource) {} = some st ∧
      ¬ NothingLost plainNaming (importStart (some importSource)) st := by
  refine ⟨fun h => ?_, fun h => ?_, ?_, ?_⟩
  · have hmade := h.2 (by decide)
    exact absurd hmade (by decide)
  · obtain ⟨content, hsource, hdest⟩ := h.1 (by decide)
    exact absurd (hsource.trans hdest.symm) (by decide)
  · refine ⟨(importRun none { link := false, copy := .failed (some (lit "junk")) }).get (by decide),
      by simp, fun h => ?_⟩
    obtain ⟨-, hshown⟩ := h.available importSource (by decide)
    obtain ⟨content, hcontent, hread⟩ :=
      hshown ⟨importSource, importDest, some (lit "data")⟩ (by decide) rfl
    exact absurd (hcontent.trans hread.symm) (by decide)
  · refine ⟨(importRun (some importSource) {}).get (by decide), by simp, fun h => ?_⟩
    obtain ⟨-, hshown⟩ := h.available importSource (by decide)
    obtain ⟨content, hcontent, hread⟩ :=
      hshown ⟨importSource, importDest, some (lit "data")⟩ (by decide) rfl
    exact absurd (hcontent.trans hread.symm) (by decide)

theorem importStart_unused : Unused (importStart none) := by
  refine ⟨fun fpr info hinfo => ?_, rfl, rfl⟩
  simp only [importStart] at hinfo
  split at hinfo
  · obtain rfl := Option.some.inj hinfo
    rfl
  · cases hinfo

theorem importStart_needed {p : Bytes} (hp : Needed plainNaming (importStart none) p) : p = importSource := by
  obtain ⟨fpr, info, hinfo, rfl⟩ | ⟨m, hm, -⟩ := hp
  · simp only [importStart] at hinfo
    split at hinfo
    · obtain rfl := Option.some.inj hinfo
      rfl
    · cases hinfo
  · cases hm

theorem importEntries_careful :
    CarefulEntries plainNaming importCfg (importStart none) [(importEntry, importIo {})] := by
  rw [CarefulEntries]
  refine ⟨fun hit hhit => ?_, fun _ _ => by rw [CarefulEntries]; trivial⟩
  obtain rfl : ⟨importSource, false⟩ = hit := by
    have hstart : (importStart none).importMap importEntry.fpr = some ⟨importSource, false⟩ := by decide
    exact Option.some.inj (hstart.symm.trans hhit)
  refine ⟨fun _ => ⟨fun _ hneeded => ?_, ?_⟩, fun _ => ?_⟩
  · exact absurd (importStart_needed hneeded) (by decide)
  · refine linkOrCopy_right_iff.mp ⟨fun _ => ⟨lit "data", ?_, ?_⟩, fun _ => ?_⟩
    · decide
    · decide
    · decide
  · refine ⟨fun hneeded => ?_, by decide⟩
    have hother :
        sameFile plainNaming (importStart none).disk (destAbs importCfg importEntry) importSource = false := by
      decide
    rw [beforeHeader, if_neg (by rw [hother]; exact Bool.false_ne_true)] at hneeded
    obtain ⟨fpr, info, hinfo, hplace⟩ | ⟨m, hm, -⟩ := hneeded
    · exact absurd (importStart_needed (.inl ⟨fpr, info, hinfo, hplace⟩)) (by decide)
    · cases hm

/-- An import with a link is careful, and its file is deleted. -/
theorem import_keeps_linked :
    ∃ st, importRun none {} = some st ∧ NothingLost plainNaming (importStart none) st ∧
      st.deleted = [importSource] := by
  have hst : importRun none {} = some ((importRun none {}).get (by decide)) := by simp
  have hdeletes : ∀ st, handleEntries plainNaming importCfg (importStart none) [(importEntry, importIo {})] = some st →
      CarefulDeletes plainNaming st [({}, true)] := by
    intro st hhandled
    obtain rfl : (handleEntries plainNaming importCfg (importStart none) [(importEntry, importIo {})]).get
        (by decide) = st := by simp [hhandled]
    rw [CarefulDeletes, CarefulDeletes, and_true]
    intro info hinfo _ _
    obtain rfl : ⟨importSource, true⟩ = info := by
      refine Option.some.inj (Eq.trans ?_ hinfo)
      decide
    decide
  exact ⟨_, hst,
    (import_keeps plainNaming importCfg).2 _ _ _ _ importStart_unused ⟨importEntries_careful, hdeletes⟩ hst,
    by decide⟩

end Example

section KeyRun

variable {cfg : ImportCfg} {content : Bytes → Int → Bytes}

/-- An entry with the fingerprint of what its file had in it at that time. -/
def EntryRight (cfg : ImportCfg) (content : Bytes → Int → Bytes) (e : KeyEntry) : Prop :=
  EntryFits cfg.sSrcPath e ∧ e.1 = cfg.fingerprint e.1.csType (content e.2.sPath e.2.mtime)

/-- A file of the walk as it is in the directory, read without a change in between. Its name is one line. -/
structure WalkFits (cfg : ImportCfg) (content : Bytes → Int → Bytes) (stat : Bytes → Option Int)
    (file : ImportFile) : Prop where
  path : ∃ name, file.sPath = cfg.sSrcPath ++ 47 :: name ∧ 10 ∉ name
  no_nul : 0 ∉ file.sPath
  stat_eq : stat file.sPath = some file.mtime
  mtime_ge : -2 ^ 63 ≤ file.mtime
  mtime_lt : file.mtime < 2 ^ 63
  scan : ∀ ctp data, file.scan ctp = some data → data = content file.sPath file.mtime
  size_lt : (content file.sPath file.mtime).length < 2 ^ 63

/-- The entries are right and their files are unchanged. -/
def KeysRight (cfg : ImportCfg) (content : Bytes → Int → Bytes) (stat : Bytes → Option Int) (keys : ImportKeys) :
    Prop :=
  ∀ e ∈ keys.importMap ++ keys.importRest, EntryRight cfg content e ∧ stat e.2.sPath = some e.2.mtime

theorem EntryFits.path_ne {sSrcPath : Bytes} {e : KeyEntry} (he : EntryFits sSrcPath e) :
    e.2.sPath.isEmpty = false := by
  obtain ⟨name, hpath, -⟩ := he.path
  simp [hpath]

theorem WalkFits.path_ne {stat : Bytes → Option Int} {file : ImportFile} (h : WalkFits cfg content stat file) :
    file.sPath.isEmpty = false := by
  obtain ⟨name, hpath, -⟩ := h.path
  simp [hpath]

/-- An entry made for a file of the walk. -/
theorem WalkFits.entry {stat : Bytes → Option Int} {file : ImportFile} (h : WalkFits cfg content stat file)
    {ctp : CsType} {data : Bytes} (hctp : ctp ≠ .invalid) (hscan : file.scan ctp = some data) (bFileUsed : Bool) :
    let e : KeyEntry := (cfg.fingerprint ctp data, { sPath := file.sPath, bFileUsed, mtime := file.mtime })
    EntryRight cfg content e ∧ stat e.2.sPath = some e.2.mtime := by
  obtain rfl := h.scan ctp data hscan
  have hsize := h.size_lt
  refine ⟨⟨?_, rfl⟩, h.stat_eq⟩
  exact
    { size_nonneg := Int.natCast_nonneg _
      size_lt := by
        simp only [ImportCfg.fingerprint]
        omega
      csType_ne := hctp
      csum_length := cfg.checksum_length ctp _
      path := h.path
      no_nul := h.no_nul
      mtime_ge := h.mtime_ge
      mtime_lt := h.mtime_lt }

/-- What one pass of the loop can do for a file. -/
theorem checkFile_cases {stat : Bytes → Option Int} {keys : ImportKeys} (hkeys : KeysRight cfg content stat keys)
    (file : ImportFile) (ctp : CsType) :
    (checkFile cfg file keys ctp = keys ∧ ∀ data, file.scan ctp = some data → 50 ≤ data.length →
      (keys.importMap.lookup (cfg.fingerprint ctp data)).isSome = true) ∨
    ∃ data, file.scan ctp = some data ∧ 50 ≤ data.length ∧
      let e : KeyEntry := (cfg.fingerprint ctp data, { sPath := file.sPath, mtime := file.mtime })
      ((keys.importMap.lookup e.1 = none ∧
          checkFile cfg file keys ctp = { keys with importMap := OrdMap.insert Fingerprint.lt e.1 e.2 keys.importMap }) ∨
        ((keys.importMap.lookup e.1).isSome = true ∧
          checkFile cfg file keys ctp = { keys with importRest := keys.importRest ++ [e] })) := by
  unfold checkFile
  cases hscan : file.scan ctp with
  | none => exact .inl ⟨rfl, by simp⟩
  | some data =>
    dsimp only
    by_cases hlen : data.length < 50
    · rw [if_pos hlen]
      refine .inl ⟨rfl, ?_⟩
      rintro _ ⟨rfl⟩ h50
      omega
    · rw [if_neg hlen]
      cases hnode : keys.importMap.lookup (cfg.fingerprint ctp data) with
      | none => exact .inr ⟨data, rfl, by omega, .inl ⟨hnode, rfl⟩⟩
      | some node =>
        have hmem := List.mem_append_left keys.importRest (OrdMap.mem_of_lookup hnode)
        have hpath : node.sPath.isEmpty = false := (hkeys _ hmem).1.1.path_ne
        simp only [Option.getD_some, hpath, Bool.false_eq_true, if_false]
        by_cases hsame : node.sPath = file.sPath
        · refine .inl ⟨if_neg (not_not_intro hsame), ?_⟩
          rintro _ ⟨rfl⟩ -
          rw [hnode]
          rfl
        · exact .inr ⟨data, rfl, by omega, .inr ⟨by rw [hnode]; rfl, if_pos hsame⟩⟩

theorem checkFile_right {stat : Bytes → Option Int} {keys : ImportKeys} (hkeys : KeysRight cfg content stat keys)
    {file : ImportFile} (hfile : WalkFits cfg content stat file) {ctp : CsType} (hctp : ctp ≠ .invalid) :
    KeysRight cfg content stat (checkFile cfg file keys ctp) := by
  obtain ⟨hsame, -⟩ | ⟨data, hscan, -, ⟨-, hfresh⟩ | ⟨-, hrest⟩⟩ := checkFile_cases hkeys file ctp
  · rwa [hsame]
  · rw [hfresh]
    intro e he
    rcases List.mem_append.mp he with he | he
    · rcases OrdMap.mem_insert he with rfl | he
      · exact hfile.entry hctp hscan false
      · exact hkeys e (List.mem_append_left _ he)
    · exact hkeys e (List.mem_append_right _ he)
  · rw [hrest]
    intro e he
    rw [← List.append_assoc] at he
    rcases List.mem_append.mp he with he | he
    · exact hkeys e he
    · obtain rfl := List.mem_singleton.mp he
      exact hfile.entry hctp hscan false

/-- A fingerprint made for a file is in the map from then on. -/
theorem checkFile_lookup {stat : Bytes → Option Int} {keys : ImportKeys} (hkeys : KeysRight cfg content stat keys)
    (file : ImportFile) (ctp : CsType) (fpr : Fingerprint) :
    ((checkFile cfg file keys ctp).importMap.lookup fpr).isSome = true ↔
      (keys.importMap.lookup fpr).isSome = true ∨
        ∃ data, file.scan ctp = some data ∧ 50 ≤ data.length ∧ fpr = cfg.fingerprint ctp data := by
  obtain ⟨hsame, hfound⟩ | ⟨data, hscan, hlen, ⟨-, hfresh⟩ | ⟨hfound, hrest⟩⟩ := checkFile_cases hkeys file ctp
  · rw [hsame]
    refine ⟨.inl, ?_⟩
    rintro (h | ⟨data, hscan, hlen, rfl⟩)
    · exact h
    · exact hfound data hscan hlen
  · rw [hfresh]
    dsimp only
    rw [OrdMap.lookup_insert]
    by_cases h : fpr = cfg.fingerprint ctp data
    · rw [if_pos h]
      exact ⟨fun _ => .inr ⟨data, hscan, hlen, h⟩, fun _ => rfl⟩
    · rw [if_neg h]
      refine ⟨.inl, ?_⟩
      rintro (h' | ⟨data', hscan', -, hfpr⟩)
      · exact h'
      · rw [hscan] at hscan'
        obtain rfl := Option.some.inj hscan'
        exact absurd hfpr h
  · rw [hrest]
    refine ⟨.inl, ?_⟩
    rintro (h | ⟨data', hscan', -, rfl⟩)
    · exact h
    · rw [hscan] at hscan'
      obtain rfl := Option.some.inj hscan'
      exact hfound

theorem checkFile_frame (cfg : ImportCfg) (file : ImportFile) (keys : ImportKeys) (ctp : CsType) :
    (checkFile cfg file keys ctp).precachedList = keys.precachedList ∧
      (checkFile cfg file keys ctp).checked = keys.checked := by
  unfold checkFile
  dsimp only
  split
  · exact ⟨rfl, rfl⟩
  · split
    · exact ⟨rfl, rfl⟩
    · split
      · exact ⟨rfl, rfl⟩
      · split
        · exact ⟨rfl, rfl⟩
        · exact ⟨rfl, rfl⟩

/-- What a file and some checksums of it are to the map. -/
def Scans (cfg : ImportCfg) (file : ImportFile) (ctps : List CsType) (fpr : Fingerprint) : Prop :=
  ∃ ctp ∈ ctps, ∃ data, file.scan ctp = some data ∧ 50 ≤ data.length ∧ fpr = cfg.fingerprint ctp data

theorem checkFiles {stat : Bytes → Option Int} {file : ImportFile} (hfile : WalkFits cfg content stat file)
    {ctps : List CsType} (hctps : ∀ ctp ∈ ctps, ctp ≠ .invalid) {keys : ImportKeys}
    (hkeys : KeysRight cfg content stat keys) :
    let keys' := ctps.foldl (checkFile cfg file) keys
    KeysRight cfg content stat keys' ∧ keys'.precachedList = keys.precachedList ∧ keys'.checked = keys.checked ∧
      ∀ fpr, (keys'.importMap.lookup fpr).isSome = true ↔
        (keys.importMap.lookup fpr).isSome = true ∨ Scans cfg file ctps fpr := by
  induction ctps generalizing keys with
  | nil => exact ⟨hkeys, rfl, rfl, fun fpr => by simp [Scans]⟩
  | cons ctp ctps ih =>
    obtain ⟨hctp, hctps⟩ := List.forall_mem_cons.mp hctps
    obtain ⟨hright, hprecached, hchecked, hlookup⟩ := ih hctps (checkFile_right hkeys hfile hctp)
    obtain ⟨hprecached', hchecked'⟩ := checkFile_frame cfg file keys ctp
    refine ⟨hright, hprecached.trans hprecached', hchecked.trans hchecked', ?_⟩
    intro fpr
    rw [List.foldl_cons, hlookup fpr, checkFile_lookup hkeys file ctp fpr, or_assoc]
    simp only [Scans, List.exists_mem_cons_iff]

/-- A file of the walk that is passed by. -/
def passed (cfg : ImportCfg) (keys : ImportKeys) (sPath : Bytes) : Bool :=
  (lit ".head").isSuffixOf sPath || !cfg.known sPath || keys.precachedList.contains sPath

def checksums : List CsType := [.md5, .sha1, .sha512]

theorem ImportCfg.processRegular_spec {stat : Bytes → Option Int} {file : ImportFile}
    (hfile : WalkFits cfg content stat file) {keys : ImportKeys} (hkeys : KeysRight cfg content stat keys) :
    let keys' := cfg.processRegular keys file
    KeysRight cfg content stat keys' ∧ keys'.precachedList = keys.precachedList ∧
      (∀ path, path ∈ keys'.checked ↔ path ∈ keys.checked ∨ (passed cfg keys path = false ∧ file.sPath = path)) ∧
      ∀ fpr, (keys'.importMap.lookup fpr).isSome = true ↔
        (keys.importMap.lookup fpr).isSome = true ∨
          (passed cfg keys file.sPath = false ∧ Scans cfg file checksums fpr) := by
  cases hpassed : passed cfg keys file.sPath with
  | true =>
    have hsame : cfg.processRegular keys file = keys := if_pos hpassed
    rw [hsame]
    refine ⟨hkeys, rfl, ?_, fun fpr => by simp⟩
    intro path
    refine ⟨.inl, ?_⟩
    rintro (h | ⟨h, rfl⟩)
    · exact h
    · rw [hpassed] at h
      cases h
  | false =>
    have hscan : cfg.processRegular keys file =
        checksums.foldl (checkFile cfg file) { keys with checked := file.sPath :: keys.checked } :=
      if_neg (by rw [← passed, hpassed]; exact Bool.false_ne_true)
    have hsums : ∀ ctp ∈ checksums, ctp ≠ .invalid := by decide
    have hkeys' : KeysRight cfg content stat { keys with checked := file.sPath :: keys.checked } := hkeys
    obtain ⟨hright, hprecached, hchecked, hlookup⟩ := checkFiles hfile hsums hkeys'
    rw [hscan]
    refine ⟨hright, hprecached, ?_, fun fpr => by simpa using hlookup fpr⟩
    intro path
    rw [hchecked, List.mem_cons, or_comm]
    refine or_congr_right ⟨?_, fun h => h.2.symm⟩
    rintro rfl
    exact ⟨hpassed, rfl⟩

theorem passed_congr {keys keys' : ImportKeys} (h : keys'.precachedList = keys.precachedList) (sPath : Bytes) :
    passed cfg keys' sPath = passed cfg keys sPath := by
  rw [passed, passed, h]

/-- What the walk makes of the keys that were loaded. -/
theorem walk_spec {stat : Bytes → Option Int} {walk : List ImportFile}
    (hwalk : ∀ file ∈ walk, WalkFits cfg content stat file) {keys : ImportKeys}
    (hkeys : KeysRight cfg content stat keys) :
    let keys' := walk.foldl cfg.processRegular keys
    KeysRight cfg content stat keys' ∧
      (∀ path, path ∈ keys'.checked ↔
        path ∈ keys.checked ∨ ∃ file ∈ walk, passed cfg keys path = false ∧ file.sPath = path) ∧
      ∀ fpr, (keys'.importMap.lookup fpr).isSome = true ↔
        (keys.importMap.lookup fpr).isSome = true ∨
          ∃ file ∈ walk, passed cfg keys file.sPath = false ∧ Scans cfg file checksums fpr := by
  induction walk generalizing keys with
  | nil => exact ⟨hkeys, fun path => by simp, fun fpr => by simp⟩
  | cons file walk ih =>
    obtain ⟨hfile, hwalk⟩ := List.forall_mem_cons.mp hwalk
    obtain ⟨hright, hprecached, hchecked, hlookup⟩ := ImportCfg.processRegular_spec hfile hkeys
    obtain ⟨hright', hchecked', hlookup'⟩ := ih hwalk hright
    refine ⟨hright', ?_, ?_⟩
    · intro path
      rw [List.foldl_cons, hchecked', hchecked, or_assoc, List.exists_mem_cons_iff]
      simp only [passed_congr hprecached]
    · intro fpr
      rw [List.foldl_cons, hlookup', hlookup, or_assoc, List.exists_mem_cons_iff]
      simp only [passed_congr hprecached]

/-- The flag says nothing of the file. -/
theorem EntryRight.flag {e : KeyEntry} (he : EntryRight cfg content e) (bFileUsed : Bool) :
    EntryRight cfg content (e.1, { e.2 with bFileUsed }) := by
  obtain ⟨hfits, hfpr⟩ := he
  exact ⟨⟨hfits.size_nonneg, hfits.size_lt, hfits.csType_ne, hfits.csum_length, hfits.path, hfits.no_nul,
    hfits.mtime_ge, hfits.mtime_lt⟩, hfpr⟩

theorem mem_load {entries : List KeyEntry} {keys : ImportKeys} {e : KeyEntry}
    (h : e ∈ (entries.foldl ImportKeys.load keys).importMap) : e ∈ entries ∨ e ∈ keys.importMap := by
  induction entries generalizing keys with
  | nil => exact .inr h
  | cons e' entries ih =>
    rcases ih h with he | he
    · exact .inl (List.mem_cons_of_mem e' he)
    · rcases OrdMap.mem_insert he with rfl | he
      · exact .inl List.mem_cons_self
      · exact .inr he

theorem load_frame (entries : List KeyEntry) (keys : ImportKeys) :
    (entries.foldl ImportKeys.load keys).importRest = keys.importRest ∧
      (entries.foldl ImportKeys.load keys).checked = keys.checked := by
  induction entries generalizing keys with
  | nil => exact ⟨rfl, rfl⟩
  | cons e entries ih => exact ih (keys.load e)

/-- What is loaded from right entries. -/
theorem loadEntries_spec (stat : Bytes → Option Int) {entries : List KeyEntry}
    (hentries : ∀ e ∈ entries, EntryRight cfg content e) :
    let keys := loadEntries stat {} entries
    KeysRight cfg content stat keys ∧ keys.checked = [] ∧
      (∀ path, path ∈ keys.precachedList ↔ ∃ e ∈ entries, e.2.sPath = path ∧ stat path = some e.2.mtime) ∧
      ∀ fpr, (keys.importMap.lookup fpr).isSome = true ↔
        ∃ e ∈ entries, e.1 = fpr ∧ stat e.2.sPath = some e.2.mtime := by
  have hloaded : ∀ e, e ∈ (entries.filter (unchanged stat)).map KeyEntry.unused ↔
      ∃ e' ∈ entries, stat e'.2.sPath = some e'.2.mtime ∧ KeyEntry.unused e' = e := by
    intro e
    simp only [List.mem_map, List.mem_filter, unchanged, beq_iff_eq, and_assoc]
  dsimp only
  rw [loadEntries_eq]
  obtain ⟨hrest, hchecked⟩ := load_frame ((entries.filter (unchanged stat)).map KeyEntry.unused) {}
  refine ⟨?_, hchecked, ?_, ?_⟩
  · intro e he
    rw [hrest] at he
    obtain he | he := List.mem_append.mp he
    · obtain ⟨e, hmem, hstat, rfl⟩ := (hloaded e).mp ((mem_load he).resolve_right (by simp))
      exact ⟨(hentries e hmem).flag false, hstat⟩
    · cases he
  · intro path
    rw [precached_load, List.append_nil, List.mem_map]
    simp only [List.mem_reverse, hloaded]
    constructor
    · rintro ⟨_, ⟨e, he, hstat, rfl⟩, rfl⟩
      exact ⟨e, he, rfl, hstat⟩
    · rintro ⟨e, he, rfl, hstat⟩
      exact ⟨_, ⟨e, he, hstat, rfl⟩, rfl⟩
  · intro fpr
    have hempty : ({} : ImportKeys).importMap.lookup fpr = none := rfl
    rw [lookup_load, hempty, Option.or_none, List.lookup_isSome_iff]
    simp only [List.mem_reverse, hloaded, beq_iff_eq]
    constructor
    · rintro ⟨_, ⟨e, he, hstat, rfl⟩, rfl⟩
      exact ⟨e, he, rfl, hstat⟩
    · rintro ⟨e, he, rfl, hstat⟩
      exact ⟨_, ⟨e, he, hstat, rfl⟩, rfl⟩

theorem mem_leaveBehind {calls : ImportCalls} {entries : List KeyEntry} {stat : Bytes → Option Int} {e : KeyEntry}
    (h : e ∈ (leaveBehind calls entries stat).1) :
    ∃ e' ∈ entries, e = (e'.1, { e'.2 with bFileUsed := calls.used.contains e'.1 }) := by
  induction entries generalizing stat with
  | nil => cases h
  | cons e' entries ih =>
    simp only [leaveBehind] at h
    split at h
    · obtain ⟨e'', he'', heq⟩ := ih h
      exact ⟨e'', List.mem_cons_of_mem _ he'', heq⟩
    · rcases List.mem_cons.mp h with rfl | h
      · exact ⟨e', List.mem_cons_self, rfl⟩
      · obtain ⟨e'', he'', heq⟩ := ih h
        exact ⟨e'', List.mem_cons_of_mem _ he'', heq⟩

/-- What an import writes into the key cache. -/
def leftEntries (cfg : ImportCfg) (dir : ImportDir) (calls : ImportCalls) : List KeyEntry :=
  let keys := importKeys cfg dir calls.walk
  (leaveBehind calls keys.importMap dir.stat).1 ++ keys.importRest

/-- The key cache is as an import left it, and its entries are right. -/
structure DirHolds (cfg : ImportCfg) (content : Bytes → Int → Bytes) (dir : ImportDir) : Prop where
  entries : ∀ e ∈ dir.entries, EntryRight cfg content e
  loads : ∀ stat, loadKeyCache cfg.sSrcPath stat dir.cache = loadEntries stat {} dir.entries

/-- The files of a walk are read as they are, and a key cache that is cut ends in front of the path of a record, or
behind its end. -/
def ActFits (cfg : ImportCfg) (content : Bytes → Int → Bytes) (dir : ImportDir) : ImportAct → Prop
  | .change _ => True
  | .action calls =>
    (∀ file ∈ calls.walk, WalkFits cfg content dir.stat file) ∧
      ∀ n, calls.save = .cut n → cleanCut cfg.sSrcPath (n - 5) (leftEntries cfg dir calls) = true

def ActsFit (cfg : ImportCfg) (content : Bytes → Int → Bytes) : ImportDir → List ImportAct → Prop
  | _, [] => True
  | dir, act :: acts => ActFits cfg content dir act ∧ ActsFit cfg content (dir.step cfg act) acts

theorem DirHolds.keys {dir : ImportDir} (h : DirHolds cfg content dir) {walk : List ImportFile}
    (hwalk : ∀ file ∈ walk, WalkFits cfg content dir.stat file) :
    KeysRight cfg content dir.stat (importKeys cfg dir walk) := by
  unfold importKeys
  rw [h.loads]
  exact (walk_spec hwalk (loadEntries_spec dir.stat h.entries).1).1

theorem wholeRecords_subset {sSrcPath : Bytes} {n : Nat} {entries : List KeyEntry} {e : KeyEntry}
    (h : e ∈ wholeRecords sSrcPath n entries) : e ∈ entries := by
  induction entries generalizing n with
  | nil => cases h
  | cons e' entries ih =>
    simp only [wholeRecords] at h
    split at h
    · rcases List.mem_cons.mp h with rfl | h
      · exact List.mem_cons_self
      · exact List.mem_cons_of_mem _ (ih h)
    · cases h

theorem DirHolds.action {dir : ImportDir} (h : DirHolds cfg content dir) {calls : ImportCalls}
    (hfits : ActFits cfg content dir (.action calls)) : DirHolds cfg content (runImport cfg dir calls) := by
  obtain ⟨hwalk, hcut⟩ := hfits
  have hkeys := h.keys hwalk
  have hleft : ∀ e ∈ leftEntries cfg dir calls, EntryRight cfg content e := by
    intro e he
    rcases List.mem_append.mp he with he | he
    · obtain ⟨e, hmem, rfl⟩ := mem_leaveBehind he
      exact (hkeys e (List.mem_append_left _ hmem)).1.flag _
    · exact (hkeys e (List.mem_append_right _ he)).1
  have hcache : ∀ n, cleanCut cfg.sSrcPath (n - 5) (leftEntries cfg dir calls) = true → ∀ stat,
      loadKeyCache cfg.sSrcPath stat (some ((keyCacheText cfg.sSrcPath (leftEntries cfg dir calls)).take n)) =
        loadEntries stat {} (wholeRecords cfg.sSrcPath (n - 5) (leftEntries cfg dir calls)) := by
    intro n hclean stat
    refine (loadKeyCache_records stat (fun e he => (hleft e he).1) n).resolve_right ?_
    rintro ⟨hbad, -⟩
    rw [hclean] at hbad
    cases hbad
  unfold runImport
  dsimp only
  split
  · exact h
  · rw [← leftEntries]
    cases hsave : calls.save with
    | whole =>
      have hlong : ((leftEntries cfg dir calls).flatMap (keyText cfg.sSrcPath)).length ≤
          (keyCacheText cfg.sSrcPath (leftEntries cfg dir calls)).length - 5 := by
        rw [keyCacheText_length, Nat.add_sub_cancel]
      have hall := wholeRecords_all hlong
      refine ⟨hleft, fun stat => ?_⟩
      have hload := hcache _ hall.2 stat
      rw [List.take_length, hall.1] at hload
      exact hload
    | cut n =>
      exact ⟨fun e he => hleft e (wholeRecords_subset he), hcache n (hcut n hsave)⟩
    | notOpened unlinked =>
      cases unlinked with
      | true => exact ⟨by simp, fun stat => rfl⟩
      | false => exact ⟨h.entries, h.loads⟩

theorem DirHolds.step {dir : ImportDir} (h : DirHolds cfg content dir) {act : ImportAct}
    (hfits : ActFits cfg content dir act) : DirHolds cfg content (dir.step cfg act) := by
  cases act with
  | change stat => exact ⟨h.entries, h.loads⟩
  | action calls => exact h.action hfits

theorem DirHolds.run {dir : ImportDir} (h : DirHolds cfg content dir) {acts : List ImportAct}
    (hfits : ActsFit cfg content dir acts) : DirHolds cfg content (dir.run cfg acts) := by
  induction acts generalizing dir with
  | nil => exact h
  | cons act acts ih => exact ih (h.step hfits.1) hfits.2

/-- An empty key cache. -/
theorem dirHolds_new (cfg : ImportCfg) (content : Bytes → Int → Bytes) (stat : Bytes → Option Int) :
    DirHolds cfg content { stat } := ⟨by simp, fun _ => rfl⟩

/-- What an import knows behind any run of imports and changes: each fingerprint it has is that of an unchanged file,
a file is read if no record names it with its time, and a fingerprint is found if a record has it or a file that is
read does. -/
theorem imports_right (cfg : ImportCfg) (content : Bytes → Int → Bytes) (stat : Bytes → Option Int)
    (acts : List ImportAct) (hacts : ActsFit cfg content { stat } acts) (walk : List ImportFile)
    (hwalk : ∀ file ∈ walk, WalkFits cfg content (ImportDir.run cfg { stat } acts).stat file) :
    let dir := ImportDir.run cfg { stat } acts
    let keys := importKeys cfg dir walk
    KeysRight cfg content dir.stat keys ∧
      (∀ path, path ∈ keys.checked ↔
        ∃ file ∈ walk, file.sPath = path ∧ (lit ".head").isSuffixOf path = false ∧ cfg.known path = true ∧
          ∀ e ∈ dir.entries, e.2.sPath = path → dir.stat path ≠ some e.2.mtime) ∧
      ∀ fpr, (keys.importMap.lookup fpr).isSome = true ↔
        (∃ e ∈ dir.entries, e.1 = fpr ∧ dir.stat e.2.sPath = some e.2.mtime) ∨
          ∃ file ∈ walk, file.sPath ∈ keys.checked ∧ Scans cfg file checksums fpr := by
  intro dir keys
  have hdir : DirHolds cfg content dir := (dirHolds_new cfg content stat).run hacts
  obtain ⟨hloaded, hnone, hprecached, hfound⟩ := loadEntries_spec dir.stat hdir.entries
  obtain ⟨hright, hchecked, hlookup⟩ := walk_spec hwalk hloaded
  have hkeys : keys = walk.foldl cfg.processRegular (loadEntries dir.stat {} dir.entries) := by
    rw [← hdir.loads]
    rfl
  rw [← hkeys] at hright hchecked hlookup
  have hpassed : ∀ path, passed cfg (loadEntries dir.stat {} dir.entries) path = false ↔
      (lit ".head").isSuffixOf path = false ∧ cfg.known path = true ∧
        ∀ e ∈ dir.entries, e.2.sPath = path → dir.stat path ≠ some e.2.mtime := by
    intro path
    rw [passed, Bool.or_eq_false_iff, Bool.or_eq_false_iff, Bool.not_eq_false', and_assoc, ← Bool.not_eq_true,
      ← Bool.not_eq_true, List.contains_iff_mem, hprecached]
    simp only [not_exists, not_and, ne_eq]
  have hread : ∀ path, path ∈ keys.checked ↔ ∃ file ∈ walk,
      passed cfg (loadEntries dir.stat {} dir.entries) path = false ∧ file.sPath = path := by
    intro path
    rw [hchecked, hnone]
    simp
  refine ⟨hright, ?_, ?_⟩
  · intro path
    rw [hread]
    simp only [hpassed, and_comm, and_left_comm]
  · intro fpr
    rw [hlookup, hfound]
    refine or_congr_right ⟨?_, ?_⟩
    · rintro ⟨file, hfile, hpass, hscan⟩
      exact ⟨file, hfile, (hread _).mpr ⟨file, hfile, hpass, rfl⟩, hscan⟩
    · rintro ⟨file, hfile, hmem, hscan⟩
      obtain ⟨_, -, hpass, -⟩ := (hread _).mp hmem
      exact ⟨file, hfile, hpass, hscan⟩

end KeyRun

/-- The checksums of sixty times the letter a. -/
def packageSum : CsType → Bytes
  | .invalid => []
  | .md5 =>
    [204, 126, 214, 105, 207, 136, 242, 1, 195, 41, 124, 106, 145, 225, 209, 141]
  | .sha1 =>
    [19, 217, 86, 3, 61, 154, 244, 73, 191, 226, 196, 239, 120, 193, 124, 32, 70, 156, 75, 241]
  | .sha256 =>
    [17, 238, 57, 18, 17, 198, 37, 100, 96, 182, 237, 55, 89, 87, 250, 221, 128, 97, 202, 251, 179, 29, 175, 150,
     125, 184, 117, 174, 189, 90, 170, 212]
  | .sha512 =>
    [90, 192, 142, 137, 216, 132, 222, 63, 8, 108, 96, 232, 243, 110, 117, 76, 240, 174, 155, 226, 240, 24, 168, 123,
     127, 113, 177, 92, 129, 53, 100, 16, 7, 126, 170, 7, 80, 16, 235, 72, 149, 151, 131, 186, 73, 13, 199, 201, 254,
     197, 53, 115, 132, 141, 137, 41, 189, 95, 192, 87, 69, 82, 245, 143]

def packagesCfg : ImportCfg where
  sSrcPath := lit "/c/_import"
  known path := (lit ".deb").isSuffixOf path
  checksum ctp _ := packageSum ctp
  checksum_length ctp _ := by cases ctp <;> rfl

def packageData : Bytes := List.replicate 60 97

def packageFile : ImportFile := { sPath := lit "/c/_import/a.deb", mtime := 77, scan := fun _ => some packageData }

def packageStat (path : Bytes) : Option Int := if path = packageFile.sPath then some 77 else none

/-- An import that is killed when it writes its second record. -/
def killedImport : ImportAct :=
  .action { walk := [packageFile], used := [], unlinks := fun _ => false, save := .cut 55 }

theorem packageFile_fits {stat : Bytes → Option Int} (hstat : stat packageFile.sPath = some 77) :
    ∀ file ∈ [packageFile], WalkFits packagesCfg (fun _ _ => packageData) stat file := by
  intro file hfile
  obtain rfl := List.mem_singleton.mp hfile
  exact
    { path := ⟨lit "a.deb", by decide, by decide⟩
      no_nul := by decide
      stat_eq := hstat
      mtime_ge := by decide
      mtime_lt := by decide
      scan := fun _ _ h => (Option.some.inj h).symm
      size_lt := by decide }

/-- Behind a kill the file is not read again, and found by its first checksum only. -/
theorem imports_right_killed :
    let keys := importKeys packagesCfg (ImportDir.run packagesCfg { stat := packageStat } [killedImport]) [packageFile]
    packageFile.sPath ∉ keys.checked ∧
      (keys.importMap.lookup (packagesCfg.fingerprint .md5 packageData)).isSome = true ∧
      (keys.importMap.lookup (packagesCfg.fingerprint .sha1 packageData)).isSome = false := by
  have hacts : ActsFit packagesCfg (fun _ _ => packageData) { stat := packageStat } [killedImport] := by
    refine ⟨⟨packageFile_fits (by decide), fun n hn => ?_⟩, trivial⟩
    obtain rfl : 55 = n := by injection hn
    decide
  have hstat : (ImportDir.run packagesCfg { stat := packageStat } [killedImport]).stat packageFile.sPath = some 77 := by
    decide
  have hentries : (ImportDir.run packagesCfg { stat := packageStat } [killedImport]).entries =
      [(packagesCfg.fingerprint .md5 packageData, { sPath := packageFile.sPath, mtime := 77 })] := by
    decide
  obtain ⟨-, hchecked, hlookup⟩ := imports_right packagesCfg (fun _ _ => packageData) packageStat [killedImport] hacts
    [packageFile] (packageFile_fits hstat)
  rw [hentries] at hchecked hlookup
  have hread : packageFile.sPath ∉ (importKeys packagesCfg
      (ImportDir.run packagesCfg { stat := packageStat } [killedImport]) [packageFile]).checked := by
    rw [hchecked]
    rintro ⟨-, -, -, -, -, hnone⟩
    exact hnone _ List.mem_cons_self rfl hstat
  refine ⟨hread, (hlookup _).mpr (.inl ⟨_, List.mem_cons_self, rfl, hstat⟩), ?_⟩
  rw [← Bool.not_eq_true, hlookup]
  rintro (⟨e, he, hfpr, -⟩ | ⟨file, hfile, hmem, -⟩)
  · obtain rfl := List.mem_singleton.mp he
    exact absurd hfpr (by decide)
  · obtain rfl := List.mem_singleton.mp hfile
    exact hread hmem

end Acng
