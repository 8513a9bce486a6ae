import Acng.Proofs.Expiration
import Acng.Proofs.Validation

namespace Acng
open Lib

theorem TrashMap.mem_candidatesOf {t : TrashMap} {st_size : Bytes → Int} {name dir : Bytes}
    {desc : Candidate} : (dir, desc) ∈ t.candidatesOf st_size name ↔
      ∃ info, t.at? name dir = some info ∧
        desc = { toDiskFileInfo := info, fpr := { size := st_size (dir ++ name) } } := by
  unfold candidatesOf
  rw [List.mem_insertionSort, List.mem_map]
  have hentry : ∀ info, t.at? name dir = some info ↔
      (⟨dir, info⟩ : Sigma fun _ => DiskFileInfo) ∈ ((t.lookup name).getD ∅).entries := by
    intro info
    rw [← AList.mem_lookup_iff]
    unfold at?
    cases t.lookup name <;> rfl
  constructor
  · rintro ⟨⟨d, info⟩, hmem, heq⟩
    obtain ⟨rfl, rfl⟩ := Prod.mk.inj heq
    exact ⟨info, (hentry info).mpr hmem, rfl⟩
  · rintro ⟨info, hinfo, rfl⟩
    exact ⟨⟨dir, info⟩, (hentry info).mp hinfo, rfl⟩

theorem TrashMap.candidatesOf_distinct (t : TrashMap) (st_size : Bytes → Int) (name : Bytes) :
    ((t.candidatesOf st_size name).map Prod.fst).Nodup := by
  unfold candidatesOf
  refine (((List.perm_insertionSort _ _).map Prod.fst).nodup_iff).mpr ?_
  rw [List.map_map]
  exact ((t.lookup name).getD ∅).nodupKeys

namespace Expiration

theorem cutPos_noSlash (s : Bytes) : (47 : UInt8) ∉ s.drop (cutPos s) := by
  unfold cutPos
  cases hpos : rfind 47 s with
  | none => exact rfind_eq_none.mp hpos
  | some pos => exact rfind_not_mem_drop hpos

theorem cutPos_keyed (s : Bytes) (k : Nat) : Keyed (s.take (cutPos s)) ((s.drop (cutPos s)).take k) := by
  refine ⟨fun h => cutPos_noSlash s (List.mem_of_mem_take h), (take_cutPos_slash s).imp_right ?_⟩
  exact List.getLast?_eq_some_iff.mp

/-- `m_trashFile2dir2Info` behind the scan of the cache. -/
def scan (cfg : ExpirationCfg) (now : Int) (files : List ScannedPath) : TrashMap :=
  files.foldl (processRegular cfg now) ∅

theorem scan_keyed (cfg : ExpirationCfg) (now : Int) (files : List ScannedPath) :
    ∀ name dir info, (scan cfg now files).at? name dir = some info → Keyed dir name := by
  refine List.foldlRecOn files (processRegular cfg now)
    (motive := fun t => ∀ name dir info, TrashMap.at? t name dir = some info → Keyed dir name) ?_ ?_
  · intro name dir info h
    exact absurd h (by simp [TrashMap.at?_empty])
  · intro t ht path _ name dir info hinfo
    obtain hsame | ⟨-, k, hmodify⟩ := processRegular_cases cfg now t path
    · exact ht name dir info (hsame ▸ hinfo)
    · rw [hmodify, TrashMap.at?_modify] at hinfo
      split at hinfo
      · next hkey =>
        obtain ⟨rfl, rfl⟩ := hkey
        exact cutPos_keyed path.sPathRel k
      · exact ht name dir info hinfo

/-- What the scan finds, as a run of the validation takes it. -/
def scannedFiles (cfg : ExpirationCfg) (now : Int) (files : List ScannedPath)
    (st_size : Bytes → Int) : ScannedFiles where
  dirs := (scan cfg now files).candidatesOf st_size
  keyed name e he := by
    obtain ⟨info, hinfo, -⟩ := TrashMap.mem_candidatesOf.mp he
    exact scan_keyed cfg now files name e.1 info hinfo
  distinct := TrashMap.candidatesOf_distinct _ _
  unread name e he := by
    obtain ⟨dir, desc⟩ := e
    obtain ⟨info, -, rfl⟩ := TrashMap.mem_candidatesOf.mp he
    rfl

theorem handleEntry_at? (cfg : ExpirationCfg) (t : TrashMap) (sDirectory sFileName : Bytes)
    (stays : Bytes → Bool) (n d : Bytes) :
    (handleEntry cfg t (.pkgEntry sDirectory sFileName stays)).at? n d =
      if n = sFileName ∧ stays d = false ∧
          ((cfg.bByPath || sFileName == lit "Index" || cfg.isVolatile (sDirectory ++ sFileName)) = true →
            d = pathTidy sDirectory)
      then none else t.at? n d := by
  cases hpath : cfg.bByPath || sFileName == lit "Index" || cfg.isVolatile (sDirectory ++ sFileName) with
  | false =>
    simp only [handleEntry, hpath, Bool.false_eq_true, if_false, TrashMap.at?_eraseDirs]
    simp
  | true =>
    simp only [handleEntry, hpath, if_true, forall_const]
    split
    · next h =>
      rw [Bool.or_eq_true, Option.isNone_iff_eq_none] at h
      split
      · next hd =>
        obtain ⟨rfl, hleaves, rfl⟩ := hd
        exact h.resolve_right (by simp [hleaves])
      · rfl
    · next h =>
      rw [Bool.or_eq_true, not_or, Bool.not_eq_true, Bool.not_eq_true] at h
      rw [TrashMap.at?_eraseDir]
      by_cases hd : d = pathTidy sDirectory
      · simp [hd, h.2]
      · rw [if_neg (fun hc => hd hc.2), if_neg (fun hc => hd hc.2.2)]

end Expiration

namespace Validation
open Expiration

variable (cfg : ValidationCfg) (m_processedIfile : Bytes) (entry : RemoteFileInfo)

/-- The list of the run holds the same files as the map of the expiration. -/
def Agrees (st : Validation) (t : TrashMap) : Prop :=
  ∀ name dir info, t.at? name dir = some info ↔
    ∃ desc, (dir, desc) ∈ st.trash name ∧ desc.toDiskFileInfo = info

/-- What an entry is for the expiration. -/
def reference (st : Validation) : Reference :=
  .pkgEntry entry.sDirectory entry.sFileName (fun dir =>
    ((handlePkgEntry cfg st m_processedIfile entry).trash entry.sFileName).any (fun e => e.1 == dir))

/-- The same for all entries of a run. -/
def references : Validation → List (Bytes × RemoteFileInfo) → List Reference
  | _, [] => []
  | st, entry :: entries =>
    reference cfg entry.1 entry.2 st :: references (handlePkgEntry cfg st entry.1 entry.2) entries

/-- Two runs with the same settings. -/
structure SameSettings (xcfg : ExpirationCfg) : Prop where
  byPath : xcfg.bByPath = cfg.bByPath
  isVolatile : xcfg.isVolatile = cfg.isVolatile

variable {cfg} {st : Validation} {t : TrashMap} {xcfg : ExpirationCfg}

/-- `HandlePkgEntry` does to the list what the expiration takes it to do. -/
theorem Agrees.step (h : Agrees st t) (hcut : Cut st) (hcfg : SameSettings cfg xcfg) :
    Agrees (handlePkgEntry cfg st m_processedIfile entry)
      (handleEntry xcfg t (reference cfg m_processedIfile entry st)) := by
  intro name dir info
  rw [reference, handleEntry_at?, hcfg.byPath, hcfg.isVolatile]
  by_cases hname : name = entry.sFileName
  · subst hname
    constructor
    · intro hif
      split at hif
      · cases hif
      · rename_i hkept
        obtain ⟨descHave, hmem, rfl⟩ := (h _ _ _).mp hif
        cases hlooks : looksAt cfg entry dir with
        | false => exact ⟨descHave, (handlePkgEntry_skips m_processedIfile hcut hmem hlooks).1, rfl⟩
        | true =>
          rw [looksAt, Bool.or_eq_true, Bool.not_eq_true', beq_iff_eq] at hlooks
          have hstays := fun hleaves => hkept ⟨rfl, hleaves, fun hpath =>
            hlooks.resolve_left (by rw [hpath]; exact Bool.noConfusion)⟩
          rw [imp_false, Bool.not_eq_false, List.any_eq_true] at hstays
          obtain ⟨⟨d, desc⟩, hin, heq⟩ := hstays
          obtain rfl := beq_iff_eq.mp heq
          obtain ⟨descHave', hmem', -, hinfo, -⟩ := handlePkgEntry_left m_processedIfile hcut hin
          have hsame := List.inj_on_of_nodup_map (hcut.distinct _) hmem hmem' rfl
          obtain rfl := (Prod.mk.inj hsame).2
          exact ⟨desc, hin, hinfo⟩
    · rintro ⟨desc, hin, rfl⟩
      obtain ⟨descHave, hmem, -, hinfo, -⟩ := handlePkgEntry_left m_processedIfile hcut hin
      have hstays : ((handlePkgEntry cfg st m_processedIfile entry).trash entry.sFileName).any
          (fun e => e.1 == dir) = true := List.any_eq_true.mpr ⟨_, hin, beq_self_eq_true dir⟩
      rw [if_neg (fun hc => Bool.false_ne_true (hc.2.1.symm.trans hstays)), hinfo]
      exact (h _ _ _).mpr ⟨descHave, hmem, rfl⟩
  · rw [if_neg (fun hc => hname hc.1), handlePkgEntry_trash_ne _ _ _ _ hname]
    exact h name dir info

theorem Agrees.run (h : Agrees st t) (hcut : Cut st) (hcfg : SameSettings cfg xcfg)
    (entries : List (Bytes × RemoteFileInfo)) :
    Agrees (run cfg st entries) ((references cfg st entries).foldl (handleEntry xcfg) t) := by
  induction entries generalizing st t with
  | nil => exact h
  | cons entry entries ih => exact ih (h.step entry.1 entry.2 hcut hcfg) (handlePkgEntry_cut entry.1 hcut)

/-- The candidates of a whole expiration run are what the validation leaves of the scanned files. -/
theorem run_candidates (r : ExpirationRun) (hcfg : SameSettings cfg r.cfg) (st_size : Bytes → Int)
    (forceKeepInTrash : Bytes → Bool) (files : MetaFiles) (disk : Bytes → Option CacheFile)
    (damageList : Option (List Bytes)) (entries : List (Bytes × RemoteFileInfo))
    (hrefs : r.refs = references cfg ((scannedFiles r.cfg r.now r.files st_size).validation
      forceKeepInTrash files disk damageList) entries) :
    Agrees (run cfg ((scannedFiles r.cfg r.now r.files st_size).validation forceKeepInTrash files disk
      damageList) entries) r.candidates := by
  have hscan : Agrees ((scannedFiles r.cfg r.now r.files st_size).validation forceKeepInTrash files disk
      damageList) (scan r.cfg r.now r.files) := by
    intro name dir info
    constructor
    · intro hinfo
      exact ⟨_, TrashMap.mem_candidatesOf.mpr ⟨info, hinfo, rfl⟩, rfl⟩
    · rintro ⟨desc, hmem, rfl⟩
      obtain ⟨info, hinfo, rfl⟩ := TrashMap.mem_candidatesOf.mp hmem
      exact hinfo
  have hcut : Cut ((scannedFiles r.cfg r.now r.files st_size).validation forceKeepInTrash files disk
      damageList) :=
    ⟨(scannedFiles r.cfg r.now r.files st_size).keyed, (scannedFiles r.cfg r.now r.files st_size).distinct⟩
  unfold ExpirationRun.candidates
  rw [hrefs]
  exact hscan.run hcut hcfg entries

end Validation

end Acng
