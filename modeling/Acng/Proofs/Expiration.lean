import Acng.Expiration
import Acng.Lib.Scan
import Acng.Lib.Separators
import Acng.Proofs.Decimal

namespace Acng
open Lib

namespace TrashMap

theorem at?_eq_some {t : TrashMap} {name dir : Bytes} {info : DiskFileInfo} :
    t.at? name dir = some info ↔ ∃ dirs, t.lookup name = some dirs ∧ dirs.lookup dir = some info :=
  Option.bind_eq_some_iff

theorem at?_modify (t : TrashMap) (name dir n d : Bytes) (f : DiskFileInfo → DiskFileInfo) :
    (t.modify name dir f).at? n d =
      if n = name ∧ d = dir then some (f ((t.at? name dir).getD {})) else t.at? n d := by
  unfold modify at?
  by_cases hn : n = name
  · subst hn
    rw [AList.lookup_insert, Option.bind_some]
    by_cases hd : d = dir
    · subst hd
      rw [AList.lookup_insert, if_pos ⟨rfl, rfl⟩]
      cases t.lookup n <;> rfl
    · rw [AList.lookup_insert_ne hd, if_neg (fun h => hd h.2)]
      cases t.lookup n <;> rfl
  · rw [AList.lookup_insert_ne hn, if_neg (fun h => hn h.1)]

theorem at?_modify_self (t : TrashMap) (name dir : Bytes) (f : DiskFileInfo → DiskFileInfo) :
    (t.modify name dir f).at? name dir = some (f ((t.at? name dir).getD {})) := by
  rw [at?_modify, if_pos ⟨rfl, rfl⟩]

theorem at?_empty (name dir : Bytes) : (∅ : TrashMap).at? name dir = none := rfl

theorem mem_files {t : TrashMap} {name dir : Bytes} {info : DiskFileInfo} :
    (name, dir, info) ∈ t.files ↔ t.at? name dir = some info := by
  rw [at?_eq_some]
  simp only [files, List.mem_flatMap, List.mem_map, Prod.mk.injEq]
  constructor
  · rintro ⟨⟨n, dirs⟩, hgroup, ⟨d, i⟩, hentry, rfl, rfl, rfl⟩
    exact ⟨dirs, AList.mem_lookup_iff.mpr hgroup, AList.mem_lookup_iff.mpr hentry⟩
  · rintro ⟨dirs, hgroup, hentry⟩
    exact ⟨⟨name, dirs⟩, AList.mem_lookup_iff.mp hgroup, ⟨dir, info⟩,
      AList.mem_lookup_iff.mp hentry, rfl, rfl, rfl⟩

/-- Only the files of one group change with the group. -/
theorem at?_insert (t : TrashMap) (name n d : Bytes) (dirs : AList (fun _ : Bytes => DiskFileInfo)) :
    TrashMap.at? (t.insert name dirs) n d = if n = name then dirs.lookup d else t.at? n d := by
  unfold at?
  by_cases hn : n = name
  · rw [if_pos hn, hn, AList.lookup_insert]
    rfl
  · rw [if_neg hn, AList.lookup_insert_ne hn]

theorem lookup_erase_eq (dirs : AList (fun _ : Bytes => DiskFileInfo)) (dir d : Bytes) :
    (dirs.erase dir).lookup d = if d = dir then none else dirs.lookup d := by
  by_cases hd : d = dir
  · rw [if_pos hd, hd, AList.lookup_erase]
  · rw [if_neg hd, AList.lookup_erase_ne hd]

/-- A group loses the directories that some condition holds of. -/
theorem at?_loses {t t' : TrashMap} {name d : Bytes} (n : Bytes) {p : Prop} [Decidable p]
    (hnone : t.lookup name = none → t' = t)
    (hsome : ∀ dirs, t.lookup name = some dirs → ∃ less, t' = t.insert name less ∧
      less.lookup d = if p then none else dirs.lookup d) :
    t'.at? n d = if n = name ∧ p then none else t.at? n d := by
  cases hdirs : t.lookup name with
  | none =>
    rw [hnone hdirs]
    by_cases hn : n = name
    · have : t.at? n d = none := by rw [at?, hn, hdirs, Option.bind_none]
      rw [this, ite_self]
    · rw [if_neg (fun h => hn h.1)]
  | some dirs =>
    obtain ⟨less, rfl, hless⟩ := hsome dirs hdirs
    rw [at?_insert, hless]
    by_cases hn : n = name
    · have : t.at? n d = dirs.lookup d := by rw [at?, hn, hdirs, Option.bind_some]
      simp only [hn, true_and, if_true, ← this]
    · rw [if_neg hn, if_neg (fun h => hn h.1)]

theorem at?_eraseDir (t : TrashMap) (name dir n d : Bytes) :
    (t.eraseDir name dir).at? n d = if n = name ∧ d = dir then none else t.at? n d := by
  refine at?_loses n ?_ ?_
  · intro hnone
    rw [eraseDir, hnone]
  · intro dirs hdirs
    refine ⟨dirs.erase dir, ?_, lookup_erase_eq dirs dir d⟩
    rw [eraseDir, hdirs]

theorem lookup_foldl_erase (stays : Bytes → Bool) (ds : List Bytes)
    (dirs : AList (fun _ : Bytes => DiskFileInfo)) (d : Bytes) :
    (ds.foldl (fun dirs dir => if stays dir then dirs else dirs.erase dir) dirs).lookup d =
      if d ∈ ds ∧ stays d = false then none else dirs.lookup d := by
  induction ds generalizing dirs with
  | nil => simp
  | cons dir ds ih =>
    rw [List.foldl_cons, ih]
    cases hstays : stays dir with
    | true =>
      have : d = dir → stays d = true := fun heq => heq ▸ hstays
      grind
    | false =>
      simp only [Bool.false_eq_true, if_false, lookup_erase_eq]
      grind

theorem at?_eraseDirs (t : TrashMap) (name n d : Bytes) (stays : Bytes → Bool) :
    (t.eraseDirs name stays).at? n d = if n = name ∧ stays d = false then none else t.at? n d := by
  refine at?_loses n ?_ ?_
  · intro hnone
    rw [eraseDirs, hnone]
  · intro dirs hdirs
    refine ⟨_, by rw [eraseDirs, hdirs], ?_⟩
    rw [lookup_foldl_erase]
    by_cases hd : d ∈ dirs.entries.map Sigma.fst
    · simp only [hd, true_and]
    · have hnone : dirs.lookup d = none := AList.lookup_eq_none.mpr hd
      rw [hnone, ite_self, ite_self]

theorem at?_erase {t : TrashMap} {name n d : Bytes} {info : DiskFileInfo}
    (h : TrashMap.at? (t.erase name) n d = some info) : t.at? n d = some info := by
  obtain ⟨dirs, hdirs, hinfo⟩ := at?_eq_some.mp h
  by_cases hn : n = name
  · subst hn
    rw [AList.lookup_erase] at hdirs
    exact absurd hdirs (by simp)
  · rw [AList.lookup_erase_ne hn] at hdirs
    exact at?_eq_some.mpr ⟨dirs, hdirs, hinfo⟩

end TrashMap

namespace Expiration

/-- A name and a directory that can be written to `_expending_dat`. -/
structure Writable (name dir : Bytes) : Prop where
  name_line : ∀ c ∈ name, lineEnd c = false
  dir_line : ∀ c ∈ dir, lineEnd c = false
  name_nul : 0 ∉ name
  dir_nul : 0 ∉ dir
  slash : dir = [] ∨ dir.getLast? = some 47

/-- All candidates were found by the scan of this run. -/
def Scanned (now : Int) (t : TrashMap) : Prop :=
  ∀ name dir info, t.at? name dir = some info → info.nLostAt = now ∧ Writable name dir

theorem take_cutPos_slash (s : Bytes) :
    s.take (cutPos s) = [] ∨ (s.take (cutPos s)).getLast? = some 47 := by
  unfold cutPos rfind
  cases h : s.reverse.idxOf? 47 with
  | none => exact .inl (by simp)
  | some i =>
    obtain ⟨hi, hget, _⟩ := List.idxOf?_eq_some_iff.mp h
    rw [List.length_reverse] at hi
    rw [List.getElem_reverse] at hget
    right
    simp only [Option.map_some, Option.getD_some, List.getLast?_take, Nat.succ_ne_zero, if_false,
      Nat.add_sub_cancel]
    rw [List.getElem?_eq_getElem (by omega), hget]
    rfl

theorem writable_of_path {s : Bytes} (h0 : 0 ∉ s)
    (hs : (s.any ([13, 10, 39, 34, 60, 62, 123, 125].contains ·)) = false) (k : Nat) :
    Writable ((s.drop (cutPos s)).take k) (s.take (cutPos s)) := by
  have hline : ∀ c ∈ s, lineEnd c = false := by
    intro c hc
    have hbad := List.any_eq_false.mp hs c hc
    simp only [List.contains_iff_mem, List.mem_cons, not_or] at hbad
    simp [lineEnd, hbad.1, hbad.2.1]
  refine ⟨fun c hc => hline c ?_, fun c hc => hline c (List.mem_of_mem_take hc), fun h => h0 ?_,
    fun h => h0 (List.mem_of_mem_take h), take_cutPos_slash s⟩
  · exact List.mem_of_mem_drop (List.mem_of_mem_take hc)
  · exact List.mem_of_mem_drop (List.mem_of_mem_take h)

/-- What the scan does for a path: nothing, or a file is seen just now. -/
theorem processRegular_cases (cfg : ExpirationCfg) (now : Int) (t : TrashMap) (path : ScannedPath) :
    processRegular cfg now t path = t ∨
      (path.sPathRel.any ([13, 10, 39, 34, 60, 62, 123, 125].contains ·)) = false ∧
        ∃ k, processRegular cfg now t path =
          t.modify ((path.sPathRel.drop (cutPos path.sPathRel)).take k)
            (path.sPathRel.take (cutPos path.sPathRel)) (fun info => { info with nLostAt := now }) := by
  unfold processRegular
  dsimp only
  split
  · exact .inl rfl
  · next hchars =>
    generalize (if (lit ".head").isSuffixOf path.sPathRel then 5 else 0) = stripLen
    split
    · exact .inl rfl
    · split
      · exact .inl rfl
      · exact .inr ⟨eq_false_of_ne_true hchars, _, rfl⟩

theorem processRegular_scanned {cfg : ExpirationCfg} {now : Int} {t : TrashMap}
    (h : Scanned now t) (path : ScannedPath) : Scanned now (processRegular cfg now t path) := by
  obtain hsame | ⟨hchars, k, hmodify⟩ := processRegular_cases cfg now t path
  · rwa [hsame]
  · rw [hmodify]
    intro name dir info hinfo
    rw [TrashMap.at?_modify] at hinfo
    split at hinfo
    · next hkey =>
      obtain ⟨rfl, rfl⟩ := hkey
      obtain rfl := Option.some.inj hinfo
      exact ⟨rfl, writable_of_path path.noNul hchars k⟩
    · exact h name dir info hinfo

theorem handleEntry_sub {cfg : ExpirationCfg} {t : TrashMap} {entry : Reference} {name dir : Bytes}
    {info : DiskFileInfo} (h : (handleEntry cfg t entry).at? name dir = some info) :
    t.at? name dir = some info := by
  have hkept : ∀ {p : Prop} [Decidable p], (if p then none else t.at? name dir) = some info →
      t.at? name dir = some info := by
    intro p _ hif
    split at hif
    · cases hif
    · exact hif
  cases entry with
  | pkgEntry sDirectory sFileName detectUncovered =>
    simp only [handleEntry] at h
    split at h
    · split at h
      · exact h
      · rw [TrashMap.at?_eraseDir] at h
        exact hkept h
    · rw [TrashMap.at?_eraseDirs] at h
      exact hkept h
  | byHash sDirectory hexname csName =>
    simp only [handleEntry] at h
    split at h
    · exact TrashMap.at?_erase h
    · rw [TrashMap.at?_eraseDir] at h
      exact hkept h

end Expiration

namespace ExpirationRun
open Expiration

theorem candidates_scanned (r : ExpirationRun) : Scanned r.now r.candidates := by
  have hfiles : Scanned r.now (r.files.foldl (processRegular r.cfg r.now) ∅) := by
    refine List.foldlRecOn r.files (processRegular r.cfg r.now) ?_ ?_
    · intro name dir info h
      exact absurd h (by simp [TrashMap.at?_empty])
    · exact fun t ht path _ => processRegular_scanned ht path
  unfold candidates
  refine List.foldlRecOn r.refs (handleEntry r.cfg) hfiles ?_
  exact fun t ht entry _ name dir info h => ht name dir info (handleEntry_sub h)

/-- The path was scanned and is still there when all index files are processed. -/
def Unreferenced (r : ExpirationRun) (sPathRel : Bytes) : Prop :=
  ∃ name dir info, dir ++ name = sPathRel ∧ r.candidates.at? name dir = some info

end ExpirationRun

namespace Expiration

/-- The records that a run finds in the file. -/
def records (now : Int) (pending : Option Bytes) : List PendingRecord :=
  (pending.elim [] fileLines).filterMap (parsePending now)

/-- A file with a date is a candidate, and the date is that of the scan or of a record. -/
def Dated (cands : TrashMap) (recs : List PendingRecord) (name dir : Bytes) (info : DiskFileInfo) :
    Prop :=
  ∃ seen, cands.at? name dir = some seen ∧
    (info.nLostAt = seen.nLostAt ∨
      ∃ rec ∈ recs, rec.name = name ∧ rec.dir = dir ∧ info.nLostAt = rec.timestamp)

theorem Dated.mono {cands : TrashMap} {recs : List PendingRecord} {rec : PendingRecord}
    {name dir : Bytes} {info : DiskFileInfo} (h : Dated cands recs name dir info) :
    Dated cands (recs ++ [rec]) name dir info := by
  obtain ⟨seen, hseen, hdate⟩ := h
  refine ⟨seen, hseen, hdate.imp_right ?_⟩
  rintro ⟨old, hold, hkey⟩
  exact ⟨old, List.mem_append_left _ hold, hkey⟩

/-- Records do not turn anything else into something that can be removed. -/
theorem foldl_loadPending (cands : TrashMap) (recs : List PendingRecord) (name dir : Bytes)
    (info : DiskFileInfo) (h : (recs.foldl loadPending cands).at? name dir = some info)
    (hlost : 0 < info.nLostAt) : Dated cands recs name dir info := by
  induction recs using List.reverseRecOn generalizing name dir info with
  | nil => exact ⟨info, h, .inl rfl⟩
  | append_singleton recs rec ih =>
    rw [List.foldl_append, List.foldl_cons, List.foldl_nil, loadPending, TrashMap.at?_modify] at h
    split at h
    · next hkey =>
      obtain ⟨rfl, rfl⟩ := hkey
      have hinfo := Option.some.inj h
      cases hold : (recs.foldl loadPending cands).at? rec.name rec.dir with
      | none =>
        rw [hold] at hinfo
        subst hinfo
        exact absurd hlost (by simp)
      | some old =>
        rw [hold, Option.getD_some] at hinfo
        split at hinfo
        · next hpos =>
          obtain ⟨seen, hseen, _⟩ := ih rec.name rec.dir old hold hpos
          subst hinfo
          exact ⟨seen, hseen, .inr ⟨rec, List.mem_append_right _ List.mem_cons_self, rfl, rfl, rfl⟩⟩
        · subst hinfo
          exact (ih rec.name rec.dir old hold hlost).mono
    · exact (ih name dir info h hlost).mono

/-- A number that was printed is read up to the tab behind it. -/
theorem strtoull_decDigits (n : Nat) (x : Bytes) (hn : n < 2 ^ 64) (hx : 0 ∉ x) :
    strtoull (decDigits n ++ 9 :: x) = (n, 9 :: x) := by
  have hnul : 0 ∉ (9 : UInt8) :: x := by
    simp [hx]
  rw [decDigits_eq_dec, strtoull_digits (dec_ne n) (dec_digits n) rfl, decimal_dec,
    cstr_eq_self hnul, min_eq_left (by omega)]

/-- A record is read as it was written, or it is skipped because of a tab in the name. -/
theorem parsePending_line {now T : Int} {name dir : Bytes} {rec : PendingRecord}
    (hw : Writable name dir) (h0 : 0 < T) (hT : T < 2 ^ 63)
    (h : parsePending now (decDigits T.toNat ++ 9 :: (dir ++ 9 :: name)) = some rec) :
    rec = ⟨T, dir, name⟩ := by
  have hx : 0 ∉ dir ++ 9 :: name := by
    simp [hw.dir_nul, hw.name_nul]
  have hvalue : (T.toNat : Int) = T := Int.toNat_of_nonneg (by omega)
  unfold parsePending at h
  rw [strtoull_decDigits T.toNat _ (by omega) hx] at h
  simp only [if_pos (show T.toNat < 2 ^ 63 by omega), hvalue] at h
  obtain ⟨_, h⟩ := Option.ite_none_left_eq_some.mp h
  obtain ⟨htab, h⟩ := Option.ite_none_left_eq_some.mp h
  simp only [List.tail_cons, Bool.or_eq_true, not_or, List.contains_iff_mem] at htab h
  have hdir : 9 ∉ dir := by
    -- A tab in the directory would leave another one behind the first.
    intro hmem
    obtain ⟨pre, post, rfl, hpre⟩ := List.eq_append_cons_of_mem hmem
    apply htab.2
    rw [List.append_assoc, List.cons_append, dropWhile_sep _ hpre]
    simp
  have htake := takeWhile_sep name hdir
  have hdrop := dropWhile_sep name hdir
  have hslash : slashed dir = dir := by
    obtain rfl | hlast := hw.slash
    · rfl
    · simp [slashed, hlast]
  rw [htake, hdrop, hslash] at h
  exact (Option.some.inj h).symm

/-- A file that was tagged, with its date. -/
structure TaggedFile (file : Bytes × Bytes × DiskFileInfo) : Prop where
  writable : Writable file.1 file.2.1
  pos : 0 < file.2.2.nLostAt
  lt : file.2.2.nLostAt < 2 ^ 63

theorem TaggedFile.line {name dir : Bytes} {info : DiskFileInfo}
    (h : TaggedFile (name, dir, info)) :
    ∀ c ∈ decDigits info.nLostAt.toNat ++ 9 :: (dir ++ 9 :: name), lineEnd c = false := by
  have hdigits : ∀ c ∈ decDigits info.nLostAt.toNat, lineEnd c = false := by
    intro c hc
    rw [decDigits_eq_dec] at hc
    obtain ⟨_, _, _, _, h13, h10⟩ := isdigit_graph c (dec_digits _ c hc)
    simp [lineEnd, h13, h10]
  simp only [List.forall_mem_append, List.forall_mem_cons]
  exact ⟨hdigits, rfl, h.writable.dir_line, rfl, h.writable.name_line⟩

theorem decDigits_head (n : Nat) (x : Bytes) : (decDigits n ++ x).head?.all (· != 13) = true := by
  rw [decDigits_eq_dec]
  cases hn : dec n with
  | nil => exact absurd hn (dec_ne n)
  | cons d ds =>
    have hd := isdigit_graph d (dec_digits n d (hn ▸ List.mem_cons_self))
    exact bne_iff_ne.mpr hd.2.2.2.2.1

theorem pendingLines_head (files : List (Bytes × Bytes × DiskFileInfo)) :
    (files.flatMap (fun file => pendingLine file.1 file.2.1 file.2.2)).head?.all (· != 13) = true := by
  cases files with
  | nil => rfl
  | cons file files =>
    rw [List.flatMap_cons, pendingLine]
    simp only [List.append_assoc]
    exact decDigits_head _ _

/-- Every record that is found in a file that was written is one of those that were. -/
theorem records_pending {now : Int} {files : List (Bytes × Bytes × DiskFileInfo)}
    (hfiles : ∀ file ∈ files, TaggedFile file) {rec : PendingRecord}
    (h : rec ∈ records now
      (some (files.flatMap (fun file => pendingLine file.1 file.2.1 file.2.2)))) :
    ∃ file ∈ files, rec = ⟨file.2.2.nLostAt, file.2.1, file.1⟩ := by
  induction files with
  | nil => exact absurd h (by simp [records, fileLines, parsePending, strtoull, sign, cstr])
  | cons file files ih =>
    obtain ⟨hfile, htail⟩ := List.forall_mem_cons.mp hfiles
    obtain ⟨name, dir, info⟩ := file
    have hlines : fileLines (((name, dir, info) :: files).flatMap
          (fun file => pendingLine file.1 file.2.1 file.2.2)) =
        (decDigits info.nLostAt.toNat ++ 9 :: (dir ++ 9 :: name)) ::
          fileLines (files.flatMap (fun file => pendingLine file.1 file.2.1 file.2.2)) := by
      rw [List.flatMap_cons, pendingLine, cstr_eq_self hfile.writable.name_nul,
        cstr_eq_self hfile.writable.dir_nul]
      simp only [List.append_assoc, List.cons_append, List.nil_append]
      rw [← fileLines_line (decDigits info.nLostAt.toNat ++ 9 :: (dir ++ 9 :: name)) _ ?_ ?_]
      · simp only [List.append_assoc, List.cons_append]
      · exact hfile.line
      · exact pendingLines_head files
    unfold records at h
    rw [Option.elim_some, hlines, List.filterMap_cons] at h
    have hrest : rec ∈ records now (some (files.flatMap
        (fun file => pendingLine file.1 file.2.1 file.2.2))) →
        ∃ file ∈ (name, dir, info) :: files, rec = ⟨file.2.2.nLostAt, file.2.1, file.1⟩ := by
      intro hrec
      obtain ⟨file, hmem, heq⟩ := ih htail hrec
      exact ⟨file, List.mem_cons_of_mem _ hmem, heq⟩
    split at h
    · exact hrest h
    · next hparse =>
      obtain rfl | h := List.mem_cons.mp h
      · exact ⟨_, List.mem_cons_self, parsePending_line hfile.writable hfile.pos hfile.lt hparse⟩
      · exact hrest h

/-- Only what has a date is tagged or removed, and it is removed if the date is old enough. -/
theorem fate_date {cfg : RemovalCfg} {now : Int} {name dir : Bytes} {desc : DiskFileInfo}
    (h : fate cfg false now name dir desc ≠ .skipped) :
    0 < desc.nLostAt ∧
      (fate cfg false now name dir desc = .removed ↔
        desc.nLostAt < now - (cfg.extreshhold * 86400).toInt) := by
  unfold fate timeExpired at *
  dsimp only at *
  split at h
  · exact absurd rfl h
  · next hkeep =>
    rw [if_neg hkeep]
    split at h
    · exact absurd rfl h
    · next hdate =>
      rw [if_neg hdate]
      refine ⟨by omega, ?_⟩
      simp only [Bool.false_or, decide_eq_true_eq]
      split <;> simp_all

end Expiration

namespace ExpirationRun
open Expiration

/-- The settings of the runs: the threshold, and no versions are kept. -/
structure Settings (extreshhold : Int32) (r : ExpirationRun) : Prop where
  threshold : r.removal.extreshhold = extreshhold
  keepnver : r.removal.keepnver = 0

/-- The record file after some runs. There is none in the beginning. -/
def pendingOf (runs : List ExpirationRun) : Option Bytes := runs.foldl pendingAfter none

/-- The candidates with their dates when it is decided about them. -/
def loaded (r : ExpirationRun) (pending : Option Bytes) : TrashMap :=
  loadPreviousData r.now r.candidates pending

def withFate (r : ExpirationRun) (pending : Option Bytes) (f : Fate) :
    List (Bytes × Bytes × DiskFileInfo) :=
  (r.loaded pending).files.filter (fun file =>
    fate r.removal false r.now file.1 file.2.1 file.2.2 == f)

theorem result_eq {extreshhold : Int32} {r : ExpirationRun} (h : Settings extreshhold r)
    (pending : Option Bytes) :
    r.result pending =
      { removed := (r.withFate pending .removed).map (fun file => file.2.1 ++ file.1)
        tagged := (r.withFate pending .tagged).map (fun file => file.2.1 ++ file.1)
        pending := some ((r.withFate pending .tagged).flatMap
          (fun file => pendingLine file.1 file.2.1 file.2.2)) } := by
  have hdrop (t : TrashMap) :
      dropExceptionalVersions r.removal.tools r.removal.keepnver r.now t = ([], t) := by
    unfold dropExceptionalVersions
    rw [if_pos (by simp [h.keepnver])]
  unfold result removeAndStoreStatus
  simp only [Bool.false_eq_true, if_false, hdrop]
  rfl

theorem mem_removed {extreshhold : Int32} {r : ExpirationRun} (h : Settings extreshhold r)
    {pending : Option Bytes} {name dir : Bytes} {desc : DiskFileInfo}
    (hfile : (name, dir, desc) ∈ r.withFate pending .removed) :
    dir ++ name ∈ (r.result pending).removed := by
  rw [result_eq h]
  exact List.mem_map_of_mem (f := fun file => file.2.1 ++ file.1) hfile

/-- Where the date of a file comes from that is tagged or removed. -/
theorem withFate_dated {r : ExpirationRun} {pending : Option Bytes} {f : Fate}
    (hf : f ≠ .skipped) {name dir : Bytes} {desc : DiskFileInfo}
    (h : (name, dir, desc) ∈ r.withFate pending f) :
    0 < desc.nLostAt ∧ Writable name dir ∧ r.Unreferenced (dir ++ name) ∧
      (f = .removed ↔ desc.nLostAt < r.now - (r.removal.extreshhold * 86400).toInt) ∧
      (desc.nLostAt = r.now ∨ ∃ rec ∈ records r.now pending,
        rec.name = name ∧ rec.dir = dir ∧ desc.nLostAt = rec.timestamp) := by
  obtain ⟨hmem, hfate⟩ := List.mem_filter.mp h
  have hfate := eq_of_beq hfate
  obtain ⟨hpos, hremoved⟩ := fate_date (hfate ▸ hf)
  rw [hfate] at hremoved
  obtain ⟨seen, hseen, hdate⟩ :=
    foldl_loadPending r.candidates _ name dir desc (TrashMap.mem_files.mp hmem) hpos
  obtain ⟨hnow, hwritable⟩ := r.candidates_scanned name dir seen hseen
  rw [hnow] at hdate
  exact ⟨hpos, hwritable, ⟨name, dir, seen, rfl, hseen⟩, hremoved, hdate⟩

/-- A run has tagged the path for the first time, and all completed runs since then have found it
unreferenced. -/
structure TaggedSince (runs before between : List ExpirationRun) (r₀ : ExpirationRun)
    (sPathRel : Bytes) : Prop where
  split : runs = before ++ r₀ :: between
  completed : r₀.ending = .completed
  unreferenced : r₀.Unreferenced sPathRel
  tagged : sPathRel ∈ (r₀.result (pendingOf before)).tagged
  since : ∀ r ∈ between, r.ending = .completed → r.Unreferenced sPathRel

theorem TaggedSince.snoc {runs before between : List ExpirationRun} {r₀ r : ExpirationRun}
    {sPathRel : Bytes} (h : TaggedSince runs before between r₀ sPathRel)
    (hr : r.ending = .completed → r.Unreferenced sPathRel) :
    TaggedSince (runs ++ [r]) before (between ++ [r]) r₀ sPathRel := by
  refine ⟨by simp [h.split], h.completed, h.unreferenced, h.tagged, fun r' hr' => ?_⟩
  obtain hr' | hr' := List.mem_append.mp hr'
  · exact h.since r' hr'
  · obtain rfl := List.mem_singleton.mp hr'
    exact hr

/-- What the records in the file say after some runs. -/
def RecordsSound (runs : List ExpirationRun) : Prop :=
  ∀ now, ∀ rec ∈ records now (pendingOf runs), ∃ before r₀ between,
    TaggedSince runs before between r₀ (rec.dir ++ rec.name) ∧ r₀.now = rec.timestamp

/-- The step lemma: a completed run passes on the records of what it finds unreferenced. -/
theorem recordsSound_completed {extreshhold : Int32} {runs : List ExpirationRun}
    {r : ExpirationRun} (hset : Settings extreshhold r) (hruns : RecordsSound runs)
    (hr : r.ending = .completed) : RecordsSound (runs ++ [r]) := by
  have hpending : pendingOf (runs ++ [r]) = some ((r.withFate (pendingOf runs) .tagged).flatMap
      (fun file => pendingLine file.1 file.2.1 file.2.2)) := by
    have hafter : pendingOf (runs ++ [r]) = r.pendingAfter (pendingOf runs) := by
      simp [pendingOf]
    rw [hafter, pendingAfter, hr, result_eq hset]
  have hsource : ∀ file ∈ r.withFate (pendingOf runs) .tagged, ∃ before r₀ between,
      TaggedSince (runs ++ [r]) before between r₀ (file.2.1 ++ file.1) ∧
        r₀.now = file.2.2.nLostAt := by
    rintro ⟨name, dir, desc⟩ hfile
    obtain ⟨_, _, hunref, _, hnew | ⟨rec, hrec, rfl, rfl, hdate⟩⟩ := withFate_dated (by simp) hfile
    · refine ⟨runs, r, [], ⟨rfl, hr, hunref, ?_, by simp⟩, hnew.symm⟩
      rw [result_eq hset]
      exact List.mem_map_of_mem hfile
    · obtain ⟨before, r₀, between, hsince, hnow⟩ := hruns r.now rec hrec
      exact ⟨before, r₀, between ++ [r], hsince.snoc (fun _ => hunref), hnow.trans hdate.symm⟩
  have htagged : ∀ file ∈ r.withFate (pendingOf runs) .tagged, TaggedFile file := by
    intro file hfile
    obtain ⟨hpos, hwritable, _⟩ := withFate_dated (by simp) hfile
    obtain ⟨_, r₀, _, _, hnow⟩ := hsource file hfile
    exact ⟨hwritable, hpos, hnow ▸ r₀.now_lt⟩
  intro now rec hrec
  rw [hpending] at hrec
  obtain ⟨file, hfile, rfl⟩ := records_pending htagged hrec
  exact hsource file hfile

/-- The run lemma. -/
theorem recordsSound {extreshhold : Int32} {runs : List ExpirationRun}
    (h : ∀ r ∈ runs, Settings extreshhold r) : RecordsSound runs := by
  induction runs using List.reverseRecOn with
  | nil => exact fun now rec hrec => absurd hrec List.not_mem_nil
  | append_singleton runs r ih =>
    obtain ⟨hruns, hr⟩ := List.forall_mem_append.mp h
    have hsound := ih hruns
    have hkept (hafter : pendingOf (runs ++ [r]) = pendingOf runs) (hend : r.ending ≠ .completed) :
        RecordsSound (runs ++ [r]) := by
      intro now rec hrec
      rw [hafter] at hrec
      obtain ⟨before, r₀, between, hsince, hnow⟩ := hsound now rec hrec
      exact ⟨before, r₀, between ++ [r], hsince.snoc (fun hr => absurd hr hend), hnow⟩
    cases hend : r.ending with
    | aborted => exact hkept (by simp [pendingOf, pendingAfter, hend]) (by simp [hend])
    | noPendingFile lost =>
      cases lost with
      | true =>
        intro now rec hrec
        have hnone : pendingOf (runs ++ [r]) = none := by
          simp [pendingOf, pendingAfter, hend]
        rw [hnone] at hrec
        exact absurd hrec List.not_mem_nil
      | false => exact hkept (by simp [pendingOf, pendingAfter, hend]) (by simp [hend])
    | completed => exact recordsSound_completed (hr r List.mem_cons_self) hsound hend

/-- A removed file was tagged long ago and has been unreferenced ever since, and no record of a path
survives a run that has found it referenced. A file goes together with its head file. -/
structure Aged (extreshhold : Int32) (before : List ExpirationRun) (r : ExpirationRun) : Prop where
  removed : ∀ sPathRel ∈ (r.result (pendingOf before)).removed, r.Unreferenced sPathRel ∧
    ∃ front r₀ between, TaggedSince before front between r₀ sPathRel ∧
      r₀.now < r.now - extreshhold.toInt * 86400
  dropped : ∀ sPathRel, ¬ r.Unreferenced sPathRel → ∀ now,
    ∀ rec ∈ records now (pendingOf (before ++ [r])), rec.dir ++ rec.name ≠ sPathRel

/-- Runs with the same settings, one after the other, on names without tabs. -/
structure RegularRuns (extreshhold : Int32) (runs : List ExpirationRun) : Prop where
  settings : ∀ r ∈ runs, Settings extreshhold r
  clock : runs.Pairwise (fun r r' => r.now ≤ r'.now)
  names : ∀ r ∈ runs, ∀ path ∈ r.files, (9 : UInt8) ∉ path.sPathRel

def AllAged (extreshhold : Int32) (runs : List ExpirationRun) : Prop :=
  ∀ before r after, runs = before ++ r :: after → r.ending = .completed →
    Aged extreshhold before r

theorem TaggedSince.last {runs before between : List ExpirationRun} {r₀ r : ExpirationRun}
    {sPathRel : Bytes} (h : TaggedSince (runs ++ [r]) before between r₀ sPathRel)
    (hr : r.ending = .completed) : r.Unreferenced sPathRel := by
  obtain rfl | ⟨between, r', rfl⟩ := List.eq_nil_or_concat between
  · obtain ⟨_, hlast⟩ := List.append_inj' h.split rfl
    obtain rfl := List.singleton_inj.mp hlast
    exact h.unreferenced
  · have hsplit := h.split
    rw [List.concat_eq_append, ← List.cons_append, ← List.append_assoc] at hsplit
    obtain ⟨_, hlast⟩ := List.append_inj' hsplit rfl
    obtain rfl := List.singleton_inj.mp hlast
    exact h.since r (by simp) hr

/-- The product that the code computes has to be what it stands for, as far as it makes the waiting
period shorter. -/
theorem aged_of_threshold {extreshhold : Int32} {before : List ExpirationRun} {r : ExpirationRun}
    (hpos : 0 ≤ (extreshhold * 86400).toInt)
    (hex : extreshhold.toInt * 86400 ≤ (extreshhold * 86400).toInt)
    (hset : ∀ r' ∈ before ++ [r], Settings extreshhold r') (hr : r.ending = .completed) :
    Aged extreshhold before r := by
  obtain ⟨hbefore, hrset⟩ := List.forall_mem_append.mp hset
  have hrset := hrset r List.mem_cons_self
  refine ⟨fun sPathRel hremoved => ?_, fun sPathRel href now rec hrec heq => ?_⟩
  · rw [result_eq hrset] at hremoved
    obtain ⟨⟨name, dir, desc⟩, hfile, rfl⟩ := List.mem_map.mp hremoved
    obtain ⟨_, _, hunref, hold, hsource⟩ := withFate_dated (by simp) hfile
    have hold := hold.mp rfl
    rw [hrset.threshold] at hold
    refine ⟨hunref, ?_⟩
    obtain hnew | ⟨rec, hrec, rfl, rfl, hdate⟩ := hsource
    · omega
    · obtain ⟨front, r₀, between, hsince, hnow⟩ := recordsSound hbefore r.now rec hrec
      exact ⟨front, r₀, between, hsince, by omega⟩
  · obtain ⟨front, r₀, between, hsince, _⟩ := recordsSound hset now rec hrec
    rw [heq] at hsince
    exact href (hsince.last hr)

/-- A run on a cache with one unreferenced file. -/
def lonely (extreshhold : Int32) (now : Int) (now_lt : now < 2 ^ 63) : ExpirationRun where
  now := now
  now_lt := now_lt
  cfg := { isVolatile := fun _ => false, addIFileCandidate := fun _ => false }
  removal :=
    { extreshhold, isWhitelisted := fun _ => false, forceKeepInTrash := fun _ => false
      managedDirs := fun _ => false }
  files := [⟨lit "x", by decide⟩]
  refs := []
  ending := .completed

section Lonely

variable {extreshhold : Int32} {now : Int} {now_lt : now < 2 ^ 63}

theorem lonely_settings : Settings extreshhold (lonely extreshhold now now_lt) := ⟨rfl, rfl⟩

theorem lonely_candidates :
    (lonely extreshhold now now_lt).candidates = (∅ : TrashMap).modify (lit "x") [] (fun _ => ⟨now⟩) :=
  rfl

theorem lonely_fate (desc : DiskFileInfo) (hpos : 0 < desc.nLostAt) :
    fate (lonely extreshhold now now_lt).removal false now (lit "x") [] desc =
      if desc.nLostAt < now - (extreshhold * 86400).toInt then .removed else .tagged := by
  simp [fate, lonely, timeExpired, not_le.mpr hpos]

/-- The date of the file in such a run. -/
theorem lonely_withFate {pending : Option Bytes} {desc : DiskFileInfo} (hpos : 0 < desc.nLostAt)
    (hdesc : ((lonely extreshhold now now_lt).loaded pending).at? (lit "x") [] = some desc)
    {f : Fate}
    (hf : (if desc.nLostAt < now - (extreshhold * 86400).toInt then Fate.removed else .tagged) = f) :
    (lit "x", [], desc) ∈ (lonely extreshhold now now_lt).withFate pending f := by
  refine List.mem_filter.mpr ⟨TrashMap.mem_files.mpr hdesc, ?_⟩
  exact beq_iff_eq.mpr ((lonely_fate desc hpos).trans hf)

theorem lonely_first : ((lonely extreshhold now now_lt).loaded none).at? (lit "x") [] = some ⟨now⟩ := by
  change (lonely extreshhold now now_lt).candidates.at? (lit "x") [] = some ⟨now⟩
  rw [lonely_candidates, TrashMap.at?_modify_self]

/-- The file is removed at once. -/
theorem lonely_removed_first (hpos : 0 < now) (h : (extreshhold * 86400).toInt < 0) :
    lit "x" ∈ ((lonely extreshhold now now_lt).result none).removed := by
  have hdate : (⟨now⟩ : DiskFileInfo).nLostAt < now - (extreshhold * 86400).toInt := by
    change now < _
    omega
  exact mem_removed lonely_settings
    (lonely_withFate (f := .removed) hpos lonely_first (if_pos hdate))

theorem lonely_pending (h : 0 ≤ (extreshhold * 86400).toInt) (h1 : (1 : Int) < 2 ^ 63) :
    pendingOf [lonely extreshhold 1 h1] = some (lit "1" ++ 9 :: 9 :: lit "x" ++ [10]) := by
  have hfiles : (lonely extreshhold 1 h1).withFate none .tagged = [(lit "x", [], ⟨1⟩)] := by
    have hall : ((lonely extreshhold 1 h1).loaded none).files = [(lit "x", [], ⟨1⟩)] := rfl
    have hfate : fate (lonely extreshhold 1 h1).removal false 1 (lit "x") [] ⟨1⟩ = .tagged :=
      (lonely_fate ⟨1⟩ (by decide)).trans (if_neg (by simp only; omega))
    unfold withFate
    rw [hall]
    exact List.filter_cons_of_pos (beq_iff_eq.mpr hfate)
  have hafter : pendingOf [lonely extreshhold 1 h1] =
      ((lonely extreshhold 1 h1).result none).pending := rfl
  have hline : [(lit "x", [], ⟨1⟩)].flatMap
      (fun file : Bytes × Bytes × DiskFileInfo => pendingLine file.1 file.2.1 file.2.2) =
      lit "1" ++ 9 :: 9 :: lit "x" ++ [10] := by
    decide
  rw [hafter, result_eq lonely_settings, hfiles]
  exact congrArg some hline

/-- The file is removed in the second run, however short the time in between. -/
theorem lonely_removed_second (h : 0 ≤ (extreshhold * 86400).toInt) (h1 : (1 : Int) < 2 ^ 63)
    (hnow : now = 2 + (extreshhold * 86400).toInt) :
    lit "x" ∈ ((lonely extreshhold now now_lt).result
      (pendingOf [lonely extreshhold 1 h1])).removed := by
  have hrecords : records now (pendingOf [lonely extreshhold 1 h1]) = [⟨1, [], lit "x"⟩] := by
    have hlines : fileLines (lit "1" ++ 9 :: 9 :: lit "x" ++ [10]) =
        [lit "1" ++ 9 :: 9 :: lit "x", []] := by
      decide
    have hline : strtoull (lit "1" ++ 9 :: 9 :: lit "x") = (1, 9 :: 9 :: lit "x") := by
      decide
    have hfirst : parsePending now (lit "1" ++ 9 :: 9 :: lit "x") = some ⟨1, [], lit "x"⟩ := by
      have hnow : ¬ now < 1 := by omega
      unfold parsePending
      rw [hline]
      have hx : (9 : UInt8) ∉ lit "x" := by decide
      simp [hnow, slashed, hx]
    have hsecond : parsePending now [] = none := rfl
    rw [lonely_pending h h1, records, Option.elim_some, hlines,
      List.filterMap_cons_some hfirst, List.filterMap_cons_none hsecond, List.filterMap_nil]
  have hloaded : ((lonely extreshhold now now_lt).loaded
      (pendingOf [lonely extreshhold 1 h1])).at? (lit "x") [] = some ⟨1⟩ := by
    change ((records now _).foldl loadPending (lonely extreshhold now now_lt).candidates).at? _ _ = _
    rw [hrecords, List.foldl_cons, List.foldl_nil, loadPending, TrashMap.at?_modify_self,
      lonely_candidates, TrashMap.at?_modify_self]
    exact congrArg some (if_pos (show 0 < now by omega))
  have hdate : (⟨1⟩ : DiskFileInfo).nLostAt < now - (extreshhold * 86400).toInt := by
    change (1 : Int) < _
    omega
  have hmem := lonely_withFate (f := .removed) (by decide) hloaded (if_pos hdate)
  exact mem_removed lonely_settings hmem

end Lonely

theorem lonely_regular {extreshhold : Int32} {runs : List ExpirationRun}
    (hruns : ∀ r ∈ runs, ∃ now now_lt, r = lonely extreshhold now now_lt)
    (hclock : runs.Pairwise (fun r r' => r.now ≤ r'.now)) : RegularRuns extreshhold runs := by
  refine ⟨fun r hr => ?_, hclock, fun r hr path hpath => ?_⟩
  · obtain ⟨now, now_lt, rfl⟩ := hruns r hr
    exact lonely_settings
  · obtain ⟨now, now_lt, rfl⟩ := hruns r hr
    obtain rfl := List.mem_singleton.mp hpath
    decide

/-- With a negative threshold the first run removes everything. -/
theorem not_allAged_of_neg {extreshhold : Int32} (h : (extreshhold * 86400).toInt < 0) :
    ¬ ∀ runs, RegularRuns extreshhold runs → AllAged extreshhold runs := by
  intro hall
  have h1 : (1 : Int) < 2 ^ 63 := by decide
  have hregular : RegularRuns extreshhold [lonely extreshhold 1 h1] :=
    lonely_regular (List.forall_mem_singleton.mpr ⟨1, h1, rfl⟩) (List.pairwise_singleton _ _)
  have haged := hall _ hregular [] (lonely extreshhold 1 h1) [] rfl rfl
  obtain ⟨_, front, r₀, between, hsince, _⟩ :=
    haged.removed (lit "x") (lonely_removed_first (by decide) h)
  exact absurd hsince.split (by simp)

/-- With a threshold that is too short the second run removes too early. -/
theorem not_allAged_of_short {extreshhold : Int32} (hpos : 0 ≤ (extreshhold * 86400).toInt)
    (h : (extreshhold * 86400).toInt < extreshhold.toInt * 86400) :
    ¬ ∀ runs, RegularRuns extreshhold runs → AllAged extreshhold runs := by
  intro hall
  have h1 : (1 : Int) < 2 ^ 63 := by decide
  have h2 : 2 + (extreshhold * 86400).toInt < 2 ^ 63 := by
    have hmax := (extreshhold * 86400).toInt_lt
    omega
  have hregular : RegularRuns extreshhold
      [lonely extreshhold 1 h1, lonely extreshhold (2 + (extreshhold * 86400).toInt) h2] := by
    refine lonely_regular (List.forall_mem_cons.mpr
      ⟨⟨1, h1, rfl⟩, List.forall_mem_singleton.mpr ⟨_, h2, rfl⟩⟩) (List.pairwise_pair.mpr ?_)
    change (1 : Int) ≤ 2 + _
    omega
  have haged := hall _ hregular [lonely extreshhold 1 h1] _ [] rfl rfl
  obtain ⟨_, front, r₀, between, hsince, hold⟩ :=
    haged.removed (lit "x") (lonely_removed_second hpos h1 rfl)
  have hnow : r₀.now = 1 := by
    have hmem : r₀ ∈ [lonely extreshhold 1 h1] := by
      rw [hsince.split]
      simp
    obtain rfl := List.mem_singleton.mp hmem
    rfl
  rw [hnow] at hold
  change 1 < 2 + (extreshhold * 86400).toInt - _ at hold
  omega

/-- Nothing is removed before its time exactly if the threshold in seconds, as `int` computes it,
is not negative and not less than it should be. -/
theorem allAged_iff (extreshhold : Int32) :
    (∀ runs, RegularRuns extreshhold runs → AllAged extreshhold runs) ↔
      0 ≤ (extreshhold * 86400).toInt ∧
        extreshhold.toInt * 86400 ≤ (extreshhold * 86400).toInt := by
  constructor
  · intro h
    have hpos : 0 ≤ (extreshhold * 86400).toInt :=
      not_lt.mp (fun hneg => not_allAged_of_neg hneg h)
    exact ⟨hpos, not_lt.mp (fun hshort => not_allAged_of_short hpos hshort h)⟩
  · rintro ⟨hpos, hex⟩ runs hregular before r after rfl hr
    refine aged_of_threshold hpos hex (fun r' hr' => hregular.settings r' ?_) hr
    rw [List.append_cons]
    exact List.mem_append_left _ hr'

/-- With a threshold of 82 years a file is removed by the run that finds it first. -/
theorem thirty_thousand_days_removes :
    ¬ ∀ runs, RegularRuns 30000 runs → AllAged 30000 runs :=
  not_allAged_of_neg (by decide)

end ExpirationRun

end Acng
