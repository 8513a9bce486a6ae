import Acng.Proofs.MetaFiles
import Acng.Validation

namespace Acng
open Lib

theorem MetaFiles.getFlags_touch (m : MetaFiles) (path path' : Bytes) :
    (m.setFlags path id).getFlags path' = m.getFlags path' := by
  unfold MetaFiles.setFlags
  split
  · rfl
  · have hlookup := OrdMap.lookup_insert bytesLt path path' (m.getFlags path) m.entries
    unfold MetaFiles.getFlags MetaFiles.find? at hlookup ⊢
    refine (congrArg (fun f => Option.getD f {}) hlookup).trans ?_
    by_cases hp : path' = path
    · rw [if_pos hp, hp]
      rfl
    · rw [if_neg hp]

theorem Keyed.split {dir name : Bytes} (h : Keyed dir name) : splitDirPath (dir ++ name) = (dir, name) := by
  obtain ⟨hname, rfl | ⟨d, rfl⟩⟩ := h
  · have hpos : rfind 47 name = none := rfind_eq_none.mpr hname
    simp only [List.nil_append, splitDirPath, hpos]
  · exact splitDirPath_name d hname

theorem Keyed.inj {dir name dir' name' : Bytes} (h : Keyed dir name) (h' : Keyed dir' name')
    (heq : dir ++ name = dir' ++ name') : dir = dir' ∧ name = name' := by
  have := h.split.symm.trans ((congrArg splitDirPath heq).trans h'.split)
  exact Prod.mk.inj this

/-- The file of such a name is the head file of another one. -/
def headNamed (name : Bytes) : Bool := (lit ".head").isSuffixOf name

theorem Keyed.head {dir name : Bytes} (h : Keyed dir name) : Keyed dir (name ++ lit ".head") :=
  ⟨fun hmem => (List.mem_append.mp hmem).elim h.1 (by decide), h.2⟩

theorem Keyed.ne_head {dir name dir' name' : Bytes} (h : Keyed dir name) (h' : Keyed dir' name')
    (hhead : headNamed name' = false) : dir' ++ name' ≠ dir ++ name ++ lit ".head" := by
  intro heq
  rw [List.append_assoc] at heq
  obtain ⟨-, rfl⟩ := h'.inj h.head heq
  rw [headNamed, List.isSuffixOf_iff_suffix.mpr (List.suffix_append _ _)] at hhead
  cases hhead

namespace Validation

variable {cfg : ValidationCfg} {st : Validation} {m_processedIfile : Bytes} {entry : RemoteFileInfo}

section Act

variable (cfg st m_processedIfile) (sPathRel : Bytes) (verdict : Verdict)

theorem act_parseignore (path : Bytes) :
    (act cfg m_processedIfile sPathRel st verdict).files.getFlags path = st.files.getFlags path := by
  cases verdict with
  | truncated =>
    simp only [act]
    split <;> exact MetaFiles.getFlags_touch _ _ _
  | covered size => exact MetaFiles.getFlags_touch _ _ _
  | _ => rfl

theorem act_forced {path : Bytes} (h : path ≠ sPathRel) :
    (act cfg m_processedIfile sPathRel st verdict).forceKeepInTrash path = st.forceKeepInTrash path := by
  cases verdict with
  | inaccessible => exact Function.update_of_ne h _ _
  | truncated =>
    simp only [act]
    split <;> rfl
  | _ => rfl

theorem act_damageList : ∃ more, (act cfg m_processedIfile sPathRel st verdict).damageList =
    st.damageList.map (· ++ more) := by
  cases verdict with
  | damaged unlinkHead => exact ⟨[sPathRel], rfl⟩
  | truncated =>
    simp only [act]
    split <;> exact ⟨[], by simp [addSpace]⟩
  | _ => exact ⟨[], by simp [act, addSpace]⟩

/-- Apart from its head file, a file is touched for a truncation only. -/
theorem act_disk {path : Bytes} (h : path = sPathRel → verdict.stays = true)
    (hhead : path ≠ sPathRel ++ lit ".head") :
    (act cfg m_processedIfile sPathRel st verdict).disk path = st.disk path := by
  cases verdict with
  | damaged unlinkHead =>
    cases unlinkHead with
    | false => rfl
    | true => exact Function.update_of_ne hhead _ _
  | truncated =>
    have hne : path ≠ sPathRel := fun heq => Bool.false_ne_true (h heq)
    simp only [act]
    split
    · rfl
    · exact (Function.update_of_ne hhead _ _).trans (Function.update_of_ne hne _ _)
  | _ => rfl

end Act

section Detect

variable (cfg st entry) (sPathRel : Bytes) (descHave : Candidate)

theorem checkHead_damaged {lenFromStat : Int} {verdict : Verdict}
    (h : checkHead cfg st entry sPathRel descHave lenFromStat = some verdict) :
    ∃ unlinkHead, verdict = .damaged unlinkHead := by
  unfold checkHead at h
  split at h
  · cases h
  · split at h
    · cases h
    · dsimp only at h
      split at h
      · exact ⟨false, (Option.some.inj h).symm⟩
      · split at h
        · exact ⟨true, (Option.some.inj h).symm⟩
        · cases h

/-- The fingerprint of the file is the one there was, or that of what is read now. -/
def Reads (fpr : Fingerprint) : Prop :=
  fpr = descHave.fpr ∨ ∃ data, st.disk sPathRel = some (.readable data) ∧
    fpr = Fingerprint.scan cfg.hash entry.fpr.csType data

/-- What `DetectUncovered` goes by, in the order of its checks. -/
inductive Detects : Verdict × Candidate → Prop
  | forced (h : st.forceKeepInTrash sPathRel = true) : Detects (.forced, descHave)
  | inaccessible (h : st.disk sPathRel = none) : Detects (.inaccessible, descHave)
  | parseignore (file : CacheFile) (hdisk : st.disk sPathRel = some file)
      (h : (st.files.getFlags sPathRel).parseignore = true) :
      Detects (handleIncomplete cfg file.size, descHave)
  | head (unlinkHead : Bool) : Detects (.damaged unlinkHead, descHave)
  | oversize (file : CacheFile) (hdisk : st.disk sPathRel = some file)
      (h : entry.fpr.size < file.size) : Detects (reportOversize cfg sPathRel file.size, descHave)
  | incomplete (file : CacheFile) (hdisk : st.disk sPathRel = some file)
      (h : file.size < entry.fpr.size) : Detects (handleIncomplete cfg file.size, descHave)
  | unchecked (file : CacheFile) (h : cfg.bByChecksum = false) :
      Detects (.covered file.size, descHave)
  | release (file : CacheFile)
      (h : entry.sFileName = lit "Release" ∨ entry.sFileName = lit "InRelease") :
      Detects (compareSize cfg entry sPathRel descHave file.size, descHave)
  | unread (file : CacheFile) (hdisk : st.disk sPathRel = some file) (desc : Candidate)
      (h : entry.fpr.csType.len = 0 ∨ ∃ st_size, file = .unreadable st_size) :
      Detects (.ignored, desc)
  | mismatch (fpr : Fingerprint) (h : Reads cfg st entry sPathRel descHave fpr) :
      Detects (.damaged false, { descHave with fpr })
  | compared (file : CacheFile) (hdisk : st.disk sPathRel = some file) (fpr : Fingerprint)
      (h : Reads cfg st entry sPathRel descHave fpr) (htype : fpr.csType = entry.fpr.csType)
      (heq : fpr.csEquals entry.fpr = true) :
      Detects (compareSize cfg entry sPathRel { descHave with fpr } file.size, { descHave with fpr })

theorem compareFingerprint_detects {file : CacheFile} (hdisk : st.disk sPathRel = some file) :
    Detects cfg st entry sPathRel descHave (compareFingerprint cfg entry sPathRel file descHave) := by
  have hcompared : ∀ fpr : Fingerprint, Reads cfg st entry sPathRel descHave fpr →
      fpr.csType = entry.fpr.csType →
      Detects cfg st entry sPathRel descHave
        (if !fpr.csEquals entry.fpr then (.damaged false, { descHave with fpr })
          else (compareSize cfg entry sPathRel { descHave with fpr } file.size,
            { descHave with fpr })) := by
    intro fpr hreads htype
    cases heq : fpr.csEquals entry.fpr with
    | false => exact .mismatch fpr hreads
    | true => exact .compared file hdisk fpr hreads htype heq
  cases hname : entry.sFileName == lit "Release" || entry.sFileName == lit "InRelease" with
  | true =>
    rw [compareFingerprint, if_pos hname]
    exact .release file (by simpa using hname)
  | false =>
    simp only [compareFingerprint, hname, Bool.false_eq_true, if_false]
    by_cases htype : entry.fpr.csType = descHave.fpr.csType
    · rw [if_pos htype]
      exact hcompared descHave.fpr (.inl rfl) htype.symm
    · rw [if_neg htype]
      by_cases hlen : entry.fpr.csType.len = 0
      · have hscan : descHave.fpr.scanFile cfg.hash file entry.fpr.csType = (false, descHave.fpr) :=
          if_pos hlen
        rw [hscan]
        exact .unread file hdisk _ (.inl hlen)
      · cases file with
        | unreadable st_size =>
          have hscan : descHave.fpr.scanFile cfg.hash (.unreadable st_size) entry.fpr.csType =
              (false, { descHave.fpr with csType := entry.fpr.csType }) := if_neg hlen
          rw [hscan]
          exact .unread _ hdisk _ (.inr ⟨st_size, rfl⟩)
        | readable data =>
          have hscan : descHave.fpr.scanFile cfg.hash (.readable data) entry.fpr.csType =
              (true, Fingerprint.scan cfg.hash entry.fpr.csType data) := if_neg hlen
          rw [hscan]
          exact hcompared _ (.inr ⟨data, hdisk, rfl⟩) rfl

theorem detectUncovered_detects :
    Detects cfg st entry sPathRel descHave (detectUncovered cfg st entry sPathRel descHave) := by
  cases hforced : st.forceKeepInTrash sPathRel with
  | true =>
    rw [detectUncovered, if_pos hforced]
    exact .forced hforced
  | false =>
    cases hdisk : st.disk sPathRel with
    | none =>
      simp only [detectUncovered, hforced, hdisk, Bool.false_eq_true, if_false]
      exact .inaccessible hdisk
    | some file =>
      simp only [detectUncovered, hforced, hdisk, Bool.false_eq_true, if_false]
      cases hignore : (st.files.getFlags sPathRel).parseignore with
      | true => exact .parseignore file hdisk hignore
      | false =>
        simp only [Bool.false_eq_true, if_false]
        cases hhead : checkHead cfg st entry sPathRel descHave file.size with
        | some verdict =>
          obtain ⟨unlinkHead, rfl⟩ := checkHead_damaged cfg st entry sPathRel descHave hhead
          exact .head unlinkHead
        | none =>
          simp only [Bool.and_eq_true, decide_eq_true_eq, Bool.not_eq_true']
          split
          · rename_i h
            exact .oversize file hdisk h.2
          · split
            · rename_i h
              exact .incomplete file hdisk h.2
            · split
              · rename_i h
                exact .unchecked file h
              · split
                · rename_i h
                  exact .incomplete file hdisk h.2
                · exact compareFingerprint_detects cfg st entry sPathRel descHave hdisk

end Detect

variable {sPathRel : Bytes} {descHave : Candidate} {d : Verdict × Candidate}

/-- Files that were not downloaded in full may go, to be truncated or not. -/
def Tolerates (cfg : ValidationCfg) : Prop :=
  cfg.bIncompleteIsDamaged = false ∨ cfg.bTruncateDamaged = true

theorem handleIncomplete_cases (cfg : ValidationCfg) (lenFromStat : Int) :
    (handleIncomplete cfg lenFromStat).stays = false ∧ Tolerates cfg ∨
      handleIncomplete cfg lenFromStat = .damaged false := by
  unfold handleIncomplete Tolerates
  cases cfg.bIncompleteIsDamaged with
  | false => exact .inl ⟨rfl, .inl rfl⟩
  | true =>
    cases cfg.bTruncateDamaged with
    | false => exact .inr rfl
    | true =>
      refine .inl ⟨?_, .inr rfl⟩
      simp only [Bool.not_true, Bool.false_eq_true, if_false, if_true]
      split <;> rfl

theorem reportOversize_cases (cfg : ValidationCfg) (sPathRel : Bytes) (lenFromStat : Int) :
    (reportOversize cfg sPathRel lenFromStat).stays = false ∧ cfg.filetypeVolatile sPathRel = true ∨
      reportOversize cfg sPathRel lenFromStat = .damaged false := by
  unfold reportOversize
  cases hvolatile : cfg.filetypeVolatile sPathRel with
  | false => exact .inr rfl
  | true => exact .inl ⟨rfl, rfl⟩

theorem compareSize_cases (cfg : ValidationCfg) (entry : RemoteFileInfo) (sPathRel : Bytes)
    (descHave : Candidate) (lenFromStat : Int) :
    (compareSize cfg entry sPathRel descHave lenFromStat).stays = false ∧
        (entry.fpr.size < 0 ∨ descHave.fpr.size = entry.fpr.size ∨
          entry.fpr.size < descHave.fpr.size ∧ cfg.filetypeVolatile sPathRel = true ∨
          descHave.fpr.size < entry.fpr.size ∧ Tolerates cfg) ∨
      compareSize cfg entry sPathRel descHave lenFromStat = .damaged false := by
  unfold compareSize
  split
  · rename_i h
    simp only [Bool.or_eq_true, decide_eq_true_eq] at h
    exact .inl ⟨rfl, h.imp_right .inl⟩
  · rename_i hne
    simp only [Bool.or_eq_true, decide_eq_true_eq, not_or] at hne
    split
    · rename_i hlt
      exact (reportOversize_cases cfg sPathRel lenFromStat).imp_left (fun h =>
        ⟨h.1, .inr (.inr (.inl ⟨hlt, h.2⟩))⟩)
    · exact (handleIncomplete_cases cfg lenFromStat).imp_left (fun h =>
        ⟨h.1, .inr (.inr (.inr ⟨by omega, h.2⟩))⟩)

/-- A candidate that stays was kept there, or is not there, or is damaged. -/
theorem Detects.stays (h : Detects cfg st entry sPathRel descHave d) (hstays : d.1.stays = true) :
    st.forceKeepInTrash sPathRel = true ∨ st.disk sPathRel = none ∨
      ∃ unlinkHead, d.1 = .damaged unlinkHead := by
  have hdamaged : ∀ verdict : Verdict, verdict.stays = true → verdict.stays = false ∨
      verdict = .damaged false → ∃ unlinkHead, verdict = .damaged unlinkHead := by
    intro verdict hv hcases
    refine ⟨false, hcases.resolve_left ?_⟩
    rw [hv]
    exact Bool.true_eq_false.mp
  cases h with
  | forced h => exact .inl h
  | inaccessible h => exact .inr (.inl h)
  | head unlinkHead => exact .inr (.inr ⟨unlinkHead, rfl⟩)
  | mismatch fpr h => exact .inr (.inr ⟨false, rfl⟩)
  | unchecked file h => cases hstays
  | unread file hdisk desc h => cases hstays
  | parseignore file hdisk h =>
    exact .inr (.inr (hdamaged _ hstays ((handleIncomplete_cases cfg _).imp_left And.left)))
  | incomplete file hdisk h =>
    exact .inr (.inr (hdamaged _ hstays ((handleIncomplete_cases cfg _).imp_left And.left)))
  | oversize file hdisk h =>
    exact .inr (.inr (hdamaged _ hstays ((reportOversize_cases cfg _ _).imp_left And.left)))
  | release file h =>
    exact .inr (.inr (hdamaged _ hstays ((compareSize_cases cfg _ _ _ _).imp_left And.left)))
  | compared file hdisk fpr h htype heq =>
    exact .inr (.inr (hdamaged _ hstays ((compareSize_cases cfg _ _ _ _).imp_left And.left)))

/-- What is known of a candidate that stays was read from it. -/
theorem Detects.reads (h : Detects cfg st entry sPathRel descHave d) (hstays : d.1.stays = true) :
    Reads cfg st entry sPathRel descHave d.2.fpr := by
  cases h with
  | unread file hdisk desc h => cases hstays
  | mismatch fpr h => exact h
  | compared file hdisk fpr h htype heq => exact h
  | _ => exact .inl rfl

/-- Nothing else changes of a candidate that stays. -/
theorem Detects.info (h : Detects cfg st entry sPathRel descHave d) (hstays : d.1.stays = true) :
    d.2.toDiskFileInfo = descHave.toDiskFileInfo := by
  cases h with
  | unread file hdisk desc h => cases hstays
  | _ => rfl

/-- `DetectUncovered` goes by what it finds at the path. -/
theorem Detects.congr {st' : Validation} (h : Detects cfg st entry sPathRel descHave d)
    (hforced : st'.forceKeepInTrash sPathRel = st.forceKeepInTrash sPathRel)
    (hdisk : st'.disk sPathRel = st.disk sPathRel)
    (hflags : st'.files.getFlags sPathRel = st.files.getFlags sPathRel) :
    Detects cfg st' entry sPathRel descHave d := by
  have hreads : ∀ fpr, Reads cfg st entry sPathRel descHave fpr →
      Reads cfg st' entry sPathRel descHave fpr := by
    intro fpr
    unfold Reads
    rw [hdisk]
    exact id
  cases h with
  | forced h => exact .forced (hforced.trans h)
  | inaccessible h => exact .inaccessible (hdisk.trans h)
  | parseignore file hd h => exact .parseignore file (hdisk.trans hd) (hflags ▸ h)
  | head unlinkHead => exact .head unlinkHead
  | oversize file hd h => exact .oversize file (hdisk.trans hd) h
  | incomplete file hd h => exact .incomplete file (hdisk.trans hd) h
  | unchecked file h => exact .unchecked file h
  | release file h => exact .release file h
  | unread file hd desc h => exact .unread file (hdisk.trans hd) desc h
  | mismatch fpr h => exact .mismatch fpr (hreads fpr h)
  | compared file hd fpr h htype heq => exact .compared file (hdisk.trans hd) fpr (hreads fpr h) htype heq

section Loop

variable (cfg m_processedIfile entry) (l : List (Bytes × Candidate)) (st : Validation)

theorem loop_cons (dir : Bytes) (descHave : Candidate) (hlooks : looksAt cfg entry dir = true) :
    loop cfg m_processedIfile entry ((dir, descHave) :: l) st =
      let d := detectUncovered cfg st entry (dir ++ entry.sFileName) descHave
      let rest := loop cfg m_processedIfile entry l
        (act cfg m_processedIfile (dir ++ entry.sFileName) st d.1)
      (if d.1.stays then (dir, d.2) :: rest.1 else rest.1, rest.2) := by
  rw [loop, if_pos hlooks]

theorem loop_skip (dir : Bytes) (descHave : Candidate) (hlooks : looksAt cfg entry dir = false) :
    loop cfg m_processedIfile entry ((dir, descHave) :: l) st =
      let rest := loop cfg m_processedIfile entry l st
      ((dir, descHave) :: rest.1, rest.2) := by
  rw [loop, if_neg (by simp [hlooks])]

theorem loop_append (l' : List (Bytes × Candidate)) :
    loop cfg m_processedIfile entry (l ++ l') st =
      let front := loop cfg m_processedIfile entry l st
      let back := loop cfg m_processedIfile entry l' front.2
      (front.1 ++ back.1, back.2) := by
  induction l generalizing st with
  | nil => rfl
  | cons e l ih =>
    obtain ⟨dir, descHave⟩ := e
    cases hlooks : looksAt cfg entry dir with
    | true =>
      simp only [List.cons_append, loop_cons _ _ _ _ _ _ _ hlooks, ih]
      split <;> rfl
    | false => simp only [List.cons_append, loop_skip _ _ _ _ _ _ _ hlooks, ih]

/-- What no round changes is left by the whole loop. -/
theorem loop_keeps {P : Validation → Prop}
    (hstep : ∀ e ∈ l, ∀ st verdict, P st →
      P (act cfg m_processedIfile (e.1 ++ entry.sFileName) st verdict)) (h : P st) :
    P (loop cfg m_processedIfile entry l st).2 := by
  induction l generalizing st with
  | nil => exact h
  | cons e l ih =>
    obtain ⟨dir, descHave⟩ := e
    obtain ⟨he, hl⟩ := List.forall_mem_cons.mp hstep
    cases hlooks : looksAt cfg entry dir with
    | true =>
      rw [loop_cons _ _ _ _ _ _ _ hlooks]
      exact ih _ hl (he st _ h)
    | false =>
      rw [loop_skip _ _ _ _ _ _ _ hlooks]
      exact ih _ hl h

theorem loop_flags (path : Bytes) :
    (loop cfg m_processedIfile entry l st).2.files.getFlags path = st.files.getFlags path :=
  loop_keeps cfg m_processedIfile entry l st
    (P := fun st' => st'.files.getFlags path = st.files.getFlags path)
    (fun _ _ st' verdict h => (act_parseignore cfg st' m_processedIfile _ verdict path).trans h) rfl

theorem loop_forced {path : Bytes} (hother : ∀ e ∈ l, path ≠ e.1 ++ entry.sFileName) :
    (loop cfg m_processedIfile entry l st).2.forceKeepInTrash path = st.forceKeepInTrash path :=
  loop_keeps cfg m_processedIfile entry l st
    (P := fun st' => st'.forceKeepInTrash path = st.forceKeepInTrash path)
    (fun e he st' verdict h => (act_forced cfg st' m_processedIfile _ verdict (hother e he)).trans h) rfl

theorem loop_disk {path : Bytes} (hother : ∀ e ∈ l, path ≠ e.1 ++ entry.sFileName ∧
      path ≠ e.1 ++ entry.sFileName ++ lit ".head") :
    (loop cfg m_processedIfile entry l st).2.disk path = st.disk path :=
  loop_keeps cfg m_processedIfile entry l st (P := fun st' => st'.disk path = st.disk path)
    (fun e he st' verdict h => (act_disk cfg st' m_processedIfile _ verdict
      (fun heq => absurd heq (hother e he).1) (hother e he).2).trans h) rfl

/-- What is in the damage list stays there. -/
theorem loop_damageList {sPathRel : Bytes} (h : ∀ list, st.damageList = some list → sPathRel ∈ list) :
    ∀ list, (loop cfg m_processedIfile entry l st).2.damageList = some list → sPathRel ∈ list := by
  refine loop_keeps cfg m_processedIfile entry l st
    (P := fun st' => ∀ list, st'.damageList = some list → sPathRel ∈ list) ?_ h
  intro e _ st' verdict hst' list hlist
  obtain ⟨more, hmore⟩ := act_damageList cfg st' m_processedIfile (e.1 ++ entry.sFileName) verdict
  rw [hmore, Option.map_eq_some_iff] at hlist
  obtain ⟨before, hbefore, rfl⟩ := hlist
  exact List.mem_append_left _ (hst' before hbefore)

theorem loop_dirs :
    ((loop cfg m_processedIfile entry l st).1.map Prod.fst).Sublist (l.map Prod.fst) := by
  induction l generalizing st with
  | nil => exact List.Sublist.refl _
  | cons e l ih =>
    obtain ⟨dir, descHave⟩ := e
    cases hlooks : looksAt cfg entry dir with
    | true =>
      rw [loop_cons _ _ _ _ _ _ _ hlooks]
      dsimp only
      split
      · exact (ih _).cons_cons dir
      · exact (ih _).cons dir
    | false =>
      rw [loop_skip _ _ _ _ _ _ _ hlooks]
      exact (ih _).cons_cons dir

end Loop

/-- The list is as the scan left it, or less: the paths are cut in the same way, and each is there
once. -/
structure Cut (st : Validation) : Prop where
  keyed : ∀ name, ∀ e ∈ st.trash name, Keyed e.1 name
  distinct : ∀ name, ((st.trash name).map Prod.fst).Nodup

/-- The other rounds for an entry do not come near a candidate. -/
theorem Cut.apart (hcut : Cut st) {front back : List (Bytes × Candidate)} {dir : Bytes}
    {descHave : Candidate} (hl : st.trash entry.sFileName = front ++ (dir, descHave) :: back) :
    ∀ e ∈ front ++ back, dir ++ entry.sFileName ≠ e.1 ++ entry.sFileName ∧
      dir ++ entry.sFileName ≠ e.1 ++ entry.sFileName ++ lit ".head" := by
  intro e he
  have hmem : e ∈ st.trash entry.sFileName := by
    rw [hl]
    simp only [List.mem_append, List.mem_cons] at he ⊢
    tauto
  have hthis : (dir, descHave) ∈ st.trash entry.sFileName := by
    rw [hl]
    simp
  refine ⟨?_, ?_⟩
  · intro heq
    have hdistinct := hcut.distinct entry.sFileName
    rw [hl, List.map_append, List.map_cons, List.nodup_middle, ← List.map_append,
      List.nodup_cons] at hdistinct
    exact hdistinct.1 (List.mem_map.mpr ⟨e, he, (List.append_cancel_right heq).symm⟩)
  · intro heq
    rw [List.append_assoc] at heq
    have hname := ((hcut.keyed _ _ hthis).inj (hcut.keyed _ _ hmem).head heq).2
    have hlen := congrArg List.length hname
    rw [List.length_append] at hlen
    have hpos : 0 < (lit ".head").length := by decide
    omega

section Call

variable (cfg st m_processedIfile entry)

theorem handlePkgEntry_trash :
    (handlePkgEntry cfg st m_processedIfile entry).trash entry.sFileName =
      (loop cfg m_processedIfile entry (st.trash entry.sFileName) st).1 :=
  Function.update_self _ _ _

theorem handlePkgEntry_trash_ne {name : Bytes} (h : name ≠ entry.sFileName) :
    (handlePkgEntry cfg st m_processedIfile entry).trash name = st.trash name :=
  Function.update_of_ne h _ _

theorem handlePkgEntry_disk :
    (handlePkgEntry cfg st m_processedIfile entry).disk =
      (loop cfg m_processedIfile entry (st.trash entry.sFileName) st).2.disk := rfl

theorem handlePkgEntry_damageList :
    (handlePkgEntry cfg st m_processedIfile entry).damageList =
      (loop cfg m_processedIfile entry (st.trash entry.sFileName) st).2.damageList := rfl

end Call

variable (m_processedIfile) in
/-- What becomes of a candidate that the entry is compared with. -/
theorem handlePkgEntry_fate (hcut : Cut st) {dir : Bytes}
    (hmem : (dir, descHave) ∈ st.trash entry.sFileName) (hlooks : looksAt cfg entry dir = true) :
    ∃ d, Detects cfg st entry (dir ++ entry.sFileName) descHave d ∧
      (d.1.stays = true →
        (dir, d.2) ∈ (handlePkgEntry cfg st m_processedIfile entry).trash entry.sFileName ∧
        (handlePkgEntry cfg st m_processedIfile entry).disk (dir ++ entry.sFileName) =
          st.disk (dir ++ entry.sFileName)) ∧
      (∀ desc, (dir, desc) ∈ (handlePkgEntry cfg st m_processedIfile entry).trash entry.sFileName →
        d.1.stays = true ∧ desc = d.2) ∧
      ∀ unlinkHead, d.1 = .damaged unlinkHead →
        ∀ list, (handlePkgEntry cfg st m_processedIfile entry).damageList = some list →
          dir ++ entry.sFileName ∈ list := by
  obtain ⟨front, back, hl⟩ := List.append_of_mem hmem
  have hapart := hcut.apart hl
  have hfront : ∀ e ∈ front, _ := fun e he => hapart e (List.mem_append_left _ he)
  have hback : ∀ e ∈ back, _ := fun e he => hapart e (List.mem_append_right _ he)
  have hloop := loop_append cfg m_processedIfile entry front st ((dir, descHave) :: back)
  dsimp only at hloop
  -- the state that the round of this candidate starts in
  generalize hmid : (loop cfg m_processedIfile entry front st).2 = mid at hloop
  have hforced : mid.forceKeepInTrash (dir ++ entry.sFileName) =
      st.forceKeepInTrash (dir ++ entry.sFileName) :=
    hmid ▸ loop_forced cfg m_processedIfile entry front st (fun e he => (hfront e he).1)
  have hdisk : mid.disk (dir ++ entry.sFileName) = st.disk (dir ++ entry.sFileName) :=
    hmid ▸ loop_disk cfg m_processedIfile entry front st hfront
  have hflags : mid.files.getFlags (dir ++ entry.sFileName) =
      st.files.getFlags (dir ++ entry.sFileName) :=
    hmid ▸ loop_flags cfg m_processedIfile entry front st _
  rw [loop_cons _ _ _ _ _ _ _ hlooks] at hloop
  dsimp only at hloop
  have hdetects := (detectUncovered_detects cfg mid entry (dir ++ entry.sFileName) descHave).congr
    hforced.symm hdisk.symm hflags.symm
  generalize detectUncovered cfg mid entry (dir ++ entry.sFileName) descHave = d at hloop hdetects
  generalize hrest : loop cfg m_processedIfile entry back
    (act cfg m_processedIfile (dir ++ entry.sFileName) mid d.1) = rest at hloop
  have htrash : (handlePkgEntry cfg st m_processedIfile entry).trash entry.sFileName =
      (loop cfg m_processedIfile entry front st).1 ++
        if d.1.stays then (dir, d.2) :: rest.1 else rest.1 := by
    rw [handlePkgEntry_trash, hl, hloop]
  have hend : (handlePkgEntry cfg st m_processedIfile entry).disk = rest.2.disk ∧
      (handlePkgEntry cfg st m_processedIfile entry).damageList = rest.2.damageList := by
    rw [handlePkgEntry_disk, handlePkgEntry_damageList, hl, hloop]
    exact ⟨rfl, rfl⟩
  refine ⟨d, hdetects, ?_, ?_, ?_⟩
  · intro hstays
    refine ⟨?_, ?_⟩
    · rw [htrash, if_pos hstays]
      exact List.mem_append_right _ List.mem_cons_self
    · rw [hend.1, ← hrest, loop_disk cfg m_processedIfile entry back _ hback, act_disk, hdisk]
      · exact fun _ => hstays
      · intro heq
        have hlen := congrArg List.length heq
        simp [lit] at hlen
  · intro desc hdesc
    have hother : ∀ e ∈ front ++ back, e.1 ≠ dir := by
      intro e he heq
      exact (hapart e he).1 (by rw [heq])
    have hkept : ∀ l ⊆ front ++ back, ∀ st', (dir, desc) ∉ (loop cfg m_processedIfile entry l st').1 := by
      intro l hsub st' hin
      have hdir := (loop_dirs cfg m_processedIfile entry l st').subset (List.mem_map_of_mem hin)
      obtain ⟨e, he, heq⟩ := List.mem_map.mp hdir
      exact hother e (hsub he) heq
    rw [htrash] at hdesc
    have hdesc := (List.mem_append.mp hdesc).resolve_left (hkept front (List.subset_append_left _ _) st)
    have hout : (dir, desc) ∉ rest.1 := hrest ▸ hkept back (List.subset_append_right _ _) _
    split at hdesc
    · rename_i hstays
      exact ⟨hstays, (Prod.mk.inj ((List.mem_cons.mp hdesc).resolve_right hout)).2⟩
    · exact absurd hdesc hout
  · intro unlinkHead hdamaged
    rw [hend.2, ← hrest]
    refine loop_damageList cfg m_processedIfile entry back _ ?_
    intro list hlist
    rw [hdamaged] at hlist
    obtain ⟨before, -, rfl⟩ := Option.map_eq_some_iff.mp hlist
    exact List.mem_append_right _ List.mem_cons_self

variable (m_processedIfile)

/-- The entry says nothing of the candidates in other directories than the one it refers to. -/
theorem handlePkgEntry_skips (hcut : Cut st) {dir : Bytes}
    (hmem : (dir, descHave) ∈ st.trash entry.sFileName) (hlooks : looksAt cfg entry dir = false) :
    (dir, descHave) ∈ (handlePkgEntry cfg st m_processedIfile entry).trash entry.sFileName ∧
      (handlePkgEntry cfg st m_processedIfile entry).disk (dir ++ entry.sFileName) =
        st.disk (dir ++ entry.sFileName) := by
  obtain ⟨front, back, hl⟩ := List.append_of_mem hmem
  have hapart := hcut.apart hl
  have hloop := loop_append cfg m_processedIfile entry front st ((dir, descHave) :: back)
  dsimp only at hloop
  rw [loop_skip _ _ _ _ _ _ _ hlooks] at hloop
  dsimp only at hloop
  rw [handlePkgEntry_trash, handlePkgEntry_disk, hl, hloop]
  refine ⟨List.mem_append_right _ List.mem_cons_self, ?_⟩
  rw [loop_disk _ _ _ _ _ (fun e he => hapart e (List.mem_append_right _ he)),
    loop_disk _ _ _ _ _ (fun e he => hapart e (List.mem_append_left _ he))]

theorem handlePkgEntry_cut (hcut : Cut st) : Cut (handlePkgEntry cfg st m_processedIfile entry) := by
  have hdirs : ∀ name, (((handlePkgEntry cfg st m_processedIfile entry).trash name).map Prod.fst).Sublist
      ((st.trash name).map Prod.fst) := by
    intro name
    by_cases hname : name = entry.sFileName
    · rw [hname, handlePkgEntry_trash]
      exact loop_dirs cfg m_processedIfile entry _ st
    · rw [handlePkgEntry_trash_ne _ _ _ _ hname]
  refine ⟨?_, fun name => (hcut.distinct name).sublist (hdirs name)⟩
  intro name e he
  obtain ⟨e', he', heq⟩ := List.mem_map.mp ((hdirs name).subset (List.mem_map_of_mem he))
  exact heq ▸ hcut.keyed name e' he'

/-- Where a candidate that is left comes from. -/
theorem handlePkgEntry_left (hcut : Cut st) {dir : Bytes} {desc : Candidate}
    (hmem : (dir, desc) ∈ (handlePkgEntry cfg st m_processedIfile entry).trash entry.sFileName) :
    ∃ descHave, (dir, descHave) ∈ st.trash entry.sFileName ∧
      Reads cfg st entry (dir ++ entry.sFileName) descHave desc.fpr ∧
      desc.toDiskFileInfo = descHave.toDiskFileInfo ∧
      (handlePkgEntry cfg st m_processedIfile entry).disk (dir ++ entry.sFileName) =
        st.disk (dir ++ entry.sFileName) := by
  have hdir : dir ∈ ((handlePkgEntry cfg st m_processedIfile entry).trash entry.sFileName).map Prod.fst :=
    List.mem_map.mpr ⟨_, hmem, rfl⟩
  rw [handlePkgEntry_trash] at hdir
  obtain ⟨⟨dir', descHave⟩, hbefore, heq⟩ :=
    List.mem_map.mp ((loop_dirs cfg m_processedIfile entry _ st).subset hdir)
  obtain rfl : dir' = dir := heq
  refine ⟨descHave, hbefore, ?_⟩
  cases hlooks : looksAt cfg entry dir' with
  | true =>
    obtain ⟨d, hdetects, hstays, hleft, -⟩ := handlePkgEntry_fate m_processedIfile hcut hbefore hlooks
    obtain ⟨hd, rfl⟩ := hleft desc hmem
    exact ⟨hdetects.reads hd, hdetects.info hd, (hstays hd).2⟩
  | false =>
    obtain ⟨hsame, hdisk⟩ := handlePkgEntry_skips m_processedIfile hcut hbefore hlooks
    have heq := List.inj_on_of_nodup_map ((handlePkgEntry_cut m_processedIfile hcut).distinct _)
      hmem hsame rfl
    obtain rfl := (Prod.mk.inj heq).2
    exact ⟨.inl rfl, rfl, hdisk⟩

section Run

variable (cfg) (start : Validation) (before : List (Bytes × RemoteFileInfo))

/-- The content of a file that can be read. Where the name is that of a head file, which a truncation
writes anew, it is what there was at some time of the run. -/
def Content (name sPathRel data : Bytes) : Prop :=
  ∃ earlier, earlier <+: before ∧ (run cfg start earlier).disk sPathRel = some (.readable data) ∧
    (headNamed name = false → (run cfg start before).disk sPathRel = some (.readable data))

/-- What holds of the list in the course of a run: each fingerprint is that of what was read. -/
structure Known : Prop where
  cut : Cut (run cfg start before)
  read : ∀ name, ∀ e ∈ (run cfg start before).trash name, e.2.fpr.csType ≠ .invalid →
    ∃ data, Content cfg start before name (e.1 ++ name) data ∧
      e.2.fpr = Fingerprint.scan cfg.hash e.2.fpr.csType data

theorem run_append (call : Bytes × RemoteFileInfo) :
    run cfg start (before ++ [call]) = handlePkgEntry cfg (run cfg start before) call.1 call.2 :=
  List.foldl_append

variable {cfg start before}

theorem Content.later {name sPathRel data : Bytes} (call : Bytes × RemoteFileInfo)
    (h : Content cfg start before name sPathRel data)
    (hdisk : headNamed name = false →
      (run cfg start (before ++ [call])).disk sPathRel = (run cfg start before).disk sPathRel) :
    Content cfg start (before ++ [call]) name sPathRel data := by
  obtain ⟨earlier, hprefix, hthen, hnow⟩ := h
  exact ⟨earlier, hprefix.trans (List.prefix_append _ _), hthen, fun hhead => (hdisk hhead).trans (hnow hhead)⟩

theorem Content.now {name sPathRel data : Bytes}
    (h : (run cfg start before).disk sPathRel = some (.readable data)) :
    Content cfg start before name sPathRel data :=
  ⟨before, List.prefix_rfl, h, fun _ => h⟩

/-- What was read of a candidate is content of its file. -/
theorem Known.content (h : Known cfg start before) {name dir : Bytes} {descHave : Candidate}
    (hmem : (dir, descHave) ∈ (run cfg start before).trash name) {fpr : Fingerprint}
    (hreads : Reads cfg (run cfg start before) entry (dir ++ name) descHave fpr)
    (htype : fpr.csType ≠ .invalid) :
    ∃ data, Content cfg start before name (dir ++ name) data ∧
      fpr = Fingerprint.scan cfg.hash fpr.csType data := by
  obtain rfl | ⟨data, hdisk, rfl⟩ := hreads
  · exact h.read name _ hmem htype
  · exact ⟨data, .now hdisk, rfl⟩

theorem Known.step (h : Known cfg start before) (call : Bytes × RemoteFileInfo) :
    Known cfg start (before ++ [call]) := by
  obtain ⟨ifile, entry⟩ := call
  refine ⟨?_, ?_⟩
  · rw [run_append]
    exact handlePkgEntry_cut ifile h.cut
  · rintro name ⟨dir, desc⟩ hmem htype
    rw [run_append] at hmem
    by_cases hname : name = entry.sFileName
    · subst hname
      obtain ⟨descHave, hbefore, hreads, -, hdisk⟩ := handlePkgEntry_left ifile h.cut hmem
      obtain ⟨data, hdata, hfpr⟩ := h.content hbefore hreads htype
      refine ⟨data, hdata.later (ifile, entry) (fun _ => ?_), hfpr⟩
      rw [run_append]
      exact hdisk
    · rw [handlePkgEntry_trash_ne _ _ _ _ hname] at hmem
      obtain ⟨data, hdata, hfpr⟩ := h.read name _ hmem htype
      refine ⟨data, hdata.later (ifile, entry) (fun hhead => ?_), hfpr⟩
      rw [run_append, handlePkgEntry_disk]
      refine loop_disk _ _ _ _ _ (fun e he => ?_)
      have hkeyed := h.cut.keyed _ _ hmem
      have hkeyed' := h.cut.keyed _ _ he
      exact ⟨fun heq => hname (hkeyed.inj hkeyed' heq).2, hkeyed'.ne_head hkeyed hhead⟩

theorem known_run (hcut : Cut start)
    (hfresh : ∀ name, ∀ e ∈ start.trash name, e.2.fpr.csType = .invalid)
    (before : List (Bytes × RemoteFileInfo)) : Known cfg start before := by
  induction before using List.reverseRecOn with
  | nil => exact ⟨hcut, fun name e he htype => absurd (hfresh name e he) htype⟩
  | append_singleton before call ih => exact ih.step call

variable (cfg start before) (entry)

/-- The size of a file, as it is or as it was read. -/
def HasSize (sPathRel : Bytes) (size : Int) : Prop :=
  (∃ file, (run cfg start before).disk sPathRel = some file ∧ file.size = size) ∨
    ∃ data, Content cfg start before entry.sFileName sPathRel data ∧ (data.length : Int) = size

/-- What lets a candidate go: it is what the entry says, it is incomplete where this is tolerated, it is
larger but of a volatile type, or it cannot be read. -/
def MayGo (sPathRel : Bytes) : Prop :=
  (∃ data, Content cfg start before entry.sFileName sPathRel data ∧
      (data.length : Int) = entry.fpr.size ∧
      (Fingerprint.scan cfg.hash entry.fpr.csType data).csEquals entry.fpr = true) ∨
    (((run cfg start before).files.getFlags sPathRel).parseignore = true ∨
      ∃ size, HasSize cfg entry start before sPathRel size ∧ size < entry.fpr.size) ∧ Tolerates cfg ∨
    (∃ size, HasSize cfg entry start before sPathRel size ∧ entry.fpr.size < size) ∧
      cfg.filetypeVolatile sPathRel = true ∨
    ∃ st_size, (run cfg start before).disk sPathRel = some (.unreadable st_size)

end Run

theorem CsType.len_ne_zero {csType : CsType} (h : csType ≠ .invalid) : csType.len ≠ 0 := by
  cases csType <;> simp [CsType.len] at h ⊢

theorem Known.mayGo {start : Validation} {before : List (Bytes × RemoteFileInfo)}
    (hknown : Known cfg start before) {dir : Bytes} {descHave : Candidate}
    (hmem : (dir, descHave) ∈ (run cfg start before).trash entry.sFileName)
    (hsum : cfg.bByChecksum = true) (hsize : 0 ≤ entry.fpr.size)
    (htype : entry.fpr.csType ≠ .invalid)
    (hname : ¬ (entry.sFileName = lit "Release" ∨ entry.sFileName = lit "InRelease"))
    {d : Verdict × Candidate}
    (h : Detects cfg (run cfg start before) entry (dir ++ entry.sFileName) descHave d)
    (hoff : d.1.stays = false) : MayGo cfg entry start before (dir ++ entry.sFileName) := by
  have hdamaged : ∀ {verdict : Verdict}, verdict.stays = false → verdict ≠ .damaged false := by
    rintro verdict hv rfl
    cases hv
  cases h with
  | forced h => cases hoff
  | inaccessible h => cases hoff
  | head unlinkHead => cases hoff
  | mismatch fpr h => cases hoff
  | unchecked file h => exact absurd (hsum.symm.trans h) (by simp)
  | release file h => exact absurd h hname
  | unread file hdisk desc h =>
    obtain hlen | ⟨st_size, rfl⟩ := h
    · exact absurd hlen (CsType.len_ne_zero htype)
    · exact .inr (.inr (.inr ⟨st_size, hdisk⟩))
  | parseignore file hdisk h =>
    have htolerates := (handleIncomplete_cases cfg file.size).resolve_right (hdamaged hoff)
    exact .inr (.inl ⟨.inl h, htolerates.2⟩)
  | incomplete file hdisk h =>
    have htolerates := (handleIncomplete_cases cfg file.size).resolve_right (hdamaged hoff)
    exact .inr (.inl ⟨.inr ⟨_, .inl ⟨file, hdisk, rfl⟩, h⟩, htolerates.2⟩)
  | oversize file hdisk h =>
    have hvolatile := (reportOversize_cases cfg _ file.size).resolve_right (hdamaged hoff)
    exact .inr (.inr (.inl ⟨⟨_, .inl ⟨file, hdisk, rfl⟩, h⟩, hvolatile.2⟩))
  | compared file hdisk fpr hreads hfpr heq =>
    obtain ⟨data, hdata, hscan⟩ := hknown.content hmem hreads (hfpr ▸ htype)
    have hlen : fpr.size = data.length := by rw [hscan]; rfl
    have hcases := (compareSize_cases cfg entry _ { descHave with fpr } file.size).resolve_right
      (hdamaged hoff)
    obtain hneg | hsame | ⟨hlarger, hvolatile⟩ | ⟨hshorter, htolerates⟩ := hcases.2
    · omega
    · refine .inl ⟨data, hdata, hlen.symm.trans hsame, ?_⟩
      rw [← hfpr, ← hscan]
      exact heq
    · exact .inr (.inr (.inl ⟨⟨_, .inr ⟨data, hdata, hlen.symm⟩, hlarger⟩, hvolatile⟩))
    · exact .inr (.inl ⟨.inr ⟨_, .inr ⟨data, hdata, hlen.symm⟩, hshorter⟩, htolerates⟩)

theorem handlePkgEntry_sound (cfg : ValidationCfg) (scanned : ScannedFiles)
    (forceKeepInTrash : Bytes → Bool) (files : MetaFiles) (disk : Bytes → Option CacheFile)
    (damageList : Option (List Bytes)) (before : List (Bytes × RemoteFileInfo))
    (m_processedIfile : Bytes) (entry : RemoteFileInfo) (hsum : cfg.bByChecksum = true)
    (hsize : 0 ≤ entry.fpr.size) (htype : entry.fpr.csType ≠ .invalid)
    (hname : ¬ (entry.sFileName = lit "Release" ∨ entry.sFileName = lit "InRelease")) :
    let start := scanned.validation forceKeepInTrash files disk damageList
    let st := run cfg start before
    let after := handlePkgEntry cfg st m_processedIfile entry
    ∀ dir descHave, (dir, descHave) ∈ st.trash entry.sFileName →
      let sPathRel := dir ++ entry.sFileName
      if looksAt cfg entry dir then
        (∃ desc, (dir, desc) ∈ after.trash entry.sFileName) ∧
            (st.forceKeepInTrash sPathRel = true ∨ st.disk sPathRel = none ∨
              ∀ list, after.damageList = some list → sPathRel ∈ list) ∨
          (∀ desc, (dir, desc) ∉ after.trash entry.sFileName) ∧
            MayGo cfg entry start before sPathRel
      else (dir, descHave) ∈ after.trash entry.sFileName := by
  intro start st after dir descHave hmem sPathRel
  have hknown : Known cfg start before :=
    known_run ⟨scanned.keyed, scanned.distinct⟩ scanned.unread before
  cases hlooks : looksAt cfg entry dir with
  | false => exact (handlePkgEntry_skips m_processedIfile hknown.cut hmem hlooks).1
  | true =>
    obtain ⟨d, hdetects, hstays, hleft, hrecorded⟩ :=
      handlePkgEntry_fate m_processedIfile hknown.cut hmem hlooks
    rw [if_pos rfl]
    cases hd : d.1.stays with
    | true =>
      refine .inl ⟨⟨d.2, (hstays hd).1⟩, ?_⟩
      obtain hforced | hgone | ⟨unlinkHead, hdamaged⟩ := hdetects.stays hd
      · exact .inl hforced
      · exact .inr (.inl hgone)
      · exact .inr (.inr (hrecorded unlinkHead hdamaged))
    | false =>
      refine .inr ⟨?_, hknown.mayGo hmem hsum hsize htype hname hdetects hd⟩
      intro desc hin
      rw [(hleft desc hin).1] at hd
      cases hd

/-- A run of which every file is lost to the entry below: it has the size of the entry, but not its
checksum. -/
def spoiledCfg : ValidationCfg where
  bByChecksum := true
  isVolatile _ := false
  filetypeVolatile _ := false
  -- the checksum of the only file
  hash _ _ := [0x9d, 0xd4, 0xe4, 0x61, 0x26, 0x8c, 0x80, 0x34, 0xf5, 0xc8, 0x56, 0x4e, 0x15, 0x5c, 0x67, 0xa6]
  markFaulty _ _ := none

def spoiledEntry : RemoteFileInfo where
  fpr := { size := 1, csType := .md5, csum := List.replicate 16 1 }
  sDirectory := lit "d/"
  sFileName := lit "p.deb"

def spoiledFiles : ScannedFiles where
  dirs name := if name = lit "p.deb" then [(lit "d/", { nLostAt := 7, fpr := { size := 1 } })] else []
  keyed := by
    intro name e he
    split at he
    · rename_i hname
      obtain rfl := List.mem_singleton.mp he
      exact ⟨hname ▸ by decide, .inr ⟨[100], rfl⟩⟩
    · cases he
  distinct := by
    intro name
    split
    · exact List.nodup_singleton _
    · exact List.nodup_nil
  unread := by
    intro name e he
    split at he
    · obtain rfl := List.mem_singleton.mp he
      rfl
    · cases he

def spoiledDisk : Bytes → Option CacheFile :=
  fun sPathRel => if sPathRel = lit "d/p.deb" then some (.readable [120]) else none

/-- The state of the run, with the paths that are to stay in the list. -/
def spoiled (forceKeepInTrash : Bytes → Bool) : Validation :=
  spoiledFiles.validation forceKeepInTrash ⟨[], .nil⟩ spoiledDisk (some [])

theorem spoiled_not_mayGo (forceKeepInTrash : Bytes → Bool) :
    ¬ MayGo spoiledCfg spoiledEntry (spoiled forceKeepInTrash) [] (lit "d/p.deb") := by
  have hdisk : (run spoiledCfg (spoiled forceKeepInTrash) []).disk (lit "d/p.deb") =
      some (.readable [120]) := by
    change spoiledDisk (lit "d/p.deb") = _
    exact if_pos rfl
  have hcontent : ∀ data, Content spoiledCfg (spoiled forceKeepInTrash) [] (lit "p.deb") (lit "d/p.deb")
      data → data = [120] := by
    rintro data ⟨earlier, hprefix, hthen, -⟩
    obtain rfl := List.prefix_nil.mp hprefix
    exact (CacheFile.readable.inj (Option.some.inj (hdisk.symm.trans hthen))).symm
  have hsize : ∀ size, HasSize spoiledCfg spoiledEntry (spoiled forceKeepInTrash) [] (lit "d/p.deb")
      size → size = 1 := by
    rintro size (⟨file, hfile, rfl⟩ | ⟨data, hdata, rfl⟩)
    · rw [← Option.some.inj (hdisk.symm.trans hfile)]
      rfl
    · rw [hcontent data hdata]
      rfl
  rintro (⟨data, hdata, -, heq⟩ | ⟨hignore | ⟨size, hthis, hlt⟩, -⟩ | ⟨-, hvolatile⟩ |
    ⟨st_size, hunread⟩)
  · obtain rfl := hcontent data hdata
    exact absurd heq (by decide)
  · cases hignore
  · have := hsize size hthis
    have : spoiledEntry.fpr.size = 1 := rfl
    omega
  · cases hvolatile
  · rw [hdisk] at hunread
    cases hunread

theorem handlePkgEntry_sound_spoiled :
    let after := handlePkgEntry spoiledCfg (spoiled (fun _ => false)) (lit "d/Packages") spoiledEntry
    (∃ desc, (lit "d/", desc) ∈ after.trash (lit "p.deb")) ∧
      ∀ list, after.damageList = some list → lit "d/p.deb" ∈ list := by
  have hsound := handlePkgEntry_sound spoiledCfg spoiledFiles (fun _ => false) ⟨[], .nil⟩ spoiledDisk
    (some []) [] (lit "d/Packages") spoiledEntry rfl (by decide) (by decide) (by decide) (lit "d/")
    { nLostAt := 7, fpr := { size := 1 } } (List.mem_singleton_self _)
  have hlooks : looksAt spoiledCfg spoiledEntry (lit "d/") = true := by decide +kernel
  dsimp only at hsound
  rw [if_pos hlooks] at hsound
  obtain ⟨hstays, hwhy⟩ | ⟨-, hgo⟩ := hsound
  · refine ⟨hstays, ?_⟩
    obtain hforced | hgone | hrecorded := hwhy
    · cases hforced
    · cases hgone
    · exact hrecorded
  · exact absurd hgo (spoiled_not_mayGo _)

/-- A path that is kept in the list on purpose is not recorded. -/
theorem handlePkgEntry_keeps_unrecorded :
    let start := spoiled (fun sPathRel => sPathRel == lit "d/p.deb")
    let after := handlePkgEntry spoiledCfg start (lit "d/Packages") spoiledEntry
    looksAt spoiledCfg spoiledEntry (lit "d/") = true ∧
      (∃ descHave, (lit "d/", descHave) ∈ start.trash (lit "p.deb")) ∧
      ¬ MayGo spoiledCfg spoiledEntry start [] (lit "d/p.deb") ∧ after.damageList = some [] := by
  refine ⟨by decide +kernel, ⟨_, List.mem_singleton_self _⟩, spoiled_not_mayGo _, ?_⟩
  have hforced : detectUncovered spoiledCfg (spoiled (fun sPathRel => sPathRel == lit "d/p.deb"))
      spoiledEntry (lit "d/p.deb") { nLostAt := 7, fpr := { size := 1 } } =
        (.forced, { nLostAt := 7, fpr := { size := 1 } }) := if_pos (beq_self_eq_true _)
  rw [handlePkgEntry_damageList]
  exact congrArg (fun d => (act spoiledCfg (lit "d/Packages") (lit "d/p.deb") _ d.1).damageList) hforced

end Validation

end Acng
