import Acng.Proofs.Catalogue
import Acng.Proofs.Confinement

namespace Acng
open Lib

/-! The records of any buffer. -/

/-- The buffer holds these records and less than the head of another one. -/
def Records (m : PathMemory) (buf : Bytes) : Prop :=
  (∀ kv ∈ m, kv.2 < 2 ^ 32 ∧ kv.1.length < 2 ^ 32) ∧
    ∃ rest, rest.length < 8 ∧ buf = m.flatMap (fun kv => addLine kv.2 kv.1) ++ rest

/-- A buffer with the head of a record either holds it or the loop gives up there. -/
theorem head_record {buf : Bytes} (h : 8 ≤ buf.length) :
    (∃ id s tail, id < 2 ^ 32 ∧ s.length < 2 ^ 32 ∧ buf = addLine id s ++ tail) ∨
      ∀ files fuel redoLink filePaths,
        recordLoop files (fuel + 1) redoLink filePaths buf = .gaveUp := by
  have hid : (buf.take 4).length = 4 := by
    rw [List.length_take]
    omega
  have hlen : ((buf.drop 4).take 4).length = 4 := by
    rw [List.length_take, List.length_drop]
    omega
  have hbuf : buf = littleEndian 4 (readLittleEndian (buf.take 4)) ++
      (littleEndian 4 (readLittleEndian ((buf.drop 4).take 4)) ++ buf.drop 8) := by
    have hid' := littleEndian_readLittleEndian (buf.take 4)
    have hlen' := littleEndian_readLittleEndian ((buf.drop 4).take 4)
    rw [hid] at hid'
    rw [hlen] at hlen'
    rw [hid', hlen', ← List.drop_drop (i := 4) (j := 4), List.take_append_drop,
      List.take_append_drop]
  have hidlt := readLittleEndian_lt (buf.take 4)
  have hslen := readLittleEndian_lt ((buf.drop 4).take 4)
  rw [hid] at hidlt
  rw [hlen] at hslen
  revert hbuf hidlt hslen
  generalize readLittleEndian (buf.take 4) = id
  generalize readLittleEndian ((buf.drop 4).take 4) = slen
  generalize buf.drop 8 = body
  rintro rfl hidlt hslen
  by_cases hfits : slen ≤ body.length
  · left
    refine ⟨id, body.take slen, body.drop slen, hidlt, ?_, ?_⟩
    · rw [List.length_take]
      omega
    · rw [addLine, List.length_take, Nat.min_eq_left hfits, List.append_assoc, List.append_assoc,
        List.take_append_drop]
  · right
    intro files fuel redoLink filePaths
    have hid4 := readBytes_append (littleEndian 4 id) (littleEndian 4 slen ++ body)
    have hlen4 := readBytes_append (littleEndian 4 slen) body
    rw [length_littleEndian] at hid4 hlen4
    have hvalue : slen % 256 ^ 4 = slen := Nat.mod_eq_of_lt hslen
    rw [recordLoop, if_neg (Nat.not_lt.mpr h)]
    simp only [hid4, hlen4, readLittleEndian_littleEndian, hvalue,
      if_pos (Nat.lt_of_not_le hfits)]

/-- The loop reads the whole buffer as records or gives up. -/
theorem records_or_gaveUp (buf : Bytes) :
    (∃ m, Records m buf) ∨ ∀ files fuel redoLink filePaths, buf.length < fuel →
      recordLoop files fuel redoLink filePaths buf = .gaveUp := by
  induction hn : buf.length using Nat.strongRecOn generalizing buf with
  | ind n ih =>
    subst hn
    by_cases hshort : buf.length < 8
    · exact .inl ⟨[], by simp, buf, hshort, rfl⟩
    · obtain ⟨id, s, tail, hid, hs, rfl⟩ | hgaveUp := head_record (Nat.le_of_not_lt hshort)
      · have hlength : tail.length < (addLine id s ++ tail).length := by
          rw [List.length_append, length_addLine]
          omega
        obtain ⟨m, hm, rest, hrest, rfl⟩ | hgaveUp := ih tail.length hlength tail rfl
        · refine .inl ⟨(s, id) :: m, List.forall_mem_cons.mpr ⟨⟨hid, hs⟩, hm⟩, rest, hrest, ?_⟩
          rw [List.flatMap_cons, List.append_assoc]
        · right
          intro files fuel redoLink filePaths hfuel
          obtain ⟨fuel, rfl⟩ := Nat.exists_eq_add_one_of_ne_zero (Nat.ne_zero_of_lt hfuel)
          rw [recordLoop_addLine _ _ _ _ _ _ _ hid hs, hgaveUp _ _ _ _ (by omega),
            hgaveUp _ _ _ _ (by omega), hgaveUp _ _ _ _ (by omega), ite_self, ite_self]
      · right
        intro files fuel redoLink filePaths hfuel
        obtain ⟨fuel, rfl⟩ := Nat.exists_eq_add_one_of_ne_zero (Nat.ne_zero_of_lt hfuel)
        exact hgaveUp files fuel redoLink filePaths

theorem recordLoop_of_records {m : PathMemory} {buf : Bytes} (h : Records m buf)
    (files : List Nat) :
    ∃ redoLink, recordLoop files (buf.length + 1) [] [] buf =
      .selected (ticked files (afterRedo m)) redoLink := by
  obtain ⟨hm, rest, hrest, rfl⟩ := h
  have hlength := length_records m (k := 0) (fun _ _ => Nat.zero_le _)
  refine recordLoop_no_command files m _ rest hm hrest ?_
  rw [List.length_append]
  omega

/-- The client ticked the path and listed it behind the command. -/
def Listed (tools : DeleterTools) (cmd path : Bytes) : Prop :=
  ∃ qpos buf m id, find [63] cmd = some qpos ∧ cmd.any badChars.contains = false ∧
    unpackBlob tools (DeleteForm.ofParams (cmd.drop (qpos + 1))).blob = some buf ∧
    Records m buf ∧ (path, id) ∈ afterRedo m ∧
    id ∈ (DeleteForm.ofParams (cmd.drop (qpos + 1))).files

/-- Whatever the client sends, the loop ends inside of the buffer and selects what is listed. -/
theorem selectFiles_listed (tools : DeleterTools) (cmd : Bytes) :
    selectFiles tools cmd ≠ .overread ∧ selectFiles tools cmd ≠ .running ∧
      ∀ path, path ∈ (selectFiles tools cmd).filePaths ↔ Listed tools cmd path := by
  unfold selectFiles Listed
  cases hpos : find [63] cmd with
  | none => simp [Selection.filePaths]
  | some qpos =>
    cases hbad : cmd.any badChars.contains with
    | true => simp [Selection.filePaths]
    | false =>
      simp only [Bool.false_eq_true, if_false, Option.some.injEq, true_and]
      cases hbuf : unpackBlob tools (DeleteForm.ofParams (cmd.drop (qpos + 1))).blob with
      | none => simp [Selection.filePaths, hbuf]
      | some buf =>
        generalize hfiles : (DeleteForm.ofParams (cmd.drop (qpos + 1))).files = files
        simp only
        obtain ⟨m, hm⟩ | hgaveUp := records_or_gaveUp buf
        · obtain ⟨redoLink, hselected⟩ := recordLoop_of_records hm files
          rw [hselected]
          refine ⟨by simp, by simp, fun path => ?_⟩
          rw [Selection.filePaths, mem_ticked]
          constructor
          · rintro ⟨id, hid, hpath⟩
            exact ⟨qpos, buf, m, id, rfl, hbuf, hm, hpath, hfiles ▸ hid⟩
          · rintro ⟨_, _, m', id, rfl, hbuf', hm', hpath, hid⟩
            obtain rfl := Option.some.inj (hbuf.symm.trans hbuf')
            obtain ⟨redoLink', hselected'⟩ := recordLoop_of_records hm' files
            have hsame := congrArg Selection.filePaths (hselected.symm.trans hselected')
            change ticked files (afterRedo m) = ticked files (afterRedo m') at hsame
            rw [← mem_ticked, hsame, mem_ticked]
            exact ⟨id, hfiles ▸ hid, hpath⟩
        · rw [hgaveUp _ _ _ _ (Nat.lt_succ_self _)]
          refine ⟨by simp, by simp, fun path => iff_of_false List.not_mem_nil ?_⟩
          rintro ⟨_, _, m, id, rfl, hbuf', hm, _⟩
          obtain rfl := Option.some.inj (hbuf.symm.trans hbuf')
          obtain ⟨redoLink, hselected⟩ := recordLoop_of_records hm files
          rw [hgaveUp _ _ _ _ (Nat.lt_succ_self _)] at hselected
          cases hselected

/-! Components. -/

/-- Text behind a path changes its last component, and may bring new ones. -/
theorem splitOn_parts (s : Bytes) : ∃ front last, s.splitOn 47 = front ++ [last] ∧
    ∀ t, (s ++ t).splitOn 47 = front ++ (t.splitOn 47).modifyHead (last ++ ·) := by
  induction s with
  | nil => exact ⟨[], [], rfl, fun t => by
    rw [List.nil_append, List.nil_append]
    cases t.splitOn 47 <;> rfl⟩
  | cons c s ih =>
    obtain ⟨front, last, hs, happend⟩ := ih
    by_cases hc : (c == 47) = true
    · refine ⟨[] :: front, last, ?_, fun t => ?_⟩
      · rw [List.splitOn_cons_eq_if_modifyHead, if_pos hc, hs]
        rfl
      · rw [List.cons_append, List.splitOn_cons_eq_if_modifyHead, if_pos hc, happend]
        rfl
    · cases front with
      | nil =>
        refine ⟨[], c :: last, ?_, fun t => ?_⟩
        · rw [List.splitOn_cons_eq_if_modifyHead, if_neg hc, hs]
          rfl
        · rw [List.cons_append, List.splitOn_cons_eq_if_modifyHead, if_neg hc, happend]
          cases t.splitOn 47 <;> rfl
      | cons first front =>
        refine ⟨(c :: first) :: front, last, ?_, fun t => ?_⟩
        · rw [List.splitOn_cons_eq_if_modifyHead, if_neg hc, hs]
          rfl
        · rw [List.cons_append, List.splitOn_cons_eq_if_modifyHead, if_neg hc, happend]
          rfl

/-- Some component of the path is a name. -/
def Named (rel : Bytes) : Prop := ∃ w ∈ rel.splitOn 47, w ≠ [] ∧ w ≠ [46]

/-- The file is below the cache directory, and the way to it never leads upwards. -/
def Below (cache : CacheDir) (file : Bytes) : Prop :=
  ∃ rel, file = cache.path ++ rel ∧ [46, 46] ∉ rel.splitOn 47 ∧ Named rel

theorem below_append {cache : CacheDir} {rel : Bytes} :
    Below cache (cache.path ++ rel) ↔ [46, 46] ∉ rel.splitOn 47 ∧ Named rel := by
  constructor
  · rintro ⟨rel', hrel, h⟩
    rwa [List.append_cancel_left hrel]
  · exact fun h => ⟨rel, rfl, h⟩

/-- The front components of a path lead nowhere upwards. -/
def SoundFront (s : Bytes) : Prop := [46, 46] ∉ (s.splitOn 47).dropLast

/-- Text that makes a name of the last component whatever that is. -/
def Naming (t : Bytes) : Prop :=
  ∃ first rest c, t.splitOn 47 = (first ++ [c]) :: rest ∧ c ≠ 46 ∧ [46, 46] ∉ rest

theorem below_naming {cache : CacheDir} {s t : Bytes} (hs : SoundFront s) (ht : Naming t) :
    Below cache (cache.path ++ (s ++ t)) := by
  obtain ⟨front, last, hsplit, happend⟩ := splitOn_parts s
  obtain ⟨first, rest, c, hfirst, hc, hrest⟩ := ht
  have hpart : ∀ w : Bytes, w.getLast? = some 46 → last ++ (first ++ [c]) ≠ w := by
    rintro w hw rfl
    rw [← List.append_assoc, List.getLast?_concat] at hw
    exact hc (Option.some.inj hw)
  unfold SoundFront at hs
  rw [hsplit, List.dropLast_concat] at hs
  rw [below_append, Named, happend, hfirst, List.modifyHead_cons]
  refine ⟨?_, last ++ (first ++ [c]), by simp, by simp, hpart [46] rfl⟩
  rw [List.mem_append, List.mem_cons, not_or, not_or]
  exact ⟨hs, (hpart [46, 46] rfl).symm, hrest⟩

theorem parts_of_sound {s : Bytes} (h : [46, 46] ∉ s.splitOn 47) : SoundFront s :=
  fun hmem => h (List.mem_of_mem_dropLast hmem)

theorem soundFront_of_append {s t : Bytes} (h : [46, 46] ∉ (s ++ t).splitOn 47) : SoundFront s := by
  obtain ⟨front, last, hsplit, happend⟩ := splitOn_parts s
  unfold SoundFront
  rw [hsplit, List.dropLast_concat]
  rw [happend, List.mem_append, not_or] at h
  exact h.1

theorem sound_iff {s : Bytes} (h : SoundFront s) :
    [46, 46] ∉ s.splitOn 47 ↔ (s.splitOn 47).getLast? ≠ some [46, 46] := by
  obtain ⟨front, last, hsplit, -⟩ := splitOn_parts s
  unfold SoundFront at h
  rw [hsplit, List.dropLast_concat] at h
  rw [hsplit, List.getLast?_concat, List.mem_append, List.mem_singleton, not_or]
  simp only [h, not_false_eq_true, true_and, ne_eq, Option.some.injEq, eq_comm]

/-- What is below a directory next to the file is named by the text behind that. -/
theorem below_sibling {cache : CacheDir} {r : Bytes} (name name' : Bytes) (hslash : 47 ∉ name)
    (hname : 3 ≤ name.length) (hname' : [46, 46] ∉ name'.splitOn 47) (hnamed : Named name')
    (hr : [46, 46] ∉ (r ++ 47 :: name).splitOn 47) :
    Below cache (cache.path ++ ((r ++ 47 :: name) ++ (r ++ 47 :: name'))) := by
  have hfront : [46, 46] ∉ r.splitOn 47 := by
    rw [List.splitOn_append_cons_self, List.mem_append, not_or] at hr
    exact hr.1
  have hmiddle : [46, 46] ∉ (name ++ r).splitOn 47 := by
    obtain ⟨front, last, hsplit, happend⟩ := splitOn_parts name
    rw [List.splitOn_eq_singleton hslash] at hsplit
    obtain ⟨rfl, hlast⟩ := List.append_eq_singleton_iff.mp hsplit.symm |>.resolve_right (by simp)
    obtain rfl := List.singleton_inj.mp hlast
    rw [happend, List.nil_append]
    intro hmem
    cases hparts : r.splitOn 47 with
    | nil => exact List.splitOn_ne_nil 47 r hparts
    | cons first parts =>
      rw [hparts, List.modifyHead_cons, List.mem_cons] at hmem
      obtain hmem | hmem := hmem
      · have hlength := congrArg List.length hmem
        rw [List.length_append] at hlength
        simp only [List.length_cons, List.length_nil] at hlength
        omega
      · exact hfront (hparts ▸ List.mem_cons_of_mem first hmem)
  have hsplit : ((r ++ 47 :: name) ++ (r ++ 47 :: name')).splitOn 47 =
      r.splitOn 47 ++ ((name ++ r).splitOn 47 ++ name'.splitOn 47) := by
    rw [← List.splitOn_append_cons_self (name ++ r) name', ← List.splitOn_append_cons_self]
    congr 1
    simp
  rw [below_append, Named, hsplit]
  refine ⟨?_, ?_⟩
  · rw [List.mem_append, List.mem_append, not_or, not_or]
    exact ⟨hfront, hmiddle, hname'⟩
  · obtain ⟨w, hw, hne⟩ := hnamed
    exact ⟨w, List.mem_append_right _ (List.mem_append_right _ hw), hne⟩

/-! The names that are derived from a path. -/

theorem baseOf_foldl (path : Bytes) (sfxs : List Bytes) (bname : Bytes) :
    let base := sfxs.foldl (fun bname sfx =>
      if sfx.isSuffixOf path then path.take (path.length - sfx.length) else bname) bname
    (base = bname ∧ ∀ sfx ∈ sfxs, ¬ sfx <:+ path) ∨ ∃ sfx ∈ sfxs, path = base ++ sfx := by
  induction sfxs generalizing bname with
  | nil => exact .inl ⟨rfl, by simp⟩
  | cons sfx sfxs ih =>
    simp only [List.foldl_cons]
    by_cases hsfx : sfx.isSuffixOf path = true
    · rw [if_pos hsfx]
      obtain ⟨hbase, -⟩ | ⟨sfx', hmem, hpath⟩ := ih (path.take (path.length - sfx.length))
      · refine .inr ⟨sfx, List.mem_cons_self, ?_⟩
        rw [hbase]
        exact (List.suffix_iff_eq_append.mp (List.isSuffixOf_iff_suffix.mp hsfx)).symm
      · exact .inr ⟨sfx', List.mem_cons_of_mem sfx hmem, hpath⟩
    · rw [if_neg hsfx]
      obtain ⟨hbase, hnone⟩ | ⟨sfx', hmem, hpath⟩ := ih bname
      · refine .inl ⟨hbase, List.forall_mem_cons.mpr ⟨fun h => hsfx ?_, hnone⟩⟩
        exact List.isSuffixOf_iff_suffix.mpr h
      · exact .inr ⟨sfx', List.mem_cons_of_mem sfx hmem, hpath⟩

theorem baseOf_cases (path : Bytes) :
    (baseOf path = path ∧ ∀ sfx ∈ sfxXzBz2GzLzma, ¬ sfx <:+ path) ∨
      ∃ sfx ∈ sfxXzBz2GzLzma, path = baseOf path ++ sfx :=
  baseOf_foldl path sfxXzBz2GzLzma path

/-- The last two bytes tell the suffixes from each other. -/
theorem sfx_ends : (∀ sfx ∈ sfxXzBz2GzLzma, 2 ≤ sfx.length) ∧
    ∀ sfx ∈ sfxXzBz2GzLzma, ∀ sfx' ∈ sfxXzBz2GzLzma,
      sfx.reverse.take 2 = sfx'.reverse.take 2 → sfx = sfx' := by
  decide

/-- The last two bytes are those of the text behind. -/
theorem take_reverse_append (t : Bytes) {s : Bytes} (h : 2 ≤ s.length) :
    (t ++ s).reverse.take 2 = s.reverse.take 2 := by
  rw [List.reverse_append, List.take_append_of_le_length]
  rwa [List.length_reverse]

theorem baseOf_append {stem sfx : Bytes} (h : sfx ∈ sfxXzBz2GzLzma) :
    baseOf (stem ++ sfx) = stem := by
  obtain ⟨-, hnone⟩ | ⟨sfx', hmem, hpath⟩ := baseOf_cases (stem ++ sfx)
  · exact absurd (List.suffix_append stem sfx) (hnone sfx h)
  · have hsame : sfx = sfx' := by
      refine sfx_ends.2 sfx h sfx' hmem ?_
      rw [← take_reverse_append stem (sfx_ends.1 sfx h), hpath,
        take_reverse_append _ (sfx_ends.1 sfx' hmem)]
    rw [← hsame] at hpath
    exact (List.append_cancel_right hpath).symm

/-- The release files are not compressed. -/
theorem baseOf_key (r : Bytes) {key : Bytes} (h : key ∈ [relKey, inRelKey]) :
    baseOf (r ++ key) = r ++ key := by
  obtain ⟨hbase, -⟩ | ⟨sfx, hmem, hpath⟩ := baseOf_cases (r ++ key)
  · exact hbase
  · have hkey : 2 ≤ key.length := (by decide : ∀ key ∈ [relKey, inRelKey], 2 ≤ key.length) key h
    have hends := congrArg (fun s : Bytes => s.reverse.take 2) hpath
    simp only [take_reverse_append _ hkey, take_reverse_append _ (sfx_ends.1 sfx hmem)] at hends
    exact absurd hends ((by decide : ∀ key ∈ [relKey, inRelKey], ∀ sfx ∈ sfxXzBz2GzLzma,
      key.reverse.take 2 ≠ sfx.reverse.take 2) key h sfx hmem)

theorem mem_baseOf {path : Bytes} {c : UInt8} (h : c ∈ baseOf path) : c ∈ path := by
  obtain ⟨hbase, -⟩ | ⟨sfx, -, hpath⟩ := baseOf_cases path
  · exact hbase ▸ h
  · rw [hpath]
    exact List.mem_append_left sfx h

/-- Every candidate is the base with something behind it. -/
theorem mem_relatedNames {path cand : Bytes} (h : cand ∈ relatedNames path) :
    (∃ sfx ∈ sfxMiscRelated, cand = baseOf path ++ sfx) ∨
      ∃ r key key', path = r ++ key ∧ cand = baseOf path ++ (r ++ key') ∧
        (key = relKey ∧ key' = inRelKey ∨ key = inRelKey ∧ key' = relKey) := by
  have hkey : ∀ key : Bytes, key.isSuffixOf path = true →
      path = path.take (path.length - key.length) ++ key := fun key hkey =>
    (List.suffix_iff_eq_append.mp (List.isSuffixOf_iff_suffix.mp hkey)).symm
  unfold relatedNames at h
  obtain h | h := List.mem_append.mp h
  · obtain h | h := List.mem_append.mp h
    · obtain ⟨sfx, hsfx, rfl⟩ := List.mem_map.mp h
      exact .inl ⟨sfx, hsfx, rfl⟩
    · split at h
      · next hrel =>
        exact .inr ⟨_, relKey, inRelKey, hkey relKey hrel, List.mem_singleton.mp h, .inl ⟨rfl, rfl⟩⟩
      · exact absurd h List.not_mem_nil
  · split at h
    · next hrel =>
      exact .inr ⟨_, inRelKey, relKey, hkey inRelKey hrel, List.mem_singleton.mp h, .inr ⟨rfl, rfl⟩⟩
    · exact absurd h List.not_mem_nil

theorem sfxMiscRelated_naming : ∀ sfx ∈ sfxMiscRelated, sfx = [] ∨ (Naming sfx ∧ 0 ∉ sfx) := by
  have hplain : ∀ sfx : Bytes, ∀ c, sfx.getLast? = some c → c ≠ 46 → 47 ∉ sfx → Naming sfx := by
    intro sfx c hlast hc hslash
    obtain ⟨first, rfl⟩ := List.getLast?_eq_some_iff.mp hlast
    exact ⟨first, [], c, List.splitOn_eq_singleton hslash, hc, List.not_mem_nil⟩
  have hindex : Naming (lit ".diff/Index") :=
    ⟨lit ".dif", [lit "Index"], 102, by decide, by decide, by decide⟩
  simp only [sfxMiscRelated, List.forall_mem_cons, List.not_mem_nil, false_implies, implies_true,
    and_true, true_or, true_and]
  exact ⟨.inr ⟨hplain _ 122 (by decide) (by decide) (by decide), by decide⟩,
    .inr ⟨hplain _ 50 (by decide) (by decide) (by decide), by decide⟩,
    .inr ⟨hplain _ 122 (by decide) (by decide) (by decide), by decide⟩,
    .inr ⟨hplain _ 97 (by decide) (by decide) (by decide), by decide⟩,
    .inr ⟨hplain _ 103 (by decide) (by decide) (by decide), by decide⟩,
    .inr ⟨hindex, by decide⟩⟩

/-! What is handed to the system. -/

section Handed
variable (tools : DeleterTools) (cache : CacheDir)

theorem cstr_cache (rel : Bytes) : cstr (cache.path ++ rel) = cache.path ++ cstr rel :=
  cstr_append cache.path rel cache.noNul

/-- The head file of a path is where the path is, or it is the path itself behind a NUL. -/
theorem doFile_below (del : Bool) {path : Bytes} (hfront : 0 ∉ path → SoundFront path) :
    (∀ file ∈ doFile cache del path, Below cache file) ↔ Below cache (cache.path ++ cstr path) := by
  have hhead : Below cache (cache.path ++ cstr path) →
      Below cache (cstr (cache.path ++ path ++ lit ".head")) := by
    intro hpath
    rw [List.append_assoc, cstr_cache]
    by_cases hnul : 0 ∈ path
    · rwa [cstr_append_nul path _ hnul]
    · rw [cstr_append path _ hnul, cstr_eq_self (by decide : 0 ∉ lit ".head")]
      exact below_naming (hfront hnul)
        ⟨lit ".hea", [], 100, by decide, by decide, List.not_mem_nil⟩
  unfold doFile
  rw [cstr_cache]
  cases del with
  | true =>
    rw [if_pos rfl, List.forall_mem_cons, List.forall_mem_singleton]
    exact ⟨And.left, fun h => ⟨h, hhead h⟩⟩
  | false =>
    rw [if_neg Bool.false_ne_true, List.forall_mem_singleton]

theorem cstr_parts {path : Bytes} (h : nastyPath path = false) :
    [46, 46] ∉ (cstr path).splitOn 47 := by
  have hnul : 0 ∉ cstr path := fun hmem => by simpa using List.mem_takeWhile_imp hmem
  refine nastyPath_parent (cstr path) hnul ?_
  unfold nastyPath at h ⊢
  rwa [cstr_eq_self hnul]

/-- A path that was not refused is handed over safely if it has a name. -/
theorem doFile_listed (del : Bool) {path : Bytes} (h : nastyPath path = false) :
    (∀ file ∈ doFile cache del path, Below cache file) ↔ Named (cstr path) := by
  have hparts := cstr_parts h
  rw [doFile_below, below_append]
  · exact and_iff_right hparts
  · intro hnul
    rw [cstr_eq_self hnul] at hparts
    exact parts_of_sound hparts

/-- No file is there whose name without the suffix is a way upwards or no name at all. -/
def HarmlessStem (path : Bytes) : Prop :=
  0 ∉ path → ∀ stem, ∀ sfx ∈ sfxXzBz2GzLzma, path = stem ++ sfx →
    tools.access (cache.path ++ stem) = true →
    (stem.splitOn 47).getLast? ≠ some [46, 46] ∧ Named stem

/-- A candidate that differs from the base by more than a suffix of a compressed file. -/
theorem candidate_below {path cand : Bytes} (hnul : 0 ∉ path) (h : nastyPath path = false)
    (hcand : cand ∈ relatedNames path) (hne : cand ≠ baseOf path) :
    SoundFront cand ∧ Below cache (cache.path ++ cstr cand) := by
  have hparts : [46, 46] ∉ path.splitOn 47 := by
    have hparts := cstr_parts h
    rwa [cstr_eq_self hnul] at hparts
  have hfront : SoundFront (baseOf path) := by
    obtain ⟨hbase, -⟩ | ⟨sfx, -, hpath⟩ := baseOf_cases path
    · rw [hbase]
      exact parts_of_sound hparts
    · rw [hpath] at hparts
      exact soundFront_of_append hparts
  have hbasenul : 0 ∉ baseOf path := fun hmem => hnul (mem_baseOf hmem)
  have hbelow : Below cache (cache.path ++ cand) ∧ 0 ∉ cand := by
    obtain ⟨sfx, hsfx, rfl⟩ | ⟨r, key, key', hpath, rfl, hkeys⟩ := mem_relatedNames hcand
    · obtain rfl | ⟨hnaming, hsfxnul⟩ := sfxMiscRelated_naming sfx hsfx
      · exact absurd (List.append_nil _) hne
      · exact ⟨below_naming hfront hnaming, by simp [hbasenul, hsfxnul]⟩
    · have hnuls : ∀ s ∈ [relKey, inRelKey], (0 : UInt8) ∉ s := by decide
      have hnamed : ∀ name : Bytes, 47 ∉ name → name ≠ [] → name ≠ [46] → Named name :=
        fun name hslash hne hdot =>
          ⟨name, by rw [List.splitOn_eq_singleton hslash]; exact List.mem_singleton_self name,
            hne, hdot⟩
      rw [hpath] at hparts hnul
      rw [hpath, baseOf_key]
      · obtain ⟨rfl, rfl⟩ | ⟨rfl, rfl⟩ := hkeys
        · refine ⟨below_sibling (lit "Release") (lit "InRelease") (by decide)
            (by decide) (by decide) (hnamed _ (by decide) (by decide) (by decide)) hparts, ?_⟩
          simp only [List.mem_append, not_or] at hnul ⊢
          exact ⟨hnul, hnul.1, hnuls _ (by simp)⟩
        · refine ⟨below_sibling (lit "InRelease") (lit "Release") (by decide)
            (by decide) (by decide) (hnamed _ (by decide) (by decide) (by decide)) hparts, ?_⟩
          simp only [List.mem_append, not_or] at hnul ⊢
          exact ⟨hnul, hnul.1, hnuls _ (by simp)⟩
      · obtain ⟨rfl, -⟩ | ⟨rfl, -⟩ := hkeys
        · exact List.mem_cons_self
        · exact List.mem_cons_of_mem _ List.mem_cons_self
  refine ⟨?_, by rw [cstr_eq_self hbelow.2]; exact hbelow.1⟩
  exact parts_of_sound (below_append.mp hbelow.1).1

/-- The related files are below the cache directory as long as no stem is a way out. -/
theorem extraFiles_below (del : Bool) {path : Bytes} (h : nastyPath path = false)
    (hnamed : Named (cstr path)) :
    (∀ cand ∈ extraFiles tools cache path, ∀ file ∈ doFile cache del cand, Below cache file) ↔
      HarmlessStem tools cache path := by
  by_cases hnul : 0 ∈ path
  · refine iff_of_true (fun cand hcand => ?_) (fun hno => absurd hnul hno)
    -- everything behind the NUL is out of sight
    have hbase : 0 ∈ baseOf path ∧ cstr path = cstr (baseOf path) := by
      obtain ⟨hbase, -⟩ | ⟨sfx, hsfx, hpath⟩ := baseOf_cases path
      · exact ⟨hbase.symm ▸ hnul, by rw [hbase]⟩
      · have hsfxnul : 0 ∉ sfx := (by decide : ∀ sfx ∈ sfxXzBz2GzLzma, (0 : UInt8) ∉ sfx) sfx hsfx
        rw [hpath, List.mem_append] at hnul
        have hmem := hnul.resolve_right hsfxnul
        refine ⟨hmem, ?_⟩
        rw [← cstr_append_nul (baseOf path) sfx hmem, ← hpath]
    have hcandnul : 0 ∈ cand ∧ cstr cand = cstr path := by
      obtain ⟨sfx, -, rfl⟩ | ⟨r, key, key', -, rfl, -⟩ :=
        mem_relatedNames (List.mem_filter.mp hcand).1
      · exact ⟨List.mem_append_left _ hbase.1, by rw [cstr_append_nul _ _ hbase.1, hbase.2]⟩
      · exact ⟨List.mem_append_left _ hbase.1, by rw [cstr_append_nul _ _ hbase.1, hbase.2]⟩
    rw [doFile_below cache del (fun hno => absurd hcandnul.1 hno), hcandnul.2, below_append]
    exact ⟨cstr_parts h, hnamed⟩
  · have hparts : [46, 46] ∉ path.splitOn 47 := by
      have hparts := cstr_parts h
      rwa [cstr_eq_self hnul] at hparts
    constructor
    · rintro hall - stem sfx hsfx hpath haccess
      have hstemnul : 0 ∉ stem := fun hmem => hnul (hpath ▸ List.mem_append_left sfx hmem)
      have hbase : baseOf path = stem := by rw [hpath, baseOf_append hsfx]
      have hsfxne : sfx ≠ [] := (by decide : ∀ sfx ∈ sfxXzBz2GzLzma, sfx ≠ []) sfx hsfx
      have hextra : stem ∈ extraFiles tools cache path := by
        refine List.mem_filter.mpr ⟨?_, ?_⟩
        · rw [relatedNames, hbase, List.mem_append, List.mem_append]
          exact .inl (.inl (List.mem_map.mpr ⟨[], List.mem_cons_self, List.append_nil stem⟩))
        · rw [cstr_cache, cstr_eq_self hstemnul, haccess, Bool.and_true, bne_iff_ne, hpath]
          exact fun heq => hsfxne (List.self_eq_append_right.mp heq)
      have hbelow := (doFile_below cache del (fun _ => ?_)).mp (hall stem hextra)
      · rw [cstr_eq_self hstemnul, below_append] at hbelow
        exact ⟨(sound_iff (parts_of_sound hbelow.1)).mp hbelow.1, hbelow.2⟩
      · rw [hpath] at hparts
        exact soundFront_of_append hparts
    · intro hstem cand hcand
      obtain ⟨hrelated, hother⟩ := List.mem_filter.mp hcand
      rw [Bool.and_eq_true, bne_iff_ne] at hother
      by_cases hbase : cand = baseOf path
      · obtain ⟨hsame, -⟩ | ⟨sfx, hsfx, hpath⟩ := baseOf_cases path
        · exact absurd (hbase.trans hsame) hother.1
        · rw [← hbase] at hpath
          have hcandnul : 0 ∉ cand := fun hmem => hnul (hpath ▸ List.mem_append_left sfx hmem)
          rw [cstr_cache, cstr_eq_self hcandnul] at hother
          have hfront : SoundFront cand := soundFront_of_append (hpath ▸ hparts)
          obtain ⟨hlast, hname⟩ := hstem hnul cand sfx hsfx hpath hother.2
          rw [doFile_below cache del (fun _ => hfront), cstr_eq_self hcandnul, below_append]
          exact ⟨(sound_iff hfront).mpr hlast, hname⟩
      · obtain ⟨hfront, hbelow⟩ := candidate_below cache hnul h hrelated hbase
        exact (doFile_below cache del (fun _ => hfront)).mpr hbelow

/-- The request for one listed path. -/
def HarmlessPath (cmd path : Bytes) : Prop :=
  Named (cstr path) ∧
    ((find (lit "cleanRelated=") cmd).isSome → HarmlessStem tools cache path)

/-- The request lets the second look refuse it, only asks for a confirmation, or lists nothing but
harmless paths. -/
def HarmlessRequest (type : MaintWorkType) (cmd : Bytes) (listed : Bytes → Prop) : Prop :=
  (∃ path, listed path ∧ (path.any badChars.contains = true ∨ nastyPath path = true)) ∨
    type = .workDELETECONFIRM ∨ type = .workTRUNCATECONFIRM ∨
    ∀ path, listed path → HarmlessPath tools cache cmd path

theorem handedPaths_below (type : MaintWorkType) (cmd : Bytes) (filePaths : List Bytes) :
    (∀ file ∈ handedPaths tools cache type cmd filePaths, Below cache file) ↔
      HarmlessRequest tools cache type cmd (· ∈ filePaths) := by
  unfold handedPaths HarmlessRequest
  by_cases hbad : filePaths.any (fun path => path.any badChars.contains || nastyPath path) = true
  · rw [if_pos hbad]
    obtain ⟨path, hpath, hrefused⟩ := List.any_eq_true.mp hbad
    exact iff_of_true (fun _ h => absurd h List.not_mem_nil)
      (.inl ⟨path, hpath, (Bool.or_eq_true _ _).mp hrefused⟩)
  · have hfine : ∀ path ∈ filePaths, nastyPath path = false := fun path hpath => by
      rw [← Bool.not_eq_true]
      exact fun hnasty => hbad (List.any_eq_true.mpr ⟨path, hpath, by rw [hnasty, Bool.or_true]⟩)
    have hnone : ¬ ∃ path, path ∈ filePaths ∧
        (path.any badChars.contains = true ∨ nastyPath path = true) :=
      fun ⟨path, hpath, hrefused⟩ =>
        hbad (List.any_eq_true.mpr ⟨path, hpath, (Bool.or_eq_true _ _).mpr hrefused⟩)
    rw [if_neg hbad, or_iff_right hnone, ← or_assoc]
    simp only [Bool.or_eq_true, decide_eq_true_eq]
    by_cases hconfirm : type = .workDELETECONFIRM ∨ type = .workTRUNCATECONFIRM
    · rw [if_pos hconfirm]
      exact iff_of_true (fun _ h => absurd h List.not_mem_nil) (.inl hconfirm)
    · rw [if_neg hconfirm, or_iff_right hconfirm]
      simp only [List.forall_mem_flatMap, List.forall_mem_append]
      constructor
      · intro hall path hpath
        obtain ⟨hown, hextra⟩ := hall path hpath
        have hnamed := (doFile_listed cache _ (hfine path hpath)).mp hown
        refine ⟨hnamed, fun hclean => ?_⟩
        rw [if_pos hclean] at hextra
        refine (extraFiles_below tools cache (decide (type = .workDELETE)) (hfine path hpath)
          hnamed).mp fun cand hcand => ?_
        exact hextra cand (List.mem_flatMap.mpr ⟨path, hpath, hcand⟩)
      · intro hall path hpath
        refine ⟨(doFile_listed cache _ (hfine path hpath)).mpr (hall path hpath).1, ?_⟩
        intro cand hcand
        split at hcand
        · next hclean =>
          obtain ⟨path', hpath', hcand⟩ := List.mem_flatMap.mp hcand
          obtain ⟨hnamed, hstem⟩ := hall path' hpath'
          exact (extraFiles_below tools cache _ (hfine path' hpath') hnamed).mpr (hstem hclean)
            cand hcand
        · exact absurd hcand List.not_mem_nil

/-- Whatever the client sends, the loop over the records stays in the buffer and ends. What is then
deleted or truncated is below the cache directory if and only if the request is harmless. -/
theorem tDeleter_confined_iff (type : MaintWorkType) (cmd : Bytes) :
    (selectFiles tools cmd ≠ .overread ∧ selectFiles tools cmd ≠ .running ∧
        ∀ file ∈ handedPaths tools cache type cmd (selectFiles tools cmd).filePaths,
          Below cache file) ↔
      HarmlessRequest tools cache type cmd (Listed tools cmd) := by
  obtain ⟨hread, hend, hlisted⟩ := selectFiles_listed tools cmd
  rw [handedPaths_below, and_iff_right hread, and_iff_right hend]
  simp only [HarmlessRequest, hlisted]

end Handed

def usualCache : CacheDir where
  path := lit "/var/cache/apt-cacher-ng/"
  noNul := by decide
  slash := by decide

/-- A client that lists one path with the id 0, on a system where every file is there. -/
def listOne (path : Bytes) : DeleterTools where
  z :=
    { compress s := s
      uncompress _ _ := some (catalogue (lit "acng-report.html?doExpire=1") [(path, 0)]) }
  decodeBase64 _ := some (littleEndian 4 99 ++ [120, 156, 99, 96])
  access _ := true

def deleteYes : Bytes := lit "acng-report.html?doDeleteYes=1&kf=0&cleanRelated=1&blob=Yw=="

/-- The directory above is deleted together with the related file of `...xz`. -/
theorem deleteYes_leaves : ¬ (selectFiles (listOne (lit "a/...xz")) deleteYes ≠ .overread ∧
    selectFiles (listOne (lit "a/...xz")) deleteYes ≠ .running ∧
    ∀ file ∈ handedPaths (listOne (lit "a/...xz")) usualCache .workDELETE deleteYes
      (selectFiles (listOne (lit "a/...xz")) deleteYes).filePaths, Below usualCache file) := by
  rintro ⟨-, -, hall⟩
  have hhanded : usualCache.path ++ lit "a/.." ∈ handedPaths (listOne (lit "a/...xz")) usualCache .workDELETE
      deleteYes (selectFiles (listOne (lit "a/...xz")) deleteYes).filePaths := by
    simp only [listOne, deleteYes, lit]
    repeat rw [String.toList_ofList]
    decide +kernel
  have hbelow := hall (usualCache.path ++ lit "a/..") hhanded
  exact (below_append.mp hbelow).1 (by decide)

end Acng
