import Acng.Deleter
import Acng.Lib.Scan

namespace Acng
open Lib

/-! The ids in base 36. -/

theorem base36_digit : ∀ k : Fin 36, isalnum (base36.getD k 0) = true ∧
    base36Value (base36.getD k 0) = k := by
  decide

theorem base36_digit_of_lt {k : Nat} (h : k < 36) : isalnum (base36.getD k 0) = true ∧
    base36Value (base36.getD k 0) = k :=
  base36_digit ⟨k, h⟩

theorem isalnum_graph : ∀ c : UInt8, isalnum c = true →
    isspace c = false ∧ (c == 45) = false ∧ (c == 43) = false ∧ c ≠ 0 ∧ c ≠ 38 ∧
      badChars.contains c = false := by
  intro c hc
  have hne (b : UInt8) (hb : isalnum b = false) : c ≠ b := fun h =>
    Bool.noConfusion (hb.symm.trans (h ▸ hc))
  have hspace : isspace c = false := by
    simp only [isspace, beq_false_of_ne (hne 32 rfl), beq_false_of_ne (hne 12 rfl),
      beq_false_of_ne (hne 10 rfl), beq_false_of_ne (hne 13 rfl), beq_false_of_ne (hne 9 rfl),
      beq_false_of_ne (hne 11 rfl), Bool.or_self]
  have hbad : badChars.all (fun b => !isalnum b) = true := rfl
  have hno : badChars.contains c = false := by
    refine Bool.eq_false_iff.mpr (fun h => ?_)
    have hc' := List.all_eq_true.mp hbad c (List.contains_iff_mem.mp h)
    rw [hc] at hc'
    exact Bool.noConfusion hc'
  exact ⟨hspace, beq_false_of_ne (hne 45 rfl), beq_false_of_ne (hne 43 rfl), hne 0 rfl, hne 38 rfl, hno⟩

theorem toBase36_alnum (n : Nat) : ∀ c ∈ toBase36 n, isalnum c = true := by
  induction n using Nat.strongRecOn with
  | ind n ih =>
    rw [toBase36]
    split
    · next hn => exact List.forall_mem_singleton.mpr (base36_digit_of_lt hn).1
    · next hn =>
      rw [List.forall_mem_append]
      refine ⟨ih (n / 36) (by omega), List.forall_mem_singleton.mpr ?_⟩
      exact (base36_digit_of_lt (Nat.mod_lt n (by decide))).1

theorem toBase36_ne_nil (n : Nat) : toBase36 n ≠ [] := by
  rw [toBase36]
  split <;> simp

theorem toBase36_value (n : Nat) :
    (toBase36 n).foldl (fun n d => 36 * n + base36Value d) 0 = n := by
  induction n using Nat.strongRecOn with
  | ind n ih =>
    rw [toBase36]
    split
    · next hn =>
      change 36 * 0 + base36Value (base36.getD n 0) = n
      rw [(base36_digit_of_lt hn).2, Nat.mul_zero, Nat.zero_add]
    · next hn =>
      rw [List.foldl_append, ih (n / 36) (by omega), List.foldl_cons, List.foldl_nil,
        (base36_digit_of_lt (Nat.mod_lt n (by decide))).2]
      omega

/-- An id is read back as it was written. -/
theorem strtoul36_toBase36 {n : Nat} (hn : n < 2 ^ 64) : strtoul36 (toBase36 n) = (n, []) := by
  have halnum := toBase36_alnum n
  have hfront : sign ((cstr (toBase36 n)).dropWhile isspace) = (false, toBase36 n) := by
    rw [cstr_eq_self (fun h => (isalnum_graph 0 (halnum 0 h)).2.2.2.1 rfl)]
    cases hd : toBase36 n with
    | nil => exact absurd hd (toBase36_ne_nil n)
    | cons d ds =>
      obtain ⟨hspace, hminus, hplus, _⟩ := isalnum_graph d (halnum d (hd ▸ List.mem_cons_self))
      rw [List.dropWhile_cons_of_neg (by simp [hspace])]
      simp [sign, hminus, hplus]
  have htake : (toBase36 n).takeWhile isalnum = toBase36 n :=
    List.takeWhile_eq_self_iff.mpr halnum
  have hdrop : (toBase36 n).dropWhile isalnum = [] := List.dropWhile_eq_nil_iff.mpr halnum
  unfold strtoul36
  simp only [hfront, htake, hdrop, toBase36_value]
  rw [if_neg (by simpa using toBase36_ne_nil n), if_neg (by omega)]
  rfl

/-! The memory of paths. -/

namespace PathMemory

/-- No path is there twice, and the ids are numbers of 32 bits. -/
structure Sound (m : PathMemory) : Prop where
  nodup : (m.map Prod.fst).Nodup
  ids : ∀ kv ∈ m, kv.2 < 2 ^ 32

theorem addLookupGetKey_sound {m : PathMemory} (h : Sound m) (path : Bytes) :
    Sound (addLookupGetKey m path).1 := by
  unfold addLookupGetKey
  split
  · exact h
  · next hnone =>
    have hperm := List.perm_orderedInsert (fun a b : Bytes × Nat => a.1 ≤ b.1)
      (path, m.length % 2 ^ 32) m
    refine ⟨(hperm.map Prod.fst).nodup_iff.mpr ?_, fun kv hkv => ?_⟩
    · rw [List.map_cons, List.nodup_cons]
      refine ⟨fun hmem => ?_, h.nodup⟩
      obtain ⟨kv, hkv, hpath⟩ := List.mem_map.mp hmem
      exact (List.find?_eq_none.mp hnone) kv hkv (beq_iff_eq.mpr hpath)
    · obtain rfl | hkv := List.mem_cons.mp (hperm.mem_iff.mp hkv)
      · exact Nat.mod_lt _ (by decide)
      · exact h.ids kv hkv

theorem ofPaths_sound (paths : List Bytes) : Sound (ofPaths paths) := by
  refine List.foldlRecOn paths _ ⟨List.nodup_nil, by simp⟩ ?_
  exact fun m hm path _ => addLookupGetKey_sound hm path

end PathMemory

/-! The form. -/

/-- A form that was sent back: some page, the tags and the blob, and other fields. -/
structure Submission where
  page : Bytes
  ids : List Nat
  value : Bytes
  fields : List Bytes
  noQuery : 63 ∉ page
  ids_lt : ∀ id ∈ ids, id < 2 ^ 32
  clean : ∀ text ∈ page :: fields, ∀ c ∈ text, badChars.contains c = false
  field : ∀ tok ∈ fields, tok ≠ [] ∧ 38 ∉ tok
  tags : fields.filter ((lit "kf=").isPrefixOf ·) = ids.map (lit "kf=" ++ toBase36 ·)
  blobs : fields.filter ((lit "blob=").isPrefixOf ·) = [lit "blob=" ++ value]

def Submission.cmd (s : Submission) : Bytes := s.page ++ 63 :: [38].intercalate s.fields

theorem splitWalk_intercalate (toks : List Bytes) (h : ∀ tok ∈ toks, tok ≠ [] ∧ 38 ∉ tok) :
    splitWalk (· == 38) ([38].intercalate toks) = toks := by
  unfold splitWalk
  cases toks with
  | nil => rfl
  | cons tok toks =>
    have hsplit : ([38].intercalate (tok :: toks)).splitOnP (· == 38) = tok :: toks :=
      List.splitOn_intercalate 38 (fun tok' htok => (h tok' htok).2) (List.cons_ne_nil tok toks)
    rw [hsplit]
    exact List.filter_eq_self.mpr (fun tok' htok => by simpa using (h tok' htok).1)

namespace DeleteForm

/-- Only the tags decide about the files. -/
theorem foldl_files (toks : List Bytes) {form form' : DeleteForm} (h : form.files = form'.files) :
    (toks.foldl addToken form).files =
      ((toks.filter ((lit "kf=").isPrefixOf ·)).foldl addToken form').files := by
  induction toks generalizing form form' with
  | nil => exact h
  | cons tok toks ih =>
    rw [List.foldl_cons]
    by_cases htok : (lit "kf=").isPrefixOf tok = true
    · rw [List.filter_cons_of_pos htok, List.foldl_cons]
      apply ih
      simp only [addToken, htok, if_true, h]
      split
      · rfl
      · exact h
    · rw [List.filter_cons_of_neg htok]
      apply ih
      simp only [addToken, htok, Bool.false_eq_true, if_false]
      split
      · exact h
      · exact h

/-- Only the fields with a blob decide about the blob. -/
theorem foldl_blob (toks : List Bytes) {form form' : DeleteForm} (h : form.blob = form'.blob) :
    (toks.foldl addToken form).blob =
      ((toks.filter ((lit "blob=").isPrefixOf ·)).foldl addToken form').blob := by
  induction toks generalizing form form' with
  | nil => exact h
  | cons tok toks ih =>
    rw [List.foldl_cons]
    by_cases htok : (lit "blob=").isPrefixOf tok = true
    · rw [List.filter_cons_of_pos htok, List.foldl_cons]
      have hkf : (lit "kf=").isPrefixOf tok = false := by
        obtain ⟨t, rfl⟩ := List.isPrefixOf_iff_prefix.mp htok
        rfl
      apply ih
      simp only [addToken, htok, hkf, if_true, Bool.false_eq_true, if_false]
    · rw [List.filter_cons_of_neg htok]
      apply ih
      simp only [addToken, htok, Bool.false_eq_true, if_false]
      split
      · split
        · exact h
        · exact h
      · exact h

theorem foldl_tags (ids : List Nat) (form : DeleteForm) (h : ∀ id ∈ ids, id < 2 ^ 32) :
    ((ids.map (lit "kf=" ++ toBase36 ·)).foldl addToken form).files = ids.reverse ++ form.files := by
  induction ids generalizing form with
  | nil => rfl
  | cons id ids ih =>
    obtain ⟨hid, hids⟩ := List.forall_mem_cons.mp h
    have hadd : addToken form (lit "kf=" ++ toBase36 id) =
        { form with files := id :: form.files } := by
      have hval : strtoul36 ((lit "kf=" ++ toBase36 id).drop 3) = (id, []) :=
        strtoul36_toBase36 (by omega)
      have hkf : (lit "kf=").isPrefixOf (lit "kf=" ++ toBase36 id) = true :=
        List.isPrefixOf_iff_prefix.mpr ⟨_, rfl⟩
      simp only [addToken, hkf, if_true, hval, List.head?_nil, Option.all_none, Nat.mod_eq_of_lt hid]
    rw [List.map_cons, List.foldl_cons, hadd, ih _ hids, List.reverse_cons, List.append_assoc]
    rfl

end DeleteForm

/-- The form is read as it was filled in. -/
theorem Submission.form (s : Submission) :
    DeleteForm.ofParams ([38].intercalate s.fields) =
      { files := s.ids.reverse, blob := lit "blob=" ++ s.value } := by
  have hfiles := DeleteForm.foldl_files s.fields (Eq.refl (DeleteForm.mk [] []).files)
  have hblob := DeleteForm.foldl_blob s.fields (Eq.refl (DeleteForm.mk [] []).blob)
  rw [s.tags, DeleteForm.foldl_tags _ _ s.ids_lt, List.append_nil] at hfiles
  rw [s.blobs] at hblob
  unfold DeleteForm.ofParams
  rw [splitWalk_intercalate _ s.field]
  exact congrArg₂ DeleteForm.mk hfiles hblob

/-! The blob. -/

/-- The documented behaviour of the decoders. -/
structure DeleterTools.Lawful (tools : DeleterTools) : Prop where
  decode : ∀ d, d ≠ [] → tools.decodeBase64 (encodeBase64 d) = some d
  inverse : ∀ s room, s.length ≤ room → tools.z.uncompress room (tools.z.compress s) = some s
  noRoom : ∀ s room, room < s.length → tools.z.uncompress room (tools.z.compress s) = none
  cut : ∀ s t room, t <+: tools.z.compress s → t ≠ tools.z.compress s →
    tools.z.uncompress room t = none
  header : ∀ s, 4 ≤ (tools.z.compress s).length

/-- What the blob stands for, before its encoding. -/
theorem blob_bytes (len : Nat) (gz : Bytes) (k : Nat) :
    (littleEndian 4 len ++ gz).take (k + 4) = littleEndian 4 len ++ gz.take k := by
  rw [List.take_append, length_littleEndian, Nat.add_sub_cancel,
    List.take_of_length_le (by rw [length_littleEndian]; omega)]

/-- The catalogue fits into the limits of both sides. -/
def CatalogueFits (z : Zlib) (cmd : Bytes) (m : PathMemory) : Prop :=
  (catalogue cmd m).length ≤ 100000 ∧ (z.compress (catalogue cmd m)).length < 2 ^ 16

theorem unpackBlob_decoded {tools : DeleterTools} (hlawful : tools.Lawful) {d : Bytes}
    (hd : d ≠ []) :
    unpackBlob tools (lit "blob=" ++ encodeBase64 d) =
      if d.length < 8 then none
      else if 100000 < readLittleEndian (d.take 4) then none
      else tools.z.uncompress (readLittleEndian (d.take 4)) (d.drop 4) := by
  have hne : (lit "blob=" ++ encodeBase64 d).isEmpty = false := rfl
  have hdrop : (lit "blob=" ++ encodeBase64 d).drop 5 = encodeBase64 d := rfl
  unfold unpackBlob
  rw [hne, hdrop, hlawful.decode d hd]
  rfl

/-- A catalogue that fits arrives whole, and any other one not at all. -/
theorem unpackBlob_catalogue {tools : DeleterTools} (hlawful : tools.Lawful) (cmd : Bytes)
    (m : PathMemory) :
    (CatalogueFits tools.z cmd m →
      unpackBlob tools (lit "blob=" ++ buildCompressedDelFileCatalog tools.z cmd m) =
        some (catalogue cmd m)) ∧
    (¬ CatalogueFits tools.z cmd m →
      unpackBlob tools (lit "blob=" ++ buildCompressedDelFileCatalog tools.z cmd m) = none) := by
  unfold CatalogueFits buildCompressedDelFileCatalog
  generalize catalogue cmd m = buf
  generalize hgz : tools.z.compress buf = gz
  have hheader : 4 ≤ gz.length := hgz ▸ hlawful.header buf
  have hne : littleEndian 4 buf.length ++ gz.take (gz.length % 2 ^ 16) ≠ [] := by
    simp [littleEndian]
  have htake : (littleEndian 4 buf.length ++ gz.take (gz.length % 2 ^ 16)).take 4 =
      littleEndian 4 buf.length := List.take_left' (length_littleEndian 4 _)
  have hdrop : (littleEndian 4 buf.length ++ gz.take (gz.length % 2 ^ 16)).drop 4 =
      gz.take (gz.length % 2 ^ 16) := List.drop_left' (length_littleEndian 4 _)
  simp only [hgz, blob_bytes]
  rw [unpackBlob_decoded hlawful hne, htake, hdrop, readLittleEndian_littleEndian]
  by_cases hgzlt : gz.length < 2 ^ 16
  · rw [Nat.mod_eq_of_lt hgzlt, List.take_length]
    have hlen : ¬ (littleEndian 4 buf.length ++ gz).length < 8 := by
      rw [List.length_append, length_littleEndian]
      omega
    rw [if_neg hlen]
    refine ⟨fun hfits => ?_, fun hnot => ?_⟩
    · rw [Nat.mod_eq_of_lt (by omega), if_neg (by omega), ← hgz]
      exact hlawful.inverse buf _ (Nat.le_refl _)
    · have hlong : 100000 < buf.length := by omega
      by_cases hulen : 100000 < buf.length % 256 ^ 4
      · rw [if_pos hulen]
      · rw [if_neg hulen, ← hgz]
        exact hlawful.noRoom buf _ (by omega)
  · refine ⟨fun hfits => absurd hfits.2 hgzlt, fun _ => ?_⟩
    split
    · rfl
    · split
      · rfl
      · subst hgz
        refine hlawful.cut buf _ _ (List.take_prefix _ _) (fun heq => ?_)
        have hlength := congrArg List.length heq
        rw [List.length_take] at hlength
        omega

/-! The records. -/

/-- What one record does to the rest of the loop. -/
theorem recordLoop_addLine (files : List Nat) (fuel id : Nat) (s redoLink rest : Bytes)
    (filePaths : List Bytes) (hid : id < 2 ^ 32) (hs : s.length < 2 ^ 32) :
    recordLoop files (fuel + 1) redoLink filePaths (addLine id s ++ rest) =
      if redoLink.isEmpty then recordLoop files fuel s filePaths rest
      else if files.contains id then recordLoop files fuel redoLink (filePaths ++ [s]) rest
      else recordLoop files fuel redoLink filePaths rest := by
  have hid4 := readBytes_append (littleEndian 4 id) (littleEndian 4 s.length ++ (s ++ rest))
  have hlen4 := readBytes_append (littleEndian 4 s.length) (s ++ rest)
  have hbody := readBytes_append s rest
  rw [length_littleEndian] at hid4 hlen4
  have hroom : ¬ (littleEndian 4 id ++ (littleEndian 4 s.length ++ (s ++ rest))).length < 8 := by
    simp only [List.length_append, length_littleEndian]
    omega
  have hfits : ¬ (s ++ rest).length < s.length := by
    rw [List.length_append]
    omega
  have hvalue : ∀ n, n < 2 ^ 32 → n % 256 ^ 4 = n := fun n hn => Nat.mod_eq_of_lt hn
  rw [addLine, recordLoop]
  simp only [List.append_assoc, if_neg hroom, hid4, hlen4, readLittleEndian_littleEndian,
    hvalue _ hid, hvalue _ hs, if_neg hfits, hbody]

/-- The paths of the records with a ticked id. -/
def ticked (files : List Nat) (m : PathMemory) : List Bytes :=
  (m.filter (fun kv => files.contains kv.2)).map Prod.fst

theorem ticked_cons (files : List Nat) (kv : Bytes × Nat) (m : PathMemory) :
    ticked files (kv :: m) =
      if files.contains kv.2 then kv.1 :: ticked files m else ticked files m := by
  unfold ticked
  rw [List.filter_cons]
  split
  · rfl
  · rfl

theorem mem_ticked {files : List Nat} {m : PathMemory} {path : Bytes} :
    path ∈ ticked files m ↔ ∃ id ∈ files, (path, id) ∈ m := by
  simp [ticked, and_comm]

theorem recordLoop_records (files : List Nat) (m : PathMemory) (fuel : Nat) (redoLink rest : Bytes)
    (filePaths : List Bytes) (hm : ∀ kv ∈ m, kv.2 < 2 ^ 32 ∧ kv.1.length < 2 ^ 32)
    (hredo : redoLink.isEmpty = false) (hrest : rest.length < 8) (hfuel : m.length < fuel) :
    recordLoop files fuel redoLink filePaths (m.flatMap (fun kv => addLine kv.2 kv.1) ++ rest) =
      .selected (filePaths ++ ticked files m) redoLink := by
  induction m generalizing fuel filePaths with
  | nil =>
    obtain ⟨fuel, rfl⟩ := Nat.exists_eq_add_one_of_ne_zero (Nat.ne_zero_of_lt hfuel)
    simp [recordLoop, hrest, ticked]
  | cons kv m ih =>
    obtain ⟨fuel, rfl⟩ := Nat.exists_eq_add_one_of_ne_zero (Nat.ne_zero_of_lt hfuel)
    obtain ⟨⟨hid, hlen⟩, hm⟩ := List.forall_mem_cons.mp hm
    rw [List.length_cons] at hfuel
    rw [List.flatMap_cons, List.append_assoc, recordLoop_addLine _ _ _ _ _ _ _ hid hlen, hredo]
    by_cases hkv : files.contains kv.2 = true
    · rw [if_neg Bool.false_ne_true, if_pos hkv, ih _ _ hm (by omega)]
      rw [ticked_cons, if_pos hkv, List.append_assoc, List.singleton_append]
    · rw [if_neg Bool.false_ne_true, if_neg hkv, ih _ _ hm (by omega)]
      rw [ticked_cons, if_neg hkv]

/-- The entries that are left once something could be taken for the command. -/
def afterRedo (m : PathMemory) : PathMemory := (m.dropWhile (fun kv => kv.1.isEmpty)).tail

theorem afterRedo_cons (kv : Bytes × Nat) (m : PathMemory) :
    afterRedo (kv :: m) = if kv.1.isEmpty then afterRedo m else m := by
  unfold afterRedo
  rw [List.dropWhile_cons]
  split
  · rfl
  · rfl

/-- Without a command the first path that is not empty is taken for it. -/
theorem recordLoop_no_command (files : List Nat) (m : PathMemory) (fuel : Nat) (rest : Bytes)
    (hm : ∀ kv ∈ m, kv.2 < 2 ^ 32 ∧ kv.1.length < 2 ^ 32) (hrest : rest.length < 8)
    (hfuel : m.length < fuel) :
    ∃ redoLink, recordLoop files fuel [] [] (m.flatMap (fun kv => addLine kv.2 kv.1) ++ rest) =
      .selected (ticked files (afterRedo m)) redoLink := by
  induction m generalizing fuel with
  | nil =>
    obtain ⟨fuel, rfl⟩ := Nat.exists_eq_add_one_of_ne_zero (Nat.ne_zero_of_lt hfuel)
    exact ⟨[], by simp [recordLoop, hrest, ticked, afterRedo]⟩
  | cons kv m ih =>
    obtain ⟨fuel, rfl⟩ := Nat.exists_eq_add_one_of_ne_zero (Nat.ne_zero_of_lt hfuel)
    obtain ⟨⟨hid, hlen⟩, hm⟩ := List.forall_mem_cons.mp hm
    rw [List.length_cons] at hfuel
    rw [List.flatMap_cons, List.append_assoc, recordLoop_addLine _ _ _ _ _ _ _ hid hlen,
      List.isEmpty_nil, if_pos rfl, afterRedo_cons]
    cases hkv : kv.1.isEmpty with
    | true =>
      rw [List.isEmpty_iff.mp hkv, if_pos rfl]
      exact ih _ hm (by omega)
    | false =>
      rw [recordLoop_records _ _ _ _ _ _ hm hkv hrest (by omega), if_neg Bool.false_ne_true,
        List.nil_append]
      exact ⟨kv.1, rfl⟩

/-! A decoder for base 64 and an encoding that stands in for the compression. -/

theorem idxOf_base64Alphabet : ∀ k : Fin 64, base64Alphabet.idxOf (base64Alphabet.getD k 0) = k ∧
    base64Alphabet.getD k 0 ≠ 61 ∧ base64Alphabet.getD k 0 ≠ 38 ∧
    badChars.contains (base64Alphabet.getD k 0) = false := by
  unfold base64Alphabet lit
  rw [String.toList_ofList]
  decide +kernel

theorem base64Digit_spec (n : Nat) : base64Alphabet.idxOf (base64Digit n) = n % 64 ∧
    base64Digit n ≠ 61 ∧ base64Digit n ≠ 38 ∧ badChars.contains (base64Digit n) = false :=
  idxOf_base64Alphabet ⟨n % 64, Nat.mod_lt n (by decide)⟩

def decodeBase64 : Bytes → Option Bytes
  | [] => some []
  | a :: b :: c :: d :: text =>
    let bits := base64Alphabet.idxOf a * 262144 + base64Alphabet.idxOf b * 4096 +
      base64Alphabet.idxOf c * 64 + base64Alphabet.idxOf d
    if d == 61 then
      if c == 61 then some [UInt8.ofNat (bits / 65536)]
      else some [UInt8.ofNat (bits / 65536), UInt8.ofNat (bits / 256)]
    else
      (decodeBase64 text).map (fun data => UInt8.ofNat (bits / 65536) :: UInt8.ofNat (bits / 256) ::
        UInt8.ofNat bits :: data)
  | _ => none

theorem ofNat_eq {n : Nat} {c : UInt8} (h : n % 256 = c.toNat) : UInt8.ofNat n = c := by
  rw [← UInt8.toNat_inj, UInt8.toNat_ofNat']
  exact h

/-- Four digits stand for the 24 bits of a group. -/
theorem group_bits {n : Nat} (h : n < 2 ^ 24) :
    base64Alphabet.idxOf (base64Digit (n / 262144)) * 262144 +
      base64Alphabet.idxOf (base64Digit (n / 4096)) * 4096 +
      base64Alphabet.idxOf (base64Digit (n / 64)) * 64 +
      base64Alphabet.idxOf (base64Digit n) = n := by
  simp only [(base64Digit_spec _).1]
  omega

theorem idxOf_padding : base64Alphabet.idxOf 61 = 64 := by decide

theorem decodeBase64_encodeBase64 (data : Bytes) : decodeBase64 (encodeBase64 data) = some data := by
  induction data using encodeBase64.induct with
  | case1 a b c data ih =>
    have ha := a.toNat_lt
    have hb := b.toNat_lt
    have hc := c.toNat_lt
    have hlast : (base64Digit (a.toNat * 65536 + b.toNat * 256 + c.toNat) == 61) = false :=
      beq_false_of_ne (base64Digit_spec _).2.1
    simp only [encodeBase64, decodeBase64, hlast, Bool.false_eq_true, if_false, ih,
      Option.map_some, group_bits (n := a.toNat * 65536 + b.toNat * 256 + c.toNat) (by omega)]
    rw [ofNat_eq (c := a) (by omega), ofNat_eq (c := b) (by omega), ofNat_eq (c := c) (by omega)]
  | case2 a b =>
    have ha := a.toNat_lt
    have hb := b.toNat_lt
    have hthird : (base64Digit ((a.toNat * 65536 + b.toNat * 256) / 64) == 61) = false :=
      beq_false_of_ne (base64Digit_spec _).2.1
    simp only [encodeBase64, decodeBase64, hthird, Bool.false_eq_true, if_false, beq_self_eq_true,
      if_true, (base64Digit_spec _).1, idxOf_padding]
    rw [ofNat_eq (c := a) (by omega), ofNat_eq (c := b) (by omega)]
  | case3 a =>
    have ha := a.toNat_lt
    simp only [encodeBase64, decodeBase64, beq_self_eq_true, if_true, (base64Digit_spec _).1,
      idxOf_padding]
    rw [ofNat_eq (c := a) (by omega)]
  | case4 => rfl

theorem encodeBase64_clean (data : Bytes) :
    ∀ c ∈ encodeBase64 data, c ≠ 38 ∧ badChars.contains c = false := by
  have hdigit : ∀ n, base64Digit n ≠ 38 ∧ badChars.contains (base64Digit n) = false :=
    fun n => (base64Digit_spec n).2.2
  have hpadding : (61 : UInt8) ≠ 38 ∧ badChars.contains 61 = false := by decide
  induction data using encodeBase64.induct with
  | case1 a b c data ih =>
    simp only [encodeBase64, List.forall_mem_cons]
    exact ⟨hdigit _, hdigit _, hdigit _, hdigit _, ih⟩
  | case2 a b =>
    simp only [encodeBase64, List.forall_mem_cons]
    exact ⟨hdigit _, hdigit _, hdigit _, hpadding, by simp⟩
  | case3 a =>
    simp only [encodeBase64, List.forall_mem_cons]
    exact ⟨hdigit _, hdigit _, hpadding, hpadding, by simp⟩
  | case4 => simp [encodeBase64]

theorem buildCompressedDelFileCatalog_clean (z : Zlib) (cmd : Bytes) (m : PathMemory) :
    ∀ c ∈ buildCompressedDelFileCatalog z cmd m, c ≠ 38 ∧ badChars.contains c = false :=
  encodeBase64_clean _

/-- A form with these tags and the catalogue, as a browser sends it. -/
def submit (z : Zlib) (cmd : Bytes) (m : PathMemory) (page : Bytes) (ids : List Nat)
    (hquery : 63 ∉ page) (hclean : ∀ c ∈ page, badChars.contains c = false)
    (hids : ∀ id ∈ ids, id < 2 ^ 32) : Submission where
  page
  ids
  value := buildCompressedDelFileCatalog z cmd m
  fields := ids.map (lit "kf=" ++ toBase36 ·) ++
    [lit "blob=" ++ buildCompressedDelFileCatalog z cmd m]
  noQuery := hquery
  ids_lt := hids
  clean := by
    rw [List.forall_mem_cons]
    refine ⟨hclean, fun text htext c hc => ?_⟩
    obtain htext | htext := List.mem_append.mp htext
    · obtain ⟨id, _, rfl⟩ := List.mem_map.mp htext
      obtain hc | hc := List.mem_append.mp hc
      · exact (by decide +kernel : ∀ c ∈ lit "kf=", badChars.contains c = false) c hc
      · exact (isalnum_graph c (toBase36_alnum id c hc)).2.2.2.2.2
    · obtain rfl := List.mem_singleton.mp htext
      obtain hc | hc := List.mem_append.mp hc
      · exact (by decide +kernel : ∀ c ∈ lit "blob=", badChars.contains c = false) c hc
      · exact (buildCompressedDelFileCatalog_clean z cmd m c hc).2
  field := by
    intro tok htok
    obtain htok | htok := List.mem_append.mp htok
    · obtain ⟨id, _, rfl⟩ := List.mem_map.mp htok
      refine ⟨List.cons_ne_nil _ _, fun hsep => ?_⟩
      obtain hsep | hsep := List.mem_append.mp hsep
      · revert hsep
        decide
      · exact (isalnum_graph 38 (toBase36_alnum id 38 hsep)).2.2.2.2.1 rfl
    · obtain rfl := List.mem_singleton.mp htok
      refine ⟨List.cons_ne_nil _ _, fun hsep => ?_⟩
      obtain hsep | hsep := List.mem_append.mp hsep
      · revert hsep
        decide
      · exact (buildCompressedDelFileCatalog_clean z cmd m 38 hsep).1 rfl
  tags := by
    rw [List.filter_append, List.filter_eq_self.mpr]
    · exact List.append_nil _
    · intro tok htok
      obtain ⟨id, _, rfl⟩ := List.mem_map.mp htok
      rfl
  blobs := by
    rw [List.filter_append, List.filter_eq_nil_iff.mpr]
    · rfl
    · intro tok htok
      obtain ⟨id, _, rfl⟩ := List.mem_map.mp htok
      exact Bool.false_ne_true

theorem submit_value (z : Zlib) (cmd : Bytes) (m : PathMemory) (page : Bytes) (ids : List Nat)
    (hquery : 63 ∉ page) (hclean : ∀ c ∈ page, badChars.contains c = false)
    (hids : ∀ id ∈ ids, id < 2 ^ 32) :
    (submit z cmd m page ids hquery hclean hids).value = buildCompressedDelFileCatalog z cmd m :=
  rfl

theorem submit_ids (z : Zlib) (cmd : Bytes) (m : PathMemory) (page : Bytes) (ids : List Nat)
    (hquery : 63 ∉ page) (hclean : ∀ c ∈ page, badChars.contains c = false)
    (hids : ∀ id ∈ ids, id < 2 ^ 32) :
    (submit z cmd m page ids hquery hclean hids).ids = ids :=
  rfl

/-- Every byte behind a mark, and an end. -/
def stuff (data : Bytes) : Bytes := data.flatMap ([1, ·]) ++ [0, 0, 0, 0]

def unstuff : Bytes → Option Bytes
  | 1 :: c :: text => (unstuff text).map (c :: ·)
  | [0, 0, 0, 0] => some []
  | _ => none

theorem unstuff_stuff (data : Bytes) : unstuff (stuff data) = some data := by
  induction data with
  | nil => rfl
  | cons c data ih =>
    change (unstuff (stuff data)).map (c :: ·) = _
    rw [ih]
    rfl

theorem unstuff_cut {data text : Bytes} (h : text <+: stuff data) (hne : text ≠ stuff data) :
    unstuff text = none := by
  induction data generalizing text with
  | nil =>
    obtain ⟨k, rfl⟩ : ∃ k, text = (stuff []).take k := ⟨_, List.prefix_iff_eq_take.mp h⟩
    have hk : k < 4 := by
      by_contra hk
      exact hne (List.take_of_length_le (by simpa [stuff] using Nat.le_of_not_lt hk))
    exact (by decide : ∀ k < 4, unstuff ((stuff []).take k) = none) k hk
  | cons c data ih =>
    have hstuff : stuff (c :: data) = 1 :: c :: stuff data := rfl
    rw [hstuff] at h hne
    cases text with
    | nil => rfl
    | cons d text =>
      obtain ⟨rfl, hmark⟩ := List.cons_prefix_cons.mp h
      cases text with
      | nil => rfl
      | cons d text =>
        obtain ⟨rfl, htext⟩ := List.cons_prefix_cons.mp hmark
        rw [unstuff, ih htext (fun heq => hne (heq ▸ rfl))]
        rfl

/-- One catalogue and what zlib makes of it. -/
def sampleCatalogue : Bytes :=
  catalogue (lit "acng-report.html?justShow=1") (PathMemory.ofPaths [lit "debrep/a.deb"])

def sampleStream : Bytes := [120, 156, 99, 96, 96, 96, 144, 6, 226, 196, 228, 188, 116, 221, 162, 212, 130, 252, 162, 18, 189, 140, 146, 220, 28, 251, 172, 210, 226, 146, 224, 140, 252, 114, 91, 67, 160, 44, 3, 15, 16, 167, 164, 38, 1, 21, 232, 39, 234, 1, 25, 0, 133, 108, 14, 220]

def sampleTools : DeleterTools where
  z :=
    { compress s := if s = sampleCatalogue then sampleStream else stuff s
      uncompress room text :=
        ((if text = sampleStream then some sampleCatalogue else unstuff text).filter
          (fun s => decide (s.length ≤ room))) }
  decodeBase64
  access _ := false

theorem ne_sample_of_prefix_stuff {data text : Bytes} (h : text <+: stuff data) :
    text ≠ sampleStream := by
  rintro rfl
  obtain ⟨rest, hrest⟩ := h
  cases data with
  | nil => exact absurd (List.cons.inj hrest).1 (by decide)
  | cons c data => exact absurd (List.cons.inj hrest).1 (by decide)

theorem unstuff_cut_sample {text : Bytes} (h : text <+: sampleStream) : unstuff text = none := by
  obtain ⟨rest, hrest⟩ := h
  cases text with
  | nil => rfl
  | cons c text =>
    obtain rfl : c = 120 := (List.cons.inj hrest).1
    cases text <;> rfl

theorem sampleTools_uncompress (s : Bytes) (room : Nat) :
    sampleTools.z.uncompress room (sampleTools.z.compress s) =
      (some s).filter (fun s => decide (s.length ≤ room)) := by
  change Option.filter _ (if (if s = sampleCatalogue then sampleStream else stuff s) = sampleStream
    then some sampleCatalogue else unstuff (if s = sampleCatalogue then sampleStream else stuff s)) = _
  by_cases hs : s = sampleCatalogue
  · rw [if_pos hs, if_pos rfl, hs]
  · rw [if_neg hs, if_neg (ne_sample_of_prefix_stuff (List.prefix_refl (stuff s))), unstuff_stuff]

theorem sampleTools_lawful : sampleTools.Lawful where
  decode d _ := decodeBase64_encodeBase64 d
  inverse s room h := by
    rw [sampleTools_uncompress, Option.filter_some, if_pos (decide_eq_true h)]
  noRoom s room h := by
    rw [sampleTools_uncompress, Option.filter_some,
      if_neg (by simpa using h)]
  cut s t room hprefix hne := by
    change t <+: (if s = sampleCatalogue then sampleStream else stuff s) at hprefix
    change t ≠ (if s = sampleCatalogue then sampleStream else stuff s) at hne
    change Option.filter _ (if t = sampleStream then some sampleCatalogue else unstuff t) = none
    by_cases hs : s = sampleCatalogue
    · rw [if_pos hs] at hprefix hne
      rw [if_neg hne, unstuff_cut_sample hprefix]
      rfl
    · rw [if_neg hs] at hprefix hne
      rw [if_neg (ne_sample_of_prefix_stuff hprefix), unstuff_cut hprefix hne]
      rfl
  header s := by
    change 4 ≤ (if s = sampleCatalogue then sampleStream else stuff s).length
    split
    · decide
    · rw [stuff, List.length_append]
      exact Nat.le_add_left 4 _

/-! The round trip. -/

theorem mem_intercalate {sep c : UInt8} {toks : List Bytes} (h : c ∈ [sep].intercalate toks) :
    c = sep ∨ ∃ tok ∈ toks, c ∈ tok := by
  induction toks with
  | nil => exact absurd h List.not_mem_nil
  | cons tok toks ih =>
    cases toks with
    | nil =>
      rw [List.intercalate_singleton] at h
      exact .inr ⟨tok, List.mem_cons_self, h⟩
    | cons tok' toks =>
      rw [List.intercalate_cons_cons, List.append_assoc, List.mem_append, List.mem_append] at h
      obtain h | h | h := h
      · exact .inr ⟨tok, List.mem_cons_self, h⟩
      · exact .inl (List.mem_singleton.mp h)
      · exact (ih h).imp_right fun ⟨tok'', hmem, hc⟩ => ⟨tok'', List.mem_cons_of_mem tok hmem, hc⟩

/-- The front checks let the form pass. -/
theorem selectFiles_form (tools : DeleterTools) (s : Submission) :
    selectFiles tools s.cmd =
      match unpackBlob tools (lit "blob=" ++ s.value) with
      | none => .gaveUp
      | some buf => recordLoop s.ids.reverse (buf.length + 1) [] [] buf := by
  have hpos : find [63] s.cmd = some s.page.length := by
    have hfind := find_of_notMem 63 [] s.page ([38].intercalate s.fields) s.noQuery
    rwa [List.append_assoc, List.singleton_append] at hfind
  have hclean : s.cmd.any badChars.contains = false := by
    rw [List.any_eq_false]
    intro c hc
    rw [Bool.not_eq_true]
    unfold Submission.cmd at hc
    obtain hc | hc := List.mem_append.mp hc
    · exact s.clean s.page List.mem_cons_self c hc
    · obtain rfl | hc := List.mem_cons.mp hc
      · rfl
      · obtain rfl | ⟨tok, htok, hc⟩ := mem_intercalate hc
        · rfl
        · exact s.clean tok (List.mem_cons_of_mem _ htok) c hc
  have hdrop : s.cmd.drop (s.page.length + 1) = [38].intercalate s.fields := by
    unfold Submission.cmd
    rw [List.drop_append, List.drop_of_length_le (Nat.le_succ _), Nat.add_sub_cancel_left]
    rfl
  have hform := s.form
  rw [← hdrop] at hform
  unfold selectFiles
  simp only [hpos, hclean, Bool.false_eq_true, if_false]
  exact hform ▸ rfl

/-- A catalogue that does not fit selects nothing. -/
theorem selectFiles_misfit {tools : DeleterTools} (hlawful : tools.Lawful) {cmd : Bytes}
    {m : PathMemory} {s : Submission}
    (hvalue : s.value = buildCompressedDelFileCatalog tools.z cmd m)
    (hfits : ¬ CatalogueFits tools.z cmd m) : (selectFiles tools s.cmd).filePaths = [] := by
  rw [selectFiles_form, hvalue, (unpackBlob_catalogue hlawful cmd m).2 hfits]
  rfl

/-- A ticked path is lost then. -/
theorem selectFiles_loses {tools : DeleterTools} (hlawful : tools.Lawful) {cmd : Bytes}
    {m : PathMemory} {s : Submission}
    (hvalue : s.value = buildCompressedDelFileCatalog tools.z cmd m)
    (hfits : ¬ CatalogueFits tools.z cmd m) {path : Bytes} {id : Nat} (hid : id ∈ s.ids)
    (hpath : (path, id) ∈ m) :
    ¬ ∀ path, path ∈ (selectFiles tools s.cmd).filePaths ↔ ∃ id ∈ s.ids, (path, id) ∈ m := by
  rw [selectFiles_misfit hlawful hvalue hfits]
  exact fun hall => List.not_mem_nil ((hall path).mpr ⟨id, hid, hpath⟩)

theorem length_addLine (id : Nat) (s : Bytes) : (addLine id s).length = 8 + s.length := by
  simp only [addLine, List.length_append, length_littleEndian]

/-- Every record takes eight bytes and its path. -/
theorem length_records (m : PathMemory) {k : Nat} (hk : ∀ kv ∈ m, k ≤ kv.1.length) :
    (8 + k) * m.length ≤ (m.flatMap (fun kv => addLine kv.2 kv.1)).length := by
  induction m with
  | nil => simp
  | cons kv m ih =>
    obtain ⟨hkv, hm⟩ := List.forall_mem_cons.mp hk
    have hrest := ih hm
    simp only [List.flatMap_cons, List.length_append, length_addLine, List.length_cons,
      Nat.mul_add]
    omega

theorem length_path_le_records {m : PathMemory} {kv : Bytes × Nat} (h : kv ∈ m) :
    kv.1.length ≤ (m.flatMap (fun kv => addLine kv.2 kv.1)).length := by
  have hline := (List.sublist_flatten_of_mem (List.mem_map_of_mem (f := fun kv : Bytes × Nat =>
    addLine kv.2 kv.1) h)).length_le
  rw [length_addLine] at hline
  rw [List.flatMap_def]
  omega

/-- A catalogue that fits selects what is ticked among the records that are not taken for the
command. -/
theorem selectFiles_fits {tools : DeleterTools} (hlawful : tools.Lawful) {cmd : Bytes}
    {m : PathMemory} (hm : m.Sound) {s : Submission}
    (hvalue : s.value = buildCompressedDelFileCatalog tools.z cmd m)
    (hfits : CatalogueFits tools.z cmd m) :
    (selectFiles tools s.cmd).filePaths =
      ticked s.ids.reverse (if cmd.isEmpty then afterRedo m else m) := by
  have hrecords := length_records m (k := 0) (fun _ _ => Nat.zero_le _)
  have htotal : (catalogue cmd m).length =
      8 + cmd.length + (m.flatMap (fun kv => addLine kv.2 kv.1)).length := by
    rw [catalogue, List.length_append, length_addLine]
  have hlimit := hfits.1
  have hrange : ∀ kv ∈ m, kv.2 < 2 ^ 32 ∧ kv.1.length < 2 ^ 32 := fun kv hkv =>
    ⟨hm.ids kv hkv, by have := length_path_le_records hkv; omega⟩
  rw [selectFiles_form, hvalue, (unpackBlob_catalogue hlawful cmd m).1 hfits]
  change (recordLoop s.ids.reverse ((catalogue cmd m).length + 1) [] [] (catalogue cmd m)).filePaths
    = _
  rw [htotal, catalogue, recordLoop_addLine _ _ _ _ _ _ _ (by decide) (by omega),
    List.isEmpty_nil, if_pos rfl]
  have hfuel : m.length < 8 + cmd.length + (m.flatMap (fun kv => addLine kv.2 kv.1)).length := by
    omega
  revert hfuel
  generalize 8 + cmd.length + (m.flatMap (fun kv => addLine kv.2 kv.1)).length = fuel
  intro hfuel
  rw [← List.append_nil (m.flatMap _)]
  cases hcmd : cmd.isEmpty with
  | true =>
    obtain ⟨redoLink, hselected⟩ := recordLoop_no_command s.ids.reverse m fuel [] hrange (by decide)
      hfuel
    rw [List.isEmpty_iff.mp hcmd, hselected, if_pos rfl]
    rfl
  | false =>
    rw [recordLoop_records _ _ _ _ _ _ hrange hcmd (by decide) hfuel, List.nil_append,
      if_neg Bool.false_ne_true]
    rfl

theorem afterRedo_subset (m : PathMemory) : ∀ kv ∈ afterRedo m, kv ∈ m := by
  intro kv hkv
  exact (List.dropWhile_sublist _).subset (List.mem_of_mem_tail hkv)

theorem Sound.unique {m : PathMemory} (hm : m.Sound) {path : Bytes} {id id' : Nat}
    (h : (path, id) ∈ m) (h' : (path, id') ∈ m) : id = id' :=
  (Prod.mk.injEq ..).mp (List.inj_on_of_nodup_map hm.nodup h h' rfl) |>.2

/-- The form selects exactly the paths that were ticked if and only if nothing was ticked, or the
catalogue fits into the limits of both sides and no ticked path is taken for a missing command. -/
theorem selectFiles_catalogue_iff (tools : DeleterTools) (hlawful : tools.Lawful) (cmd : Bytes)
    (paths : List Bytes) (s : Submission)
    (hvalue : s.value = buildCompressedDelFileCatalog tools.z cmd (PathMemory.ofPaths paths))
    (hids : ∀ id ∈ s.ids, ∃ path, (path, id) ∈ PathMemory.ofPaths paths) :
    (∀ path, path ∈ (selectFiles tools s.cmd).filePaths ↔
        ∃ id ∈ s.ids, (path, id) ∈ PathMemory.ofPaths paths) ↔
      s.ids = [] ∨ (CatalogueFits tools.z cmd (PathMemory.ofPaths paths) ∧
        (cmd = [] → ∀ kv ∈ PathMemory.ofPaths paths, kv.2 ∈ s.ids →
          kv ∈ afterRedo (PathMemory.ofPaths paths))) := by
  have hm := PathMemory.ofPaths_sound paths
  revert hm hvalue hids
  generalize PathMemory.ofPaths paths = m
  intro hvalue hids hm
  by_cases hfits : CatalogueFits tools.z cmd m
  · rw [selectFiles_fits hlawful hm hvalue hfits]
    simp only [mem_ticked, List.mem_reverse, hfits, true_and]
    cases cmd with
    | cons c cmd => simp
    | nil =>
      simp only [List.isEmpty_nil, if_true, forall_const]
      constructor
      · refine fun hall => .inr (fun kv hkv hid => ?_)
        obtain ⟨id, _, hafter⟩ := (hall kv.1).mpr ⟨kv.2, hid, hkv⟩
        have hsame : id = kv.2 := Sound.unique hm (afterRedo_subset m _ hafter) hkv
        rwa [hsame] at hafter
      · rintro (hnil | hafter) path
        · simp [hnil]
        · refine ⟨fun ⟨id, hid, hmem⟩ => ⟨id, hid, afterRedo_subset m _ hmem⟩, ?_⟩
          exact fun ⟨id, hid, hmem⟩ => ⟨id, hid, hafter (path, id) hmem hid⟩
  · simp only [hfits, false_and, or_false]
    constructor
    · intro hall
      refine List.eq_nil_iff_forall_not_mem.mpr (fun id hid => ?_)
      obtain ⟨path, hmem⟩ := hids id hid
      exact selectFiles_loses hlawful hvalue hfits hid hmem hall
    · intro hnil path
      rw [selectFiles_misfit hlawful hvalue hfits, hnil]
      simp

/-- A page with one package on it. -/
theorem selectFiles_catalogue_sample :
    lit "debrep/a.deb" ∈ (selectFiles sampleTools (submit sampleTools.z
        (lit "acng-report.html?justShow=1") (PathMemory.ofPaths [lit "debrep/a.deb"])
        (lit "acng-report.html") [0] (by decide +kernel) (by decide +kernel)
        (by decide +kernel)).cmd).filePaths ↔
      ∃ id ∈ [0], (lit "debrep/a.deb", id) ∈ PathMemory.ofPaths [lit "debrep/a.deb"] :=
  (selectFiles_catalogue_iff sampleTools sampleTools_lawful (lit "acng-report.html?justShow=1")
    [lit "debrep/a.deb"] (submit sampleTools.z (lit "acng-report.html?justShow=1")
      (PathMemory.ofPaths [lit "debrep/a.deb"]) (lit "acng-report.html") [0]
      _ _ _) rfl
    (fun id hid => ⟨lit "debrep/a.deb", by rw [List.mem_singleton.mp hid]; decide⟩)).mpr
    (.inr ⟨⟨by decide, by decide +kernel⟩, fun hcmd => absurd hcmd (by decide)⟩) _

/-- New paths are added one by one. -/
theorem ofPaths_new (paths : List Bytes) (m : PathMemory) (h : (m.map Prod.fst ++ paths).Nodup) :
    ((paths.foldl (fun m path => (PathMemory.addLookupGetKey m path).1) m).map Prod.fst).Perm
        (m.map Prod.fst ++ paths) ∧
      ∀ kv ∈ m, kv ∈ paths.foldl (fun m path => (PathMemory.addLookupGetKey m path).1) m := by
  induction paths generalizing m with
  | nil => simp
  | cons path paths ih =>
    have hmiddle : (m.map Prod.fst ++ path :: paths).Perm (path :: (m.map Prod.fst ++ paths)) :=
      List.perm_middle
    have hnodup := hmiddle.nodup_iff.mp h
    have hnone : m.find? (fun kv => kv.1 == path) = none := by
      refine List.find?_eq_none.mpr (fun kv hkv heq => ?_)
      refine (List.nodup_cons.mp hnodup).1 (List.mem_append_left paths ?_)
      exact List.mem_map.mpr ⟨kv, hkv, beq_iff_eq.mp heq⟩
    have hadd : (PathMemory.addLookupGetKey m path).1 =
        m.orderedInsert (fun a b => a.1 ≤ b.1) (path, m.length % 2 ^ 32) := by
      rw [PathMemory.addLookupGetKey, hnone]
    have hperm := List.perm_orderedInsert (fun a b : Bytes × Nat => a.1 ≤ b.1)
      (path, m.length % 2 ^ 32) m
    have hfst := (hperm.map Prod.fst).append_right paths
    rw [List.foldl_cons, hadd]
    obtain ⟨hall, hkept⟩ := ih _ (hfst.nodup_iff.mpr hnodup)
    refine ⟨(hall.trans hfst).trans hmiddle.symm, fun kv hkv => hkept kv ?_⟩
    exact hperm.mem_iff.mpr (List.mem_cons_of_mem _ hkv)

theorem perm_ofPaths {paths : List Bytes} (h : paths.Nodup) :
    ((PathMemory.ofPaths paths).map Prod.fst).Perm paths :=
  (ofPaths_new paths [] h).1

theorem length_ofPaths {paths : List Bytes} (h : paths.Nodup) :
    (PathMemory.ofPaths paths).length = paths.length := by
  rw [← (perm_ofPaths h).length_eq, List.length_map]

theorem mem_of_mem_ofPaths {paths : List Bytes} (h : paths.Nodup) {kv : Bytes × Nat}
    (hkv : kv ∈ PathMemory.ofPaths paths) : kv.1 ∈ paths :=
  (perm_ofPaths h).mem_iff.mp (List.mem_map_of_mem hkv)

theorem mem_ofPaths_head {path : Bytes} {paths : List Bytes} (h : (path :: paths).Nodup) :
    (path, 0) ∈ PathMemory.ofPaths (path :: paths) :=
  (ofPaths_new paths [(path, 0)] h).2 _ List.mem_cons_self

def poolPath (i : Nat) : Bytes := lit "debrep/pool/" ++ toBase36 i ++ lit ".deb"

/-- Five thousand packages. -/
def poolPaths : List Bytes := (List.range 5000).map poolPath

theorem length_poolPaths : poolPaths.length = 5000 := by
  rw [poolPaths, List.length_map, List.length_range]

theorem length_of_mem_poolPaths {path : Bytes} (h : path ∈ poolPaths) : 16 ≤ path.length := by
  unfold poolPaths at h
  obtain ⟨n, _, rfl⟩ := List.mem_map.mp h
  rw [poolPath, List.length_append, List.length_append]
  exact Nat.add_le_add (Nat.le_add_right 12 _) (Nat.le_refl 4)

theorem toBase36_injective {n k : Nat} (h : toBase36 n = toBase36 k) : n = k := by
  rw [← toBase36_value n, h, toBase36_value]

theorem poolPaths_nodup : poolPaths.Nodup := by
  refine List.Nodup.map_on (fun n _ k _ h => ?_) List.nodup_range
  exact toBase36_injective (List.append_cancel_left (List.append_cancel_right h))

/-- The form of that page with one tag. -/
def poolForm : Submission :=
  submit sampleTools.z (lit "acng-report.html?justShow=1") (PathMemory.ofPaths poolPaths)
    (lit "acng-report.html") [0] (by decide +kernel) (by decide +kernel) (by decide +kernel)

theorem poolForm_value : poolForm.value = buildCompressedDelFileCatalog sampleTools.z
    (lit "acng-report.html?justShow=1") (PathMemory.ofPaths poolPaths) :=
  submit_value ..

theorem zero_mem_poolForm : 0 ∈ poolForm.ids := by
  rw [poolForm, submit_ids]
  exact List.mem_cons_self

/-- Too many packages on the page: none of them is selected. -/
theorem poolForm_selects_nothing :
    ¬ ∀ path, path ∈ (selectFiles sampleTools poolForm.cmd).filePaths ↔
      ∃ id ∈ poolForm.ids, (path, id) ∈ PathMemory.ofPaths poolPaths := by
  have hcount := (length_ofPaths poolPaths_nodup).trans length_poolPaths
  have hlong : ∀ kv ∈ PathMemory.ofPaths poolPaths, 16 ≤ kv.1.length := fun kv hkv =>
    length_of_mem_poolPaths (mem_of_mem_ofPaths poolPaths_nodup hkv)
  have hmisfit : ¬ CatalogueFits sampleTools.z (lit "acng-report.html?justShow=1")
      (PathMemory.ofPaths poolPaths) := by
    intro hfits
    have htotal := length_records _ hlong
    have hlimit := hfits.1
    rw [catalogue, List.length_append, length_addLine] at hlimit
    rw [hcount] at htotal
    omega
  have hzero : (poolPath 0, 0) ∈ PathMemory.ofPaths poolPaths := by
    have hnodup := poolPaths_nodup
    rw [poolPaths, List.range_succ_eq_map, List.map_cons] at hnodup ⊢
    exact mem_ofPaths_head hnodup
  exact selectFiles_loses sampleTools_lawful poolForm_value hmisfit zero_mem_poolForm hzero

end Acng
