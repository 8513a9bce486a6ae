import Acng.Lib.Scan
import Acng.MetaFile
import Acng.Proofs.Decimal
import Acng.Proofs.Unescape
import Mathlib.Algebra.Order.BigOperators.Group.List

namespace Acng
open Lib

/-! Fields and their lines. -/

/-- A field of a control file: a key, the rest of its line, and the lines that continue it. -/
structure ControlField where
  key : Bytes
  value : Bytes
  more : List Bytes
  key_ne : key ≠ []
  key_plain : ∀ c ∈ key, isspace c = false ∧ c ≠ 58
  value_plain : ∀ c ∈ value, lineEnd c = false
  more_plain : ∀ line ∈ more, ∀ c ∈ line, lineEnd c = false

namespace ControlField

def lines (f : ControlField) : List Bytes := (f.key ++ 58 :: f.value) :: f.more.map (32 :: ·)

/-- What is stored of a field. -/
def stored (sExtListFilter : Bytes) (f : ControlField) : List Bytes :=
  trimFront f.value ::
    (if !sExtListFilter.isEmpty && sExtListFilter != f.key then []
    else f.more.map (fun line => trimFront (stringTrimBack (32 :: line))))

theorem lineEnd_isspace : ∀ c : UInt8, lineEnd c = true → isspace c = true := by
  apply forall_byte
  decide +kernel

theorem lines_plain (f : ControlField) : ∀ line ∈ f.lines, ∀ c ∈ line, lineEnd c = false := by
  intro line hline c hc
  obtain rfl | hline := List.mem_cons.mp hline
  · obtain hc | hc := List.mem_append.mp hc
    · rw [← Bool.not_eq_true]
      intro hend
      have hspace := lineEnd_isspace c hend
      rw [(f.key_plain c hc).1] at hspace
      exact Bool.false_ne_true hspace
    · obtain rfl | hc := List.mem_cons.mp hc
      · rfl
      · exact f.value_plain c hc
  · obtain ⟨text, htext, rfl⟩ := List.mem_map.mp hline
    obtain rfl | hc := List.mem_cons.mp hc
    · rfl
    · exact f.more_plain text htext c hc

/-- Trimming leaves a key as it is. -/
theorem stringTrimBack_plain {s : Bytes} (h : ∀ c ∈ s, isspace c = false) :
    stringTrimBack s = s := by
  have hkeep : s.rdropWhile isspace = s := by
    rw [List.rdropWhile_eq_self_iff]
    intro hne
    rw [h _ (List.getLast_mem hne)]
    exact Bool.false_ne_true
  unfold stringTrimBack
  rw [hkeep, ite_self]

/-- The first line of a field starts it anew. -/
theorem addLine_key (filter : Bytes) (st : Rfc822) (f : ControlField) :
    st.addLine filter (f.key ++ 58 :: f.value) =
      { contents := Function.update st.contents f.key [trimFront f.value], lastKey := some f.key } := by
  obtain ⟨c, key, hkey⟩ := List.exists_cons_of_ne_nil f.key_ne
  have hc : isspace c = false := (f.key_plain c (hkey ▸ List.mem_cons_self)).1
  have htrim : trimFront (f.key ++ 58 :: f.value) = f.key ++ 58 :: f.value := by
    rw [hkey]
    exact List.dropWhile_cons_of_neg (by simp [hc])
  have hcolon : 58 ∉ f.key := fun hmem => (f.key_plain 58 hmem).2 rfl
  have hfind : find [58] (f.key ++ 58 :: f.value) = some f.key.length := by
    have hfind := find_of_notMem 58 [] f.key f.value hcolon
    rwa [List.append_assoc, List.singleton_append] at hfind
  have hlength : f.key.length = key.length + 1 := by rw [hkey, List.length_cons]
  have hdrop : (f.key ++ 58 :: f.value).drop (f.key.length + 1) = f.value := by
    rw [List.drop_append, List.drop_of_length_le (Nat.le_succ _), Nat.add_sub_cancel_left]
    rfl
  have hparse : parseKeyValLine (f.key ++ 58 :: f.value) = some (f.key, trimFront f.value) := by
    unfold parseKeyValLine
    rw [hlength] at hfind hdrop
    simp only [htrim, hfind, hdrop]
    rw [← hlength, List.take_left', stringTrimBack_plain (fun c hc => (f.key_plain c hc).1)]
    rfl
  have hline : f.key ++ 58 :: f.value = c :: (key ++ 58 :: f.value) := by rw [hkey]; rfl
  rw [hline] at hparse ⊢
  simp only [Rfc822.addLine, hc, hparse, Bool.false_eq_true, if_false]

/-- The other lines go behind it, unless the filter is for another key. -/
theorem foldl_more (filter : Bytes) (st : Rfc822) (key : Bytes) (more : List Bytes)
    (hkey : st.lastKey = some key) :
    (more.map (32 :: ·)).foldl (Rfc822.addLine filter) st =
      { contents := Function.update st.contents key (st.contents key ++
          (if !filter.isEmpty && filter != key then []
          else more.map (fun line => trimFront (stringTrimBack (32 :: line)))))
        lastKey := some key } := by
  induction more generalizing st with
  | nil =>
    rw [List.map_nil, List.map_nil, List.foldl_nil, ite_self, List.append_nil,
      Function.update_eq_self, ← hkey]
  | cons line more ih =>
    have hspace : isspace 32 = true := by decide
    rw [List.map_cons, List.foldl_cons]
    by_cases hfilter : (!filter.isEmpty && filter != key) = true
    · have hadd : st.addLine filter (32 :: line) = st := by
        simp only [Rfc822.addLine, hspace, if_true, hkey, hfilter]
      rw [hadd, ih st hkey, if_pos hfilter, if_pos hfilter]
    · have hadd : st.addLine filter (32 :: line) = { st with
          contents := Function.update st.contents key
            (st.contents key ++ [trimFront (stringTrimBack (32 :: line))]) } := by
        simp only [Rfc822.addLine, hspace, if_true, hkey, hfilter]
        rfl
      have hlast : (st.addLine filter (32 :: line)).lastKey = some key := by rw [hadd, hkey]
      rw [ih _ hlast, hadd, if_neg hfilter, if_neg hfilter]
      simp only [Function.update_self, Function.update_idem, List.map_cons, List.append_assoc,
        List.singleton_append]

/-- Reading a field replaces what was stored under its key. -/
theorem foldl_lines (filter : Bytes) (st : Rfc822) (f : ControlField) :
    f.lines.foldl (Rfc822.addLine filter) st =
      { contents := Function.update st.contents f.key (f.stored filter)
        lastKey := some f.key } := by
  rw [lines, List.foldl_cons, addLine_key, foldl_more filter _ f.key f.more rfl]
  simp only [Function.update_self, Function.update_idem, stored, List.singleton_append]

/-- Of all fields with a key only the last one is left. -/
theorem foldl_fields (filter : Bytes) (fields : List ControlField) (st : Rfc822) (key : Bytes) :
    ((fields.flatMap lines).foldl (Rfc822.addLine filter) st).contents key =
      ((fields.filter (·.key == key)).getLast?).elim (st.contents key) (stored filter) := by
  induction fields generalizing st with
  | nil => rfl
  | cons f fields ih =>
    rw [List.flatMap_cons, List.foldl_append, ih, foldl_lines]
    by_cases hkey : f.key = key
    · subst hkey
      simp only [Function.update_self, List.filter_cons, BEq.rfl, if_true, List.getLast?_cons]
      cases (fields.filter (·.key == f.key)).getLast? with
      | none => rfl
      | some last => rfl
    · have hother : (f.key == key) = false := beq_false_of_ne hkey
      simp only [Function.update_of_ne (Ne.symm hkey), List.filter_cons, hother,
        Bool.false_eq_true, if_false]

end ControlField

/-- Lines are read back as they were written. -/
theorem fileLines_flatMap (lines : List Bytes) (h : ∀ line ∈ lines, ∀ c ∈ line, lineEnd c = false) :
    fileLines (lines.flatMap (· ++ [10])) = lines ++ [[]] := by
  have hhead : ∀ lines : List Bytes, (∀ line ∈ lines, ∀ c ∈ line, lineEnd c = false) →
      (lines.flatMap (· ++ [10])).head?.all (· != 13) = true := by
    intro lines h
    cases lines with
    | nil => rfl
    | cons line lines =>
      cases line with
      | nil => rfl
      | cons c line =>
        have hc := h _ List.mem_cons_self c List.mem_cons_self
        rw [lineEnd, Bool.or_eq_false_iff] at hc
        simpa using hc.1
  induction lines with
  | nil => rfl
  | cons line lines ih =>
    obtain ⟨hline, hlines⟩ := List.forall_mem_cons.mp h
    rw [List.flatMap_cons, List.append_assoc, List.singleton_append,
      fileLines_line line _ hline (hhead lines hlines), ih hlines, List.cons_append]

/-! A file in a paragraph. -/

/-- A file of a source package. -/
structure SourceFile where
  csum : Bytes
  size : Nat
  name : Bytes
  csum_length : csum.length = 16
  size_lt : size < 2 ^ 63
  name_ne : name ≠ []
  name_plain : ∀ c ∈ name, isspace c = false

namespace SourceFile

/-- The line in the field `Files`. -/
def line (f : SourceFile) : Bytes :=
  bytesToHexString f.csum ++ 32 :: (decDigits f.size ++ 32 :: f.name)

end SourceFile

theorem hexDigit_plain : ∀ k : Fin 16,
    isspace (hexDigit k) = false ∧ lineEnd (hexDigit k) = false := by
  decide +kernel

theorem length_bytesToHexString (sum : Bytes) : (bytesToHexString sum).length = 2 * sum.length := by
  induction sum with
  | nil => rfl
  | cons b sum ih =>
    rw [bytesToHexString, List.flatMap_cons, List.length_append, ← bytesToHexString, ih]
    simp only [List.length_cons, List.length_nil]
    omega

theorem csAsciiToBin_bytesToHexString (sum : Bytes) :
    csAsciiToBin (bytesToHexString sum) = some sum := by
  induction sum with
  | nil => rfl
  | cons b sum ih =>
    have hb := b.toNat_lt
    rw [bytesToHexString, List.flatMap_cons, ← bytesToHexString]
    simp only [List.cons_append, List.nil_append, csAsciiToBin,
      hexVal_hexDigit (by omega : b.toNat / 16 < 16), hexVal_hexDigit (by omega : b.toNat % 16 < 16),
      ih, Option.bind_eq_bind, Option.bind_some, hexDigits_byte]

theorem bytesToHexString_plain (sum : Bytes) :
    ∀ c ∈ bytesToHexString sum, isspace c = false ∧ lineEnd c = false := by
  intro c hc
  obtain ⟨b, -, hc⟩ := List.mem_flatMap.mp hc
  have hb := b.toNat_lt
  obtain rfl | hc := List.mem_cons.mp hc
  · exact hexDigit_plain ⟨_, by omega⟩
  · obtain rfl := List.mem_singleton.mp hc
    exact hexDigit_plain ⟨_, by omega⟩

/-- A checksum is read back as it was printed. -/
theorem setCs_bytesToHexString (self : Fingerprint) {sum : Bytes} (csType : CsType)
    (htype : csType ≠ .invalid) (hlength : sum.length = csType.len) (hne : sum ≠ []) :
    self.setCs (bytesToHexString sum) csType = some { self with csType, csum := sum } := by
  have hpos := List.length_pos_iff.mpr hne
  unfold Fingerprint.setCs
  simp only [if_neg htype, length_bytesToHexString, csAsciiToBin_bytesToHexString, Option.map_some]
  rw [if_neg]
  rw [← hlength]
  simp only [Bool.or_eq_true, decide_eq_true_eq, bne_iff_ne, ne_eq, htype, or_false,
    not_true_eq_false]
  omega

theorem decDigits_plain (n : Nat) : ∀ c ∈ decDigits n, isspace c = false ∧ lineEnd c = false := by
  intro c hc
  rw [decDigits_eq_dec] at hc
  have hdigit : ∀ c : UInt8, isdigit c = true → isspace c = false ∧ lineEnd c = false := by
    apply forall_byte
    decide +kernel
  exact hdigit c (dec_digits n c hc)

theorem strtoll_decDigits {n : Nat} (hn : n < 2 ^ 63) : strtoll (decDigits n) = n := by
  have hread := strtoll_digits (x := []) (dec_ne n) (dec_digits n) rfl
  rw [List.append_nil, decimal_dec] at hread
  rw [decDigits_eq_dec, hread]
  omega

namespace SourceFile

/-- The words of the line. -/
theorem splitWalk_line (f : SourceFile) :
    splitWalk isspace f.line = [bytesToHexString f.csum, decDigits f.size, f.name] := by
  have hspace : isspace 32 = true := by decide
  have hhex : bytesToHexString f.csum ≠ [] := by
    refine List.ne_nil_of_length_pos ?_
    rw [length_bytesToHexString, f.csum_length]
    decide
  have hdec : decDigits f.size ≠ [] := by
    rw [decDigits_eq_dec]
    exact dec_ne f.size
  unfold splitWalk line
  rw [List.splitOnP_append_cons_of_forall_mem (fun c hc => (bytesToHexString_plain _ c hc).1) 32
      hspace,
    List.splitOnP_append_cons_of_forall_mem (fun c hc => (decDigits_plain _ c hc).1) 32 hspace,
    List.splitOnP_eq_singleton f.name_plain]
  exact List.filter_eq_self.mpr (by simp [hhex, hdec, f.name_ne])

/-- A line is understood but for the percent signs in the name. -/
theorem parseDebianIndexLine_line (f : SourceFile) :
    parseDebianIndexLine .md5 f.line =
      some { fpr := { size := f.size, csType := .md5, csum := f.csum }
             sFileName := urlUnescape f.name } := by
  have hcs := setCs_bytesToHexString {} .md5 (by decide) f.csum_length
    (List.ne_nil_of_length_pos (by rw [f.csum_length]; decide))
  unfold parseDebianIndexLine
  simp only [splitWalk_line, hcs, strtoll_decDigits f.size_lt]
  rw [if_neg (Int.not_lt.mpr (Int.natCast_nonneg f.size))]

/-- The blank in front of the line is trimmed. -/
theorem trim_line (f : SourceFile) : trimFront (stringTrimBack (32 :: f.line)) = f.line := by
  have hback : trimBack (32 :: f.line) = 32 :: f.line := by
    have hname : trimBack f.name = f.name := by
      unfold trimBack
      rw [List.rdropWhile_eq_self_iff]
      intro hne
      rw [f.name_plain _ (List.getLast_mem hne)]
      exact Bool.false_ne_true
    have hsplit : 32 :: f.line =
        (32 :: (bytesToHexString f.csum ++ 32 :: (decDigits f.size ++ [32]))) ++ f.name := by
      simp [line]
    rw [hsplit]
    exact trimBack_append _ f.name f.name_ne hname
  have hfront : trimFront f.line = f.line := by
    unfold line
    cases hhex : bytesToHexString f.csum with
    | nil =>
      have hlength := congrArg List.length hhex
      rw [length_bytesToHexString, f.csum_length] at hlength
      cases hlength
    | cons c hex =>
      have hc := (bytesToHexString_plain f.csum c (hhex ▸ List.mem_cons_self)).1
      exact List.dropWhile_cons_of_neg (by simp [hc])
  unfold stringTrimBack
  rw [← trimBack, hback, ite_self]
  exact hfront

end SourceFile

/-! The whole index. -/

/-- A paragraph of a Sources index with any fields among which the two are that count here, and the
empty lines behind it. -/
structure SourceParagraph where
  fields : List ControlField
  directory : Bytes
  files : List SourceFile
  gap : Nat
  directory_trimmed : trimBoth directory = directory
  directory_field : (fields.filter (·.key == lit "Directory")).map (·.value) = [32 :: directory]
  files_field : (fields.filter (·.key == lit "Files")).map (fun f => (f.value, f.more)) =
    [([], files.map SourceFile.line)]

namespace SourceParagraph

def lines (par : SourceParagraph) : List Bytes :=
  par.fields.flatMap ControlField.lines ++ List.replicate par.gap []

/-- What is to be reported of a paragraph. -/
def entries (sPkgBaseDir : Bytes) (par : SourceParagraph) : List RemoteFileInfo :=
  par.files.map (fun f =>
    { fpr := { size := f.size, csType := .md5, csum := f.csum }
      sDirectory := urlUnescape sPkgBaseDir ++ (par.directory ++ [47])
      sFileName := f.name })

end SourceParagraph

/-- The paragraphs of an index with empty lines between them. -/
structure SourcesIndex where
  paragraphs : List SourceParagraph
  separated : ∀ par ∈ paragraphs.dropLast, 0 < par.gap

namespace SourcesIndex

def text (index : SourcesIndex) : Bytes :=
  (index.paragraphs.flatMap SourceParagraph.lines).flatMap (· ++ [10])

def entries (sPkgBaseDir : Bytes) (index : SourcesIndex) : List RemoteFileInfo :=
  index.paragraphs.flatMap (SourceParagraph.entries sPkgBaseDir)

end SourcesIndex

theorem foldl_gap (filter : Bytes) (st : Rfc822) (n : Nat) :
    (List.replicate n []).foldl (Rfc822.addLine filter) st = st := by
  induction n with
  | zero => rfl
  | succ n ih => exact ih

/-- The lines of the paragraphs are read like those of their fields. -/
theorem foldl_paragraphs (filter : Bytes) (paragraphs : List SourceParagraph) (st : Rfc822) :
    (paragraphs.flatMap SourceParagraph.lines).foldl (Rfc822.addLine filter) st =
      ((paragraphs.flatMap (·.fields)).flatMap ControlField.lines).foldl (Rfc822.addLine filter)
        st := by
  induction paragraphs generalizing st with
  | nil => rfl
  | cons par paragraphs ih =>
    rw [List.flatMap_cons, List.flatMap_cons, List.flatMap_append, List.foldl_append,
      List.foldl_append, SourceParagraph.lines, List.foldl_append, foldl_gap, ih]

theorem contents_text (index : SourcesIndex) (filter key : Bytes) :
    parseGenericRfc822File filter index.text key =
      ((index.paragraphs.flatMap (·.fields)).filter (·.key == key)).getLast?.elim []
        (ControlField.stored filter) := by
  have hplain : ∀ line ∈ index.paragraphs.flatMap SourceParagraph.lines,
      ∀ c ∈ line, lineEnd c = false := by
    intro line hline c hc
    obtain ⟨par, -, hline⟩ := List.mem_flatMap.mp hline
    obtain hline | hline := List.mem_append.mp hline
    · obtain ⟨f, -, hline⟩ := List.mem_flatMap.mp hline
      exact f.lines_plain line hline c hc
    · rw [(List.mem_replicate.mp hline).2] at hc
      exact absurd hc List.not_mem_nil
  unfold parseGenericRfc822File SourcesIndex.text
  rw [fileLines_flatMap _ hplain, List.foldl_append, List.foldl_append, foldl_paragraphs,
    ← ControlField.foldl_fields filter _ {} key]
  rfl

/-- Of all paragraphs only the last one is left. -/
theorem contents_last {init : List SourceParagraph} {par : SourceParagraph}
    {index : SourcesIndex} (hindex : index.paragraphs = init ++ [par]) (filter key : Bytes)
    {f : ControlField} (hf : par.fields.filter (·.key == key) = [f]) :
    parseGenericRfc822File filter index.text key = f.stored filter := by
  rw [contents_text, hindex, List.flatMap_append, List.flatMap_singleton, List.filter_append, hf,
    List.getLast?_concat]
  rfl

theorem filter_one {fields : List ControlField} {key : Bytes} {β : Type} {view : ControlField → β}
    {v : β} (h : (fields.filter (·.key == key)).map view = [v]) :
    ∃ f, fields.filter (·.key == key) = [f] ∧ f.key = key ∧ view f = v := by
  obtain ⟨f, hf, hview⟩ := List.map_eq_singleton_iff.mp h
  have hmem : f ∈ fields.filter (·.key == key) := hf ▸ List.mem_cons_self
  exact ⟨f, hf, beq_iff_eq.mp (List.mem_filter.mp hmem).2, hview⟩

/-- What is reported is what the last paragraph says. -/
theorem reported_last {sPath sBaseDir sPkgBaseDir : Bytes}
    (hdirs : calculateBaseDirectories sPath = some (sBaseDir, sPkgBaseDir))
    {init : List SourceParagraph} {par : SourceParagraph} {index : SourcesIndex}
    (hindex : index.paragraphs = init ++ [par]) :
    parseAndProcessMetaFile sPath .sources false (some index.text) =
      (par.entries sPkgBaseDir).map (fun entry =>
        { entry with sFileName := urlUnescape entry.sFileName }) := by
  obtain ⟨dir, hdir, hdirkey, hdirvalue⟩ := filter_one par.directory_field
  obtain ⟨files, hfiles, hfileskey, hfilesview⟩ := filter_one par.files_field
  obtain ⟨hvalue, hmore⟩ := Prod.mk.inj hfilesview
  have hsubdir : dir.stored (lit "Files") = [par.directory] := by
    have hfront : trimFront (32 :: par.directory) = par.directory :=
      trimFront_of_trimBoth _ par.directory_trimmed
    unfold ControlField.stored
    rw [hdirvalue, hfront, hdirkey, if_pos (by decide)]
  have hlist : files.stored (lit "Files") = [] :: par.files.map SourceFile.line := by
    unfold ControlField.stored
    rw [hvalue, hfileskey, if_neg (by decide), hmore, List.map_map]
    exact congrArg (trimFront [] :: ·) (List.map_congr_left fun f _ => f.trim_line)
  have htrim : stringTrimBack par.directory = par.directory := by
    unfold stringTrimBack
    rw [← trimBack, trimBack_of_trimBoth _ par.directory_trimmed, ite_self]
  unfold parseAndProcessMetaFile parseDebianRfc822Index
  simp only [hdirs, contents_last hindex _ _ hdir, contents_last hindex _ _ hfiles, hsubdir, hlist,
    htrim, Bool.false_and, Bool.false_eq_true, if_false, Bool.and_false]
  have hblank : parseDebianIndexLine .md5 [] = none := rfl
  rw [processList, List.filterMap_cons_none hblank, List.filterMap_map, SourceParagraph.entries,
    List.map_map]
  have hall : par.files.filterMap (parseDebianIndexLine .md5 ∘ SourceFile.line) =
      par.files.map (fun f => { fpr := { size := f.size, csType := .md5, csum := f.csum }
                                sFileName := urlUnescape f.name }) := by
    rw [← List.filterMap_eq_map]
    exact List.filterMap_congr fun f _ => f.parseDebianIndexLine_line
  rw [hall, List.map_map]
  rfl

theorem reported_empty {sPath : Bytes} {index : SourcesIndex} (hindex : index.paragraphs = []) :
    parseAndProcessMetaFile sPath .sources false (some index.text) = [] := by
  unfold parseAndProcessMetaFile parseDebianRfc822Index
  cases calculateBaseDirectories sPath with
  | none => rfl
  | some dirs =>
    simp only [contents_text, hindex, List.flatMap_nil, List.filter_nil, List.getLast?_nil,
      Option.elim_none, Bool.false_and, Bool.false_eq_true, if_false, Bool.and_false]
    rfl

/-- Values that are never greater and have the same sum are the same. -/
theorem eq_of_sum_eq {α : Type} {f g : α → Nat} {l : List α} (hle : ∀ x ∈ l, f x ≤ g x)
    (hsum : (l.map f).sum = (l.map g).sum) : ∀ x ∈ l, f x = g x := by
  induction l with
  | nil => exact fun x hx => absurd hx List.not_mem_nil
  | cons y l ih =>
    obtain ⟨hy, hl⟩ := List.forall_mem_cons.mp hle
    rw [List.map_cons, List.map_cons, List.sum_cons, List.sum_cons] at hsum
    have hrest : (l.map f).sum ≤ (l.map g).sum := List.sum_le_sum hl
    exact List.forall_mem_cons.mpr ⟨by omega, ih hl (by omega)⟩

/-- Exactly the files of the index are reported if and only if no paragraph but the last one has a
file, and no name of it has a percent sign. -/
theorem sources_complete_iff (sPath sBaseDir sPkgBaseDir : Bytes) (index : SourcesIndex)
    (hdirs : calculateBaseDirectories sPath = some (sBaseDir, sPkgBaseDir)) :
    (parseAndProcessMetaFile sPath .sources false (some index.text)).Perm
        (index.entries sPkgBaseDir) ↔
      (∀ par ∈ index.paragraphs.dropLast, par.files = []) ∧
        ∀ par ∈ index.paragraphs.getLast?, ∀ f ∈ par.files, 37 ∉ f.name := by
  unfold SourcesIndex.entries
  obtain hindex | ⟨init, par, hindex⟩ := List.eq_nil_or_concat index.paragraphs
  · rw [reported_empty hindex, hindex]
    simp
  · rw [List.concat_eq_append] at hindex
    rw [reported_last hdirs hindex, hindex, List.dropLast_concat, List.getLast?_concat,
      List.flatMap_append, List.flatMap_singleton]
    simp only [Option.mem_some_iff, forall_eq']
    constructor
    · intro hperm
      have hlength := hperm.length_eq
      rw [List.length_map, List.length_append] at hlength
      have hinit : init.flatMap (SourceParagraph.entries sPkgBaseDir) = [] :=
        List.length_eq_zero_iff.mp (by omega)
      refine ⟨fun par' hpar' => ?_, fun f hf hpercent => ?_⟩
      · exact List.map_eq_nil_iff.mp (List.flatMap_eq_nil_iff.mp hinit par' hpar')
      · rw [hinit, List.nil_append] at hperm
        have hsum := (hperm.map (fun entry : RemoteFileInfo => entry.sFileName.length)).sum_eq
        simp only [SourceParagraph.entries, List.map_map] at hsum
        have hsame := eq_of_sum_eq (fun f _ => urlUnescape_le f.name) hsum f hf
        exact absurd hsame (Nat.ne_of_lt ((urlUnescape_kept f.name).2 hpercent))
    · rintro ⟨hinit, hnames⟩
      have hnone : init.flatMap (SourceParagraph.entries sPkgBaseDir) = [] :=
        List.flatMap_eq_nil_iff.mpr fun par' hpar' => List.map_eq_nil_iff.mpr (hinit par' hpar')
      have hkept : (par.entries sPkgBaseDir).map (fun entry =>
          { entry with sFileName := urlUnescape entry.sFileName }) = par.entries sPkgBaseDir := by
        unfold SourceParagraph.entries
        rw [List.map_map]
        refine List.map_congr_left fun f hf => ?_
        simp only [Function.comp, (urlUnescape_kept f.name).1 (hnames f hf)]
      rw [hnone, hkept, List.nil_append]

/-- A package with one file, as its paragraph starts in an index. -/
def packageFields (package directory : Bytes) (file : SourceFile)
    (hpackage : ∀ c ∈ package, lineEnd c = false) (hdirectory : ∀ c ∈ directory, lineEnd c = false)
    (hline : ∀ c ∈ file.line, lineEnd c = false) : List ControlField :=
  [{ key := lit "Package", value := 32 :: package, more := [], key_ne := by decide +kernel,
      key_plain := by decide +kernel, value_plain := List.forall_mem_cons.mpr ⟨rfl, hpackage⟩,
      more_plain := by simp },
    { key := lit "Directory", value := 32 :: directory, more := [], key_ne := by decide +kernel,
      key_plain := by decide +kernel, value_plain := List.forall_mem_cons.mpr ⟨rfl, hdirectory⟩,
      more_plain := by simp },
    { key := lit "Files", value := [], more := [file.line], key_ne := by decide +kernel,
      key_plain := by decide +kernel, value_plain := by simp,
      more_plain := List.forall_mem_singleton.mpr hline }]

def aclFile : SourceFile where
  csum := List.replicate 16 171
  size := 371680
  name := lit "acl_2.3.1.orig.tar.xz"
  csum_length := rfl
  size_lt := by decide
  name_ne := by decide
  name_plain := by decide +kernel

def aclParagraph : SourceParagraph where
  fields := packageFields (lit "acl") (lit "pool/main/a/acl") aclFile
    (by decide +kernel) (by decide +kernel) (by decide +kernel)
  directory := lit "pool/main/a/acl"
  files := [aclFile]
  gap := 1
  directory_trimmed := by decide
  directory_field := rfl
  files_field := rfl

def bashFile : SourceFile where
  csum := List.replicate 16 205
  size := 5648
  name := lit "bash_5.2.15-2.dsc"
  csum_length := rfl
  size_lt := by decide
  name_ne := by decide
  name_plain := by decide +kernel

def bashParagraph : SourceParagraph where
  fields := packageFields (lit "bash") (lit "pool/main/b/bash") bashFile
    (by decide +kernel) (by decide +kernel) (by decide +kernel)
  directory := lit "pool/main/b/bash"
  files := [bashFile]
  gap := 1
  directory_trimmed := by decide
  directory_field := rfl
  files_field := rfl

/-- An index of a single package is read completely. -/
theorem sources_complete_single :
    (parseAndProcessMetaFile (lit "debrep/dists/sid/main/source/Sources") .sources false
      (some (SourcesIndex.text ⟨[aclParagraph], by decide⟩))).Perm
      (SourcesIndex.entries (lit "debrep/") ⟨[aclParagraph], by decide⟩) :=
  (sources_complete_iff (lit "debrep/dists/sid/main/source/Sources")
    (lit "debrep/dists/sid/main/source/") (lit "debrep/") ⟨[aclParagraph], by decide⟩
    (by decide +kernel)).mpr (by decide)

/-- The files of the first package are not seen. -/
theorem sources_incomplete_pair :
    ¬ (parseAndProcessMetaFile (lit "debrep/dists/sid/main/source/Sources") .sources false
      (some (SourcesIndex.text ⟨[aclParagraph, bashParagraph], by decide⟩))).Perm
      (SourcesIndex.entries (lit "debrep/") ⟨[aclParagraph, bashParagraph], by decide⟩) := by
  decide +kernel

end Acng
