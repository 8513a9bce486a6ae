import Acng.Lib.Chunks
import Acng.PackagesIndex
import Acng.Proofs.MetaFiles

namespace Acng
open Lib

namespace PackagesField

def filename? : PackagesField → Option Bytes
  | .filename val => some val
  | _ => none

def size? : PackagesField → Option Int
  | .size v => some v
  | _ => none

/-- A checksum that has the length of its type, and the bytes that its digits give. -/
def sum? : PackagesField → Option (CsType × Bytes)
  | .sum csType hexString =>
    if hexString.length ≠ 0 ∧ hexString.length = 2 * csType.len then some (csType, csWritten hexString)
    else none
  | _ => none

theorem sum?_some {field : PackagesField} {csType : CsType} {bytes : Bytes}
    (h : field.sum? = some (csType, bytes)) :
    ∃ hexString, field = .sum csType hexString ∧ hexString.length ≠ 0 ∧
      hexString.length = 2 * csType.len ∧ bytes = csWritten hexString := by
  cases field with
  | sum csType' hexString =>
    by_cases hlen : hexString.length ≠ 0 ∧ hexString.length = 2 * csType'.len
    · rw [sum?, if_pos hlen] at h
      obtain ⟨rfl, rfl⟩ := Prod.mk.inj (Option.some.inj h)
      exact ⟨hexString, rfl, hlen.1, hlen.2, rfl⟩
    · rw [sum?, if_neg hlen] at h
      cases h
  | size v => cases h
  | filename val => cases h

/-- The byte of a checksum at one place. -/
def byte? (j : Nat) (field : PackagesField) : Option UInt8 := field.sum?.bind (fun sum => sum.2[j]?)

def type? (field : PackagesField) : Option CsType := field.sum?.map Prod.fst

/-- A checksum consists of hex digits, as many as its type has. -/
def Sound : PackagesField → Bool
  | .sum csType hexString => hexString.length = 2 * csType.len && (csAsciiToBin hexString).isSome
  | _ => true

/-- There is a file, a positive size and a checksum. -/
def Complete (fields : List PackagesField) : Prop :=
  (∃ val, lastOf filename? fields = some val ∧ (splitDirPath val).2 ≠ []) ∧
    (∃ size, lastOf size? fields = some size ∧ 0 < size) ∧ (lastOf type? fields).isSome = true

end PackagesField

namespace PackagesInfo

variable (sPkgBaseDir : Bytes)

theorem set_filename (info : PackagesInfo) (val : Bytes) :
    info.set sPkgBaseDir (.filename val) =
      { info with
        sDirectory := sPkgBaseDir ++ (splitDirPath val).1
        sFileName := (splitDirPath val).2 } := by
  simp only [set, splitDirPath]
  cases rfind 47 val with
  | none => simp
  | some pos => rfl

theorem set_sum (info : PackagesInfo) (csType : CsType) (hexString : Bytes) :
    info.set sPkgBaseDir (.sum csType hexString) = info ∧
        PackagesField.sum? (.sum csType hexString) = none ∨
      info.set sPkgBaseDir (.sum csType hexString) =
          { info with
            csType
            csum := fun j => ((csWritten hexString)[j]?).getD (info.csum j) } ∧
        PackagesField.sum? (.sum csType hexString) = some (csType, csWritten hexString) := by
  unfold set setCs PackagesField.sum?
  by_cases h : hexString.length ≠ 0 ∧ hexString.length = 2 * csType.len
  · refine .inr ⟨?_, if_pos h⟩
    obtain ⟨hne, heq⟩ := h
    refine if_neg ?_
    simp only [Bool.or_eq_true, decide_eq_true_eq, bne_iff_ne]
    omega
  · refine .inl ⟨?_, if_neg h⟩
    rw [not_and_or, not_not] at h
    simp only [Bool.or_eq_true, decide_eq_true_eq, bne_iff_ne]
    rw [if_pos]
    tauto

/-- What is left of the fields, each as it was set last. -/
structure Holds (csum : Nat → UInt8) (fields : List PackagesField) (info : PackagesInfo) : Prop where
  size : info.size = (lastOf PackagesField.size? fields).getD (-1)
  csType : info.csType = (lastOf PackagesField.type? fields).getD .invalid
  csum : ∀ j, info.csum j = (lastOf (PackagesField.byte? j) fields).getD (csum j)
  file : (info.sDirectory, info.sFileName) =
    ((lastOf PackagesField.filename? fields).map (fun val =>
      (sPkgBaseDir ++ (splitDirPath val).1, (splitDirPath val).2))).getD ([], [])

theorem holds_fold (csum : Nat → UInt8) (fields : List PackagesField) :
    Holds sPkgBaseDir csum fields (fields.foldl (set sPkgBaseDir) { csum }) where
  size := by
    refine @foldl_lastOf _ _ _ _ size PackagesField.size? (fun info field => ?_) fields { csum }
    cases field with
    | sum csType hexString =>
      obtain ⟨h, -⟩ | ⟨h, -⟩ := set_sum sPkgBaseDir info csType hexString <;> rw [h] <;> rfl
    | size size => rfl
    | filename val => rw [set_filename]; rfl
  csType := by
    refine @foldl_lastOf _ _ _ _ csType PackagesField.type? (fun info field => ?_) fields { csum }
    cases field with
    | sum csType hexString =>
      obtain ⟨h, hsum⟩ | ⟨h, hsum⟩ := set_sum sPkgBaseDir info csType hexString <;>
        rw [h, PackagesField.type?, hsum] <;> rfl
    | size size => rfl
    | filename val => rw [set_filename]; rfl
  csum := by
    intro j
    refine @foldl_lastOf _ _ _ _ (fun info : PackagesInfo => info.csum j) (PackagesField.byte? j)
      (fun info field => ?_) fields { csum }
    cases field with
    | sum csType hexString =>
      obtain ⟨h, hsum⟩ | ⟨h, hsum⟩ := set_sum sPkgBaseDir info csType hexString <;>
        rw [h, PackagesField.byte?, hsum] <;> rfl
    | size size => rfl
    | filename val => rw [set_filename]; rfl
  file := by
    rw [← lastOf_map]
    refine @foldl_lastOf _ _ _ _ (fun info : PackagesInfo => (info.sDirectory, info.sFileName)) _
      (fun info field => ?_) fields { csum }
    cases field with
    | sum csType hexString =>
      obtain ⟨h, -⟩ | ⟨h, -⟩ := set_sum sPkgBaseDir info csType hexString <;> rw [h] <;> rfl
    | size size => rfl
    | filename val => rw [set_filename]; rfl

variable {sPkgBaseDir} {csum : Nat → UInt8} {fields : List PackagesField} {info : PackagesInfo}

theorem Holds.sFileName (h : Holds sPkgBaseDir csum fields info) :
    info.sFileName =
      ((lastOf PackagesField.filename? fields).map (fun val => (splitDirPath val).2)).getD [] := by
  have hfile := congrArg Prod.snd h.file
  cases hlast : lastOf PackagesField.filename? fields with
  | none => simpa [hlast] using hfile
  | some val => simpa [hlast] using hfile

theorem lastType_valid {csType : CsType} (h : lastOf PackagesField.type? fields = some csType) :
    csType ≠ .invalid := by
  obtain ⟨field, -, hfield⟩ := lastOf_mem h
  obtain ⟨⟨csType', bytes⟩, hsum, rfl⟩ := Option.map_eq_some_iff.mp hfield
  obtain ⟨hexString, -, hne, hlen, -⟩ := PackagesField.sum?_some hsum
  rintro (rfl : csType' = .invalid)
  exact hne hlen

theorem Holds.isUsable_iff (h : Holds sPkgBaseDir csum fields info) :
    info.isUsable = true ↔ PackagesField.Complete fields := by
  unfold PackagesInfo.isUsable PackagesField.Complete
  rw [h.sFileName, h.size, h.csType, Bool.and_eq_true, Bool.and_eq_true, and_assoc]
  refine and_congr ?_ (and_comm.trans (and_congr ?_ ?_))
  · cases lastOf PackagesField.filename? fields with
    | none => simp
    | some val => simp
  · cases lastOf PackagesField.size? fields with
    | none => simp
    | some v => simp
  · cases htype : lastOf PackagesField.type? fields with
    | none => simp
    | some csType => simpa using lastType_valid htype

theorem Holds.record (h : Holds sPkgBaseDir csum fields info) {val : Bytes} {v : Int} {csType : CsType}
    (hval : lastOf PackagesField.filename? fields = some val)
    (hv : lastOf PackagesField.size? fields = some v)
    (htype : lastOf PackagesField.type? fields = some csType) :
    info.toRemoteFileInfo =
      ⟨⟨v, csType, (List.range csType.len).map info.csum⟩, sPkgBaseDir ++ (splitDirPath val).1,
        (splitDirPath val).2⟩ := by
  have hfile := h.file
  rw [hval] at hfile
  obtain ⟨hdir, hname⟩ := Prod.mk.inj hfile
  have hsize := h.size
  have hcs := h.csType
  rw [hv, Option.getD_some] at hsize
  rw [htype, Option.getD_some] at hcs
  rw [toRemoteFileInfo, hdir, hname, hsize, hcs]

end PackagesInfo

theorem splitDirPath_append (path : Bytes) : (splitDirPath path).1 ++ (splitDirPath path).2 = path := by
  unfold splitDirPath
  cases rfind 47 path with
  | none => rfl
  | some pos => exact List.take_append_drop _ _

/-- What is reported of these fields. -/
def reportOf (sPkgBaseDir : Bytes) (csum : Nat → UInt8) (fields : List PackagesField) :
    Option RemoteFileInfo :=
  let info := fields.foldl (PackagesInfo.set sPkgBaseDir) { csum }
  if info.isUsable then some info.toRemoteFileInfo else none

namespace PackagesField

/-- All of the fields and those that count say the same, unless both leave something out. The bytes of a
checksum are compared one by one. -/
def Agree (all own : List PackagesField) : Prop :=
  Complete all ∨ Complete own →
    lastOf filename? all = lastOf filename? own ∧ lastOf size? all = lastOf size? own ∧
      lastOf type? all = lastOf type? own ∧
      ∀ csType, lastOf type? own = some csType → ∀ j < csType.len,
        lastOf (byte? j) all = lastOf (byte? j) own

theorem csWritten_of_bin {hexString bytes : Bytes} (h : csAsciiToBin hexString = some bytes) :
    csWritten hexString = bytes ∧ bytes.length = hexString.length / 2 := by
  induction hexString using csAsciiToBin.induct generalizing bytes with
  | case1 a b s ih =>
    simp only [csAsciiToBin, Option.bind_eq_bind, Option.bind_eq_some_iff, Option.some.injEq] at h
    obtain ⟨x, hx, y, hy, rest, hrest, rfl⟩ := h
    obtain ⟨hwritten, hlen⟩ := ih hrest
    refine ⟨?_, ?_⟩
    · rw [csWritten, hx, hy, hwritten]
    · rw [List.length_cons, hlen, List.length_cons, List.length_cons]
      omega
  | case2 s hshort =>
    rcases s with _ | ⟨a, _ | ⟨b, s⟩⟩
    · cases h
      exact ⟨rfl, rfl⟩
    · cases h
      exact ⟨rfl, by simp⟩
    · exact (hshort a b s rfl).elim

/-- The last checksum of sound fields is there in full. -/
theorem last_sum {own : List PackagesField} (hsound : ∀ field ∈ own, field.Sound = true)
    {csType : CsType} (h : lastOf type? own = some csType) :
    ∃ bytes, lastOf sum? own = some (csType, bytes) ∧ bytes.length = csType.len ∧
      ∀ j (hj : j < bytes.length), lastOf (byte? j) own = some bytes[j] := by
  unfold type? at h
  rw [lastOf_map, Option.map_eq_some_iff] at h
  obtain ⟨⟨csType', bytes⟩, hsum, htype⟩ := h
  obtain rfl : csType' = csType := htype
  obtain ⟨field, hmem, hfield⟩ := lastOf_mem hsum
  obtain ⟨hexString, rfl, -, hlen, rfl⟩ := sum?_some hfield
  have hgood := hsound _ hmem
  simp only [Sound, Bool.and_eq_true] at hgood
  obtain ⟨bytes, hbytes⟩ := Option.isSome_iff_exists.mp hgood.2
  obtain ⟨rfl, hhalf⟩ := csWritten_of_bin hbytes
  refine ⟨csWritten hexString, hsum, by omega, ?_⟩
  intro j hj
  exact lastOf_bind hsum (List.getElem?_eq_getElem hj)

/-- A byte that sound fields give is given by any fields that they are among. -/
theorem byte_of_mem {all own : List PackagesField} (hsub : ∀ field ∈ own, field ∈ all) {j : Nat}
    {b : UInt8} (h : lastOf (byte? j) own = some b) : (lastOf (byte? j) all).isSome = true := by
  obtain ⟨field, hmem, hfield⟩ := lastOf_mem h
  exact lastOf_isSome.mpr ⟨field, hsub field hmem, Option.isSome_iff_exists.mpr ⟨b, hfield⟩⟩

end PackagesField

open PackagesField in
theorem reportOf_eq_iff {sPkgBaseDir : Bytes} {csum csum' : Nat → UInt8}
    {all own : List PackagesField} (hsub : ∀ field ∈ own, field ∈ all)
    (hsound : ∀ field ∈ own, field.Sound = true) :
    reportOf sPkgBaseDir csum all = reportOf sPkgBaseDir csum' own ↔ Agree all own := by
  have hall := PackagesInfo.holds_fold sPkgBaseDir csum all
  have hown := PackagesInfo.holds_fold sPkgBaseDir csum' own
  unfold reportOf
  generalize all.foldl (PackagesInfo.set sPkgBaseDir) { csum } = info at hall ⊢
  generalize own.foldl (PackagesInfo.set sPkgBaseDir) { csum := csum' } = info' at hown ⊢
  constructor
  · intro heq hany
    have hboth : info.isUsable = true ∧ info'.isUsable = true := by
      rw [← hall.isUsable_iff, ← hown.isUsable_iff] at hany
      cases hinfo : info.isUsable <;> cases hinfo' : info'.isUsable <;> simp_all
    simp only [hboth, if_true, Option.some.injEq] at heq
    obtain ⟨⟨val, hval, -⟩, ⟨v, hv, -⟩, htype⟩ := hall.isUsable_iff.mp hboth.1
    obtain ⟨⟨val', hval', -⟩, ⟨v', hv', -⟩, htype'⟩ := hown.isUsable_iff.mp hboth.2
    obtain ⟨csType, htype⟩ := Option.isSome_iff_exists.mp htype
    obtain ⟨csType', htype'⟩ := Option.isSome_iff_exists.mp htype'
    rw [hall.record hval hv htype, hown.record hval' hv' htype'] at heq
    injection heq with hfpr hdir hname
    injection hfpr with hsize hcs hsum
    have hpath : val = val' := by
      rw [← splitDirPath_append val, ← splitDirPath_append val', List.append_cancel_left hdir, hname]
    subst hpath hsize hcs
    rw [hval, hval', hv, hv', htype, htype']
    refine ⟨rfl, rfl, rfl, ?_⟩
    rintro csType' ⟨⟩ j hj
    obtain ⟨bytes, -, hlen, hbyte⟩ := last_sum hsound htype'
    have hown' := hbyte j (by omega)
    obtain ⟨b, hb⟩ := Option.isSome_iff_exists.mp (byte_of_mem hsub hown')
    have hsame := List.map_inj_left.mp hsum j (List.mem_range.mpr hj)
    rw [hall.csum, hown.csum, hb, hown', Option.getD_some, Option.getD_some] at hsame
    rw [hb, hown', hsame]
  · intro hagree
    by_cases hany : Complete all ∨ Complete own
    · obtain ⟨hval, hv, htype, hbytes⟩ := hagree hany
      have hboth : Complete all ∧ Complete own := by
        unfold Complete at hany ⊢
        rw [hval, hv, htype] at hany ⊢
        exact ⟨or_self_iff.mp hany, or_self_iff.mp hany⟩
      rw [if_pos (hall.isUsable_iff.mpr hboth.1), if_pos (hown.isUsable_iff.mpr hboth.2)]
      obtain ⟨⟨val, hval', -⟩, ⟨v, hv', -⟩, htype'⟩ := hboth.2
      obtain ⟨csType, htype'⟩ := Option.isSome_iff_exists.mp htype'
      rw [hall.record (hval.trans hval') (hv.trans hv') (htype.trans htype'),
        hown.record hval' hv' htype']
      have hsum : (List.range csType.len).map info.csum = (List.range csType.len).map info'.csum := by
        refine List.map_congr_left (fun j hj => ?_)
        obtain ⟨bytes, -, hlen, hbyte⟩ := last_sum hsound htype'
        have hown' := hbyte j (hlen ▸ List.mem_range.mp hj)
        rw [hall.csum, hown.csum, hbytes csType htype' j (List.mem_range.mp hj), hown']
        rfl
      rw [hsum]
    · rw [not_or] at hany
      rw [if_neg (fun h => hany.1 (hall.isUsable_iff.mp h)),
        if_neg (fun h => hany.2 (hown.isUsable_iff.mp h))]

/-- The text of a Packages file consists of stanzas, with blank lines between them. -/
def stanzas (text : Bytes) : List (List Bytes) :=
  (fileLines text).splitOnP (fun sLine => (stringTrimBack sLine).isEmpty)

def topLevel (sLine : Bytes) : Bool := sLine.head?.all (fun c => !isspace c)

/-- The lines of a stanza start a field or continue one, the first one a field. -/
def WellFormed (text : Bytes) : Prop :=
  ∀ stanza ∈ stanzas text, stanza.head?.all topLevel = true ∧
    ∀ sLine ∈ stanza, topLevel sLine = true → (parseKeyValLine sLine).isSome = true

instance (text : Bytes) : Decidable (WellFormed text) :=
  inferInstanceAs (Decidable (∀ stanza ∈ stanzas text, _ ∧ ∀ sLine ∈ stanza, _ → _))

/-- What the lines of a stanza set, whatever they are. -/
def lineFields (stanza : List Bytes) : List PackagesField := stanza.filterMap PackagesField.ofLine

/-- What its top-level fields set, without the checksums that are none. -/
def topFields (stanza : List Bytes) : List PackagesField :=
  (lineFields (stanza.filter topLevel)).filter PackagesField.Sound

/-- The record of a stanza with a file, a positive size and a checksum. -/
def ownRecord (sPkgBaseDir : Bytes) (stanza : List Bytes) : Option RemoteFileInfo := do
  let val ← lastOf PackagesField.filename? (topFields stanza)
  let size ← lastOf PackagesField.size? (topFields stanza)
  let (csType, csum) ← lastOf PackagesField.sum? (topFields stanza)
  let (dir, name) := splitDirPath val
  if name ≠ [] ∧ 0 < size then some ⟨⟨size, csType, csum⟩, sPkgBaseDir ++ dir, name⟩ else none

theorem sound_topFields (stanza : List Bytes) : ∀ field ∈ topFields stanza, field.Sound = true :=
  fun _ h => (List.mem_filter.mp h).2

theorem topFields_subset {stanza : List Bytes} :
    ∀ field ∈ topFields stanza, field ∈ lineFields stanza := by
  intro field h
  obtain ⟨sLine, hmem, hline⟩ := List.mem_filterMap.mp (List.mem_filter.mp h).1
  exact List.mem_filterMap.mpr ⟨sLine, (List.mem_filter.mp hmem).1, hline⟩

open PackagesField in
theorem ownRecord_eq (sPkgBaseDir : Bytes) (csum : Nat → UInt8) (stanza : List Bytes) :
    ownRecord sPkgBaseDir stanza = reportOf sPkgBaseDir csum (topFields stanza) := by
  have hsound := sound_topFields stanza
  have hinfo := PackagesInfo.holds_fold sPkgBaseDir csum (topFields stanza)
  unfold ownRecord reportOf
  generalize topFields stanza = fields at hsound hinfo ⊢
  generalize fields.foldl (PackagesInfo.set sPkgBaseDir) { csum } = info at hinfo ⊢
  by_cases hcomplete : Complete fields
  · obtain ⟨⟨val, hval, hname⟩, ⟨v, hv, hpos⟩, htype⟩ := id hcomplete
    obtain ⟨csType, htype⟩ := Option.isSome_iff_exists.mp htype
    obtain ⟨bytes, hsum, hlen, hbyte⟩ := last_sum hsound htype
    have hbytes : (List.range csType.len).map info.csum = bytes := by
      refine List.ext_getElem (by simp [hlen]) (fun j hj hj' => ?_)
      rw [List.getElem_map, List.getElem_range, hinfo.csum, hbyte j hj', Option.getD_some]
    rw [if_pos (hinfo.isUsable_iff.mpr hcomplete), hinfo.record hval hv htype, hbytes, hval, hv, hsum]
    simp [hname, hpos]
  · rw [if_neg (fun h => hcomplete (hinfo.isUsable_iff.mp h))]
    simp only [Option.bind_eq_bind, Option.bind_eq_none_iff]
    intro val hval v hv sum hsum
    refine if_neg (fun h => hcomplete ⟨⟨val, hval, h.1⟩, ⟨v, hv, h.2⟩, ?_⟩)
    unfold type?
    rw [lastOf_map, hsum]
    rfl

section Loop

variable (sPkgBaseDir : Bytes)

theorem readLine_stanza {stanza : List Bytes}
    (h : ∀ sLine ∈ stanza, (stringTrimBack sLine).isEmpty = false) (st : PackagesReader) :
    stanza.foldl (PackagesReader.readLine sPkgBaseDir) st =
      { st with info := (lineFields stanza).foldl (PackagesInfo.set sPkgBaseDir) st.info } := by
  induction stanza generalizing st with
  | nil => rfl
  | cons sLine stanza ih =>
    obtain ⟨hline, hrest⟩ := List.forall_mem_cons.mp h
    rw [List.foldl_cons, ih hrest, PackagesReader.readLine, if_neg (by simp [hline])]
    unfold lineFields
    cases hfield : PackagesField.ofLine sLine with
    | none => rw [List.filterMap_cons_none hfield]
    | some field => rw [List.filterMap_cons_some hfield, List.foldl_cons]

/-- The loop over the stanzas. What one leaves of the record is made invalid, and the bytes of its checksum
do not matter. -/
theorem reports_iff {chunks : List (List Bytes)}
    (h : ∀ stanza ∈ chunks, ∀ sLine ∈ stanza, (stringTrimBack sLine).isEmpty = false)
    (csum : Nat → UInt8) (reports : List (Option RemoteFileInfo)) :
    ∃ more, (chunks.foldl (fun (st : PackagesReader) (stanza : List Bytes) =>
        (stanza.foldl (PackagesReader.readLine sPkgBaseDir) st).commit) ⟨{ csum }, reports⟩).reports =
          reports ++ more ∧
      (more = chunks.map (ownRecord sPkgBaseDir) ↔
        ∀ stanza ∈ chunks, PackagesField.Agree (lineFields stanza) (topFields stanza)) := by
  induction chunks generalizing csum reports with
  | nil => exact ⟨[], by simp⟩
  | cons stanza chunks ih =>
    obtain ⟨hstanza, hrest⟩ := List.forall_mem_cons.mp h
    obtain ⟨more, hmore, hiff⟩ := ih hrest
      ((lineFields stanza).foldl (PackagesInfo.set sPkgBaseDir) { csum }).csum
      (reports ++ [reportOf sPkgBaseDir csum (lineFields stanza)])
    refine ⟨reportOf sPkgBaseDir csum (lineFields stanza) :: more, ?_, ?_⟩
    · rw [List.foldl_cons, readLine_stanza sPkgBaseDir hstanza, List.append_cons]
      exact hmore
    · rw [List.map_cons, List.cons.injEq, hiff, List.forall_mem_cons, ownRecord_eq _ csum,
        reportOf_eq_iff topFields_subset (sound_topFields stanza)]

end Loop

theorem readPackages_iff (sPkgBaseDir : Bytes) (csum : Nat → UInt8) (text : Bytes) :
    readPackages sPkgBaseDir csum text = (stanzas text).map (ownRecord sPkgBaseDir) ↔
      ∀ stanza ∈ stanzas text, PackagesField.Agree (lineFields stanza) (topFields stanza) := by
  obtain ⟨more, hmore, hiff⟩ := reports_iff sPkgBaseDir
    (fun stanza h sLine hmem => (mem_of_mem_splitOnP h hmem).2) csum []
  have hloop : readPackages sPkgBaseDir csum text = more := by
    unfold readPackages
    have hcommit : ∀ (st : PackagesReader) (sLine : Bytes), (stringTrimBack sLine).isEmpty = true →
        PackagesReader.readLine sPkgBaseDir st sLine = st.commit := fun st sLine h => if_pos h
    rw [foldl_chunks hcommit rfl]
    exact hmore
  rw [hloop]
  exact hiff

/-- The description of the package mentions a size. -/
def describedPackage : Bytes :=
  lit "Filename: pool/a.deb\nSize: 5\nMD5sum: " ++ List.replicate 32 97 ++
    lit "\nDescription: a\n Size: 1\n"

theorem readPackages_mixes :
    ¬ ∀ (sPkgBaseDir : Bytes) (csum : Nat → UInt8) (text : Bytes), WellFormed text →
      readPackages sPkgBaseDir csum text = (stanzas text).map (ownRecord sPkgBaseDir) := by
  intro h
  have hformed : WellFormed describedPackage := by
    unfold describedPackage lit
    rw [String.toList_ofList, String.toList_ofList]
    decide +kernel
  have hmixed : readPackages (lit "debrep/") (fun _ => 0) describedPackage ≠
      (stanzas describedPackage).map (ownRecord (lit "debrep/")) := by
    unfold describedPackage lit
    rw [String.toList_ofList, String.toList_ofList, String.toList_ofList]
    decide +kernel
  exact hmixed (h (lit "debrep/") (fun _ => 0) describedPackage hformed)

end Acng
