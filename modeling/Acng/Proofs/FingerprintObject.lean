import Acng.FingerprintObject
import Acng.Proofs.PackagesIndex

namespace Acng
open Lib

def allHex (s : Bytes) : Bool := s.all (fun c => (hexVal c).isSome)

theorem csAsciiToBin_allHex {s : Bytes} (hall : allHex s = true) : csAsciiToBin s = some (csWritten s) := by
  induction s using csWritten.induct with
  | case1 a b s x y hx hy ih =>
    have hs : allHex s = true := by
      simp only [allHex, List.all_cons, Bool.and_eq_true] at hall
      exact hall.2.2
    simp [csAsciiToBin, csWritten, hx, hy, ih hs]
  | case2 a b s hno =>
    simp only [allHex, List.all_cons, Bool.and_eq_true] at hall
    obtain ⟨x, hx⟩ := Option.isSome_iff_exists.mp hall.1
    obtain ⟨y, hy⟩ := Option.isSome_iff_exists.mp hall.2.1
    exact (hno x y hx hy).elim
  | case3 s hs => rw [csWritten.eq_2 s hs, csAsciiToBin.eq_2 s hs]

/-- As many bytes as the string has pairs are written only if all are hex digits. -/
theorem allHex_of_length {s : Bytes} (heven : s.length % 2 = 0) (hlen : 2 * (csWritten s).length = s.length) :
    allHex s = true := by
  induction s using csWritten.induct with
  | case1 a b s x y hx hy ih =>
    rw [csWritten, hx, hy] at hlen
    simp only [List.length_cons] at hlen heven
    simp only [allHex, List.all_cons, hx, hy, Option.isSome_some, Bool.true_and]
    exact ih (by omega) (by omega)
  | case2 a b s hno =>
    rw [csWritten] at hlen
    split at hlen
    · exact (hno _ _ ‹_› ‹_›).elim
    · simp at hlen
  | case3 s hs =>
    rcases s with _ | ⟨a, _ | ⟨b, s⟩⟩
    · rfl
    · simp at heven
    · exact (hs a b s rfl).elim

theorem triedCsType_length {hexString : Bytes} {eCstype csType : CsType}
    (h : triedCsType hexString eCstype = some csType) :
    hexString.length % 2 = 0 ∧ 2 * csType.len ≤ hexString.length := by
  simp only [triedCsType] at h
  split at h
  · cases h
  · rename_i hl
    have heven : hexString.length % 2 = 0 := by omega
    refine ⟨heven, ?_⟩
    split at h
    · split at h
      · cases h
      · cases h
        have hle : (CsType.guess (hexString.length / 2 % 2 ^ 16)).len ≤ hexString.length / 2 % 2 ^ 16 := by
          generalize hexString.length / 2 % 2 ^ 16 = n
          unfold CsType.guess
          split_ifs <;> simp [CsType.len, *]
        omega
    · split at h
      · cases h
      · cases h
        omega

namespace FprObject

theorem csBytes_length_iff {hexString : Bytes} {csType : CsType} (hle : 2 * csType.len ≤ hexString.length) :
    (csBytes hexString csType).length = csType.len ↔ allHex (hexString.take (2 * csType.len)) = true := by
  have htake : (hexString.take (2 * csType.len)).length = 2 * csType.len := List.length_take_of_le hle
  constructor
  · intro hlen
    refine allHex_of_length (by omega) ?_
    rw [csBytes] at hlen
    rw [hlen, htake]
  · intro hall
    have hbin := (PackagesField.csWritten_of_bin (csAsciiToBin_allHex hall)).2
    rw [csBytes, hbin, htake]
    omega

variable (self : FprObject)

/-- The object has this type, and begins with what is written of the digits. -/
def Holds (hexString : Bytes) (csType : CsType) : Prop :=
  self.csType = csType ∧ csBytes hexString csType <+: self.csum

theorem stored_eq_iff (hexString : Bytes) (csType : CsType) :
    self.stored hexString csType = self ↔ self.Holds hexString csType := by
  rw [Holds, FprObject.ext_iff, List.prefix_iff_eq_append]
  exact ⟨fun h => ⟨h.2.1.symm, h.2.2⟩, fun h => ⟨rfl, h.1.symm, h.2⟩⟩

theorem stored_sum {hexString : Bytes} {csType : CsType}
    (h : (csBytes hexString csType).length = csType.len) :
    (self.stored hexString csType).sum = csBytes hexString csType := by
  change (csBytes hexString csType ++ _).take csType.len = _
  rw [← h, List.take_left]

/-- The result is false and nothing changed, or it is true and the checksum has the length of its type and is
what all of the digits say. -/
def Atomic (hexString : Bytes) (result : Bool × FprObject) : Prop :=
  (result.1 = false → result.2 = self) ∧
    (result.1 = true → result.2.sum.length = result.2.csType.len ∧
      hexString.length = 2 * result.2.csType.len ∧ csAsciiToBin hexString = some result.2.sum)

/-- No digit is bad and none is too much, or there is nothing to change. -/
def CleanCs (hexString : Bytes) (eCstype : CsType) : Prop :=
  ∀ csType, triedCsType hexString eCstype = some csType →
    if allHex (hexString.take (2 * csType.len)) then hexString.length = 2 * csType.len
    else self.Holds hexString csType

/-- So it is with the size behind, which must not be below zero. -/
def CleanSet (words : List Bytes) (wantedType : CsType) : Prop :=
  ∀ hexString rest, words = hexString :: rest → ∀ csType, triedCsType hexString wantedType = some csType →
    if allHex (hexString.take (2 * csType.len)) then
      match rest with
      | [] => self.Holds hexString csType
      | word :: _ =>
        if 0 ≤ strtoll word then hexString.length = 2 * csType.len
        else self.Holds hexString csType ∧ self.size = strtoll word
    else self.Holds hexString csType

theorem atomic_false (hexString : Bytes) (other : FprObject) : self.Atomic hexString (false, other) ↔ other = self :=
  ⟨fun h => h.1 rfl, fun h => ⟨fun _ => h, fun hf => Bool.noConfusion hf⟩⟩

theorem atomic_stored_iff {hexString : Bytes} {csType : CsType} (hle : 2 * csType.len ≤ hexString.length)
    (hall : allHex (hexString.take (2 * csType.len)) = true) (other : FprObject)
    (hsum : other.sum = (self.stored hexString csType).sum) (htype : other.csType = csType) :
    self.Atomic hexString (true, other) ↔ hexString.length = 2 * csType.len := by
  have hlen := (csBytes_length_iff hle).mpr hall
  rw [stored_sum self hlen] at hsum
  refine ⟨fun h => htype ▸ (h.2 rfl).2.1, fun h => ⟨fun hf => Bool.noConfusion hf, fun _ => ?_⟩⟩
  refine ⟨hsum ▸ htype ▸ hlen, htype ▸ h, ?_⟩
  rw [hsum, csBytes]
  rw [← h, List.take_length] at hall ⊢
  exact csAsciiToBin_allHex hall

theorem setCs_atomic_iff (hexString : Bytes) (eCstype : CsType) :
    self.Atomic hexString (self.setCs hexString eCstype) ↔ self.CleanCs hexString eCstype := by
  rw [CleanCs, setCs]
  cases htried : triedCsType hexString eCstype with
  | none => simp [atomic_false]
  | some csType =>
    have hle := (triedCsType_length htried).2
    simp only [Option.some.injEq, forall_eq', csBytes_length_iff hle]
    cases hall : allHex (hexString.take (2 * csType.len)) with
    | true => exact self.atomic_stored_iff hle hall _ rfl rfl
    | false => exact (self.atomic_false _ _).trans (self.stored_eq_iff _ _)

theorem set_atomic_iff (words : List Bytes) (wantedType : CsType) :
    self.Atomic (words.headD []) (self.set words wantedType) ↔ self.CleanSet words wantedType := by
  cases words with
  | nil => simp [set, atomic_false, CleanSet]
  | cons hexString rest =>
    simp only [CleanSet, set, setCs, List.headD_cons, List.cons.injEq, and_imp, forall_eq', forall_apply_eq_imp_iff]
    cases htried : triedCsType hexString wantedType with
    | none => simp [atomic_false]
    | some csType =>
      have hle := (triedCsType_length htried).2
      simp only [Option.some.injEq, forall_eq', csBytes_length_iff hle]
      cases hall : allHex (hexString.take (2 * csType.len)) with
      | false => exact (self.atomic_false _ _).trans (self.stored_eq_iff _ _)
      | true =>
        cases rest with
        | nil => exact (self.atomic_false _ _).trans (self.stored_eq_iff _ _)
        | cons word rest =>
          let sized : FprObject := { self.stored hexString csType with size := strtoll word }
          change self.Atomic hexString (decide (0 ≤ strtoll word), sized) ↔ if 0 ≤ strtoll word then _ else _
          by_cases hsize : 0 ≤ strtoll word
          · rw [if_pos hsize, decide_eq_true hsize]
            exact self.atomic_stored_iff hle hall sized rfl rfl
          · rw [if_neg hsize, decide_eq_false hsize, atomic_false, ← stored_eq_iff, FprObject.ext_iff,
              FprObject.ext_iff]
            constructor
            · rintro ⟨h, htype, hbytes⟩
              exact ⟨⟨rfl, htype, hbytes⟩, h.symm⟩
            · rintro ⟨⟨-, htype, hbytes⟩, h⟩
              exact ⟨h.symm, htype, hbytes⟩

end FprObject

theorem allHex_of_bin {s bytes : Bytes} (heven : s.length % 2 = 0) (h : csAsciiToBin s = some bytes) :
    allHex s = true := by
  obtain ⟨rfl, hlen⟩ := PackagesField.csWritten_of_bin h
  exact allHex_of_length heven (by omega)

theorem triedCsType_wanted (hexString : Bytes) {eCstype : CsType} (h : eCstype ≠ .invalid) :
    triedCsType hexString eCstype =
      if hexString.length = 2 * eCstype.len then some eCstype else none := by
  have hpos : eCstype.len ≠ 0 := by cases eCstype <;> first | exact absurd rfl h | decide
  simp only [triedCsType, if_neg h]
  split_ifs <;> first | rfl | omega

namespace PackagesInfo

variable (info : PackagesInfo) {hexString : Bytes} {eCstype : CsType}

/-- Its fingerprint. -/
def fpr : FprObject where
  size := info.size
  csType := info.csType
  csum := (List.range maxCsLen).map info.csum
  whole := by simp

theorem setCs_of_length (hlen : hexString.length ≠ 2 * eCstype.len) :
    info.setCs hexString eCstype = info := by
  simp [setCs, hlen]

theorem setCs_written (htype : eCstype ≠ .invalid) (hlen : hexString.length = 2 * eCstype.len) :
    info.setCs hexString eCstype =
      { info with csType := eCstype, csum := fun j => ((csWritten hexString)[j]?).getD (info.csum j) } := by
  have hpos : eCstype.len ≠ 0 := by cases eCstype <;> first | exact absurd rfl htype | decide
  simp only [setCs, hlen]
  rw [if_neg]
  simp [hpos]

theorem csBytes_all (hlen : hexString.length = 2 * eCstype.len) :
    FprObject.csBytes hexString eCstype = csWritten hexString := by
  rw [FprObject.csBytes, ← hlen, List.take_length]

theorem fpr_setCs (htype : eCstype ≠ .invalid) (hlen : hexString.length = 2 * eCstype.len) :
    (info.setCs hexString eCstype).fpr = info.fpr.stored hexString eCstype := by
  rw [info.setCs_written htype hlen]
  refine FprObject.ext rfl rfl ?_
  change (List.range maxCsLen).map _ = FprObject.csBytes hexString eCstype ++
    ((List.range maxCsLen).map info.csum).drop (FprObject.csBytes hexString eCstype).length
  have hle : (csWritten hexString).length ≤ maxCsLen :=
    csBytes_all hlen ▸ Nat.le_trans (FprObject.csBytes_le hexString eCstype) (FprObject.len_le eCstype)
  rw [csBytes_all hlen]
  refine List.ext_getElem (by simp; omega) ?_
  intro j hj hj'
  rw [List.getElem_append, List.getElem_map, List.getElem_range]
  change ((csWritten hexString)[j]?).getD (info.csum j) = _
  split
  · rw [List.getElem?_eq_getElem ‹_›, Option.getD_some]
  · rw [List.getElem?_eq_none (by omega), List.getElem_drop, List.getElem_map, List.getElem_range]
    rw [Option.getD_none]
    congr 1
    omega

theorem setCs_eq_iff (htype : eCstype ≠ .invalid) (hlen : hexString.length = 2 * eCstype.len) :
    info.setCs hexString eCstype = info ↔ info.fpr.stored hexString eCstype = info.fpr := by
  rw [← info.fpr_setCs htype hlen]
  refine ⟨congrArg fpr, fun h => ?_⟩
  rw [info.setCs_written htype hlen] at h ⊢
  have hle : (csWritten hexString).length ≤ maxCsLen :=
    csBytes_all hlen ▸ Nat.le_trans (FprObject.csBytes_le hexString eCstype) (FprObject.len_le eCstype)
  have hcsum : (fun j => ((csWritten hexString)[j]?).getD (info.csum j)) = info.csum := by
    funext j
    by_cases hj : j < maxCsLen
    · exact List.map_inj_left.mp (congrArg FprObject.csum h) j (List.mem_range.mpr hj)
    · rw [List.getElem?_eq_none (by omega), Option.getD_none]
  have htype : eCstype = info.csType := congrArg FprObject.csType h
  rw [hcsum, htype]

theorem toRemoteFileInfo_fpr : info.toRemoteFileInfo.fpr = info.fpr.value := by
  have hle := FprObject.len_le info.csType
  change (⟨_, _, (List.range info.csType.len).map info.csum⟩ : Fingerprint) =
    ⟨_, _, ((List.range maxCsLen).map info.csum).take info.csType.len⟩
  rw [← List.map_take, List.take_range, Nat.min_eq_left hle]
  rfl

/-- If the entry can be used then its checksum is what the digits say, or what it was. -/
def RightAfter (hexString : Bytes) (eCstype : CsType) : Prop :=
  (info.setCs hexString eCstype).isUsable = true →
    info.setCs hexString eCstype = info ∨
      csAsciiToBin hexString = some (info.setCs hexString eCstype).toRemoteFileInfo.fpr.csum

theorem rightAfter_iff (htype : eCstype ≠ .invalid) :
    info.RightAfter hexString eCstype ↔
      (info.sFileName.isEmpty = true ∨ info.size ≤ 0 ∨ info.fpr.CleanCs hexString eCstype) := by
  rw [RightAfter, FprObject.CleanCs, triedCsType_wanted hexString htype]
  by_cases hlen : hexString.length = 2 * eCstype.len
  · have hall : (csAsciiToBin hexString = some (info.setCs hexString eCstype).toRemoteFileInfo.fpr.csum) ↔
        allHex hexString = true := by
      rw [toRemoteFileInfo_fpr, info.fpr_setCs htype hlen]
      refine ⟨allHex_of_bin (by omega), fun hall => ?_⟩
      have hwhole : (FprObject.csBytes hexString eCstype).length = eCstype.len := by
        rw [FprObject.csBytes_length_iff hlen.ge, ← hlen, List.take_length]
        exact hall
      change _ = some (info.fpr.stored hexString eCstype).sum
      rw [FprObject.stored_sum _ hwhole, csBytes_all hlen]
      exact csAsciiToBin_allHex hall
    rw [if_pos hlen, info.setCs_eq_iff htype hlen, FprObject.stored_eq_iff, hall]
    have husable : (info.setCs hexString eCstype).isUsable = true ↔
        ¬ info.sFileName.isEmpty = true ∧ ¬ info.size ≤ 0 := by
      rw [info.setCs_written htype hlen]
      simp [isUsable, htype]
    rw [husable]
    simp only [Option.some.injEq, forall_eq', ← hlen, List.take_length]
    cases allHex hexString with
    | true => simp
    | false =>
      simp only [Bool.false_eq_true, or_false, if_false]
      tauto
  · simp [if_neg hlen, info.setCs_of_length hlen]

end PackagesInfo

/-- The checksum, the words of a splitter, and the line of an index that asks for a type. -/
theorem FprObject.atomic_iff (self : FprObject) (hexString : Bytes) (words : List Bytes) (eCstype : CsType)
    (info : PackagesInfo) (wanted : { csType : CsType // csType ≠ .invalid }) :
    (self.Atomic hexString (self.setCs hexString eCstype) ↔ self.CleanCs hexString eCstype) ∧
    (self.Atomic (words.headD []) (self.set words eCstype) ↔ self.CleanSet words eCstype) ∧
    (info.RightAfter hexString wanted ↔
      (info.sFileName.isEmpty = true ∨ info.size ≤ 0 ∨ info.fpr.CleanCs hexString wanted)) :=
  ⟨self.setCs_atomic_iff hexString eCstype, self.set_atomic_iff words eCstype, info.rightAfter_iff wanted.2⟩

/-- The last of 32 digits is an `x`. The result is false, but the type is set, and the entry counts with a
checksum of zeros. -/
theorem FprObject.not_atomic :
    let hexString : Bytes := List.replicate 31 48 ++ [120]
    let info : PackagesInfo := { size := 1, csum := fun _ => 0, sFileName := [97] }
    ¬ info.fpr.Atomic hexString (info.fpr.setCs hexString .md5) ∧ ¬ info.RightAfter hexString .md5 := by
  intro hexString info
  have hbad : ¬ info.fpr.CleanCs hexString .md5 := by
    intro h
    have := h .md5 (by decide)
    rw [if_neg (by decide)] at this
    exact absurd this.1 (by decide)
  refine ⟨mt (info.fpr.setCs_atomic_iff hexString .md5).mp hbad, ?_⟩
  rw [info.rightAfter_iff (by decide)]
  rintro (h | h | h)
  · exact absurd h (by decide)
  · exact absurd h (by decide)
  · exact hbad h

end Acng
