import Acng.DateOrder

namespace Acng
open Lib

namespace CTime

/-- What is written in the first format fits the buffer, and it is read as the same point in time. -/
def ReadsBack {τ : Type} (c : CTime τ) : Prop :=
  ∀ s fmt n tm, fmt ∈ fmts → c.strptime s fmt = some (n, tm) → 23 < n →
    (c.strftime normFmt tm).length < 30 ∧ ∃ n' tm', c.strptime (c.strftime normFmt tm) normFmt = some (n', tm') ∧
      23 < n' ∧ n' ≤ (c.strftime normFmt tm).length ∧ c.mktime tm' = c.mktime tm

variable {τ : Type} {c : CTime τ}

theorem ReadsBack.parseDate (hc : c.ReadsBack) {s : Bytes} {t : Int} (ht : c.dateLib.parseDate s = some t) :
    c.dateLib.parseDate (c.dateLib.formatNorm s) = some t ∧ c.dateLib.formatNorm s ≠ [] := by
  obtain ⟨tm, htm, rfl⟩ := Option.map_eq_some_iff.mp ht
  obtain ⟨fmt, hfmt, hread⟩ := List.exists_of_findSome?_eq_some htm
  split at hread
  · rename_i n tm' hstrptime
    split at hread
    · rename_i hlong
      obtain rfl := Option.some.inj hread
      obtain ⟨hfits, n', back, hback, hlong', hle, htime⟩ := hc s fmt n tm' hfmt hstrptime hlong
      have hformat : c.dateLib.formatNorm s = c.strftime normFmt tm' := by
        simp only [dateLib, htm, Option.map_some, Option.getD_some, formatTime]
        rw [if_pos ⟨hfits, by omega⟩]
      have hparse : c.parseTm (c.strftime normFmt tm') = some back := by
        rw [parseTm, fmts, List.findSome?_cons, hback]
        simp [hlong']
      rw [hformat]
      refine ⟨?_, ?_⟩
      · simp only [dateLib, hparse, Option.map_some, htime]
      · intro hnil
        rw [hnil] at hle
        exact absurd hle (by simp; omega)
    · cases hread
  · cases hread

end CTime

namespace HttpDate

/-- The date denotes a point in time. -/
structure Denotes (lib : DateLib) (d : HttpDate) (t : Int) : Prop where
  fits : d.buf.length < 30
  set : d.isSet = true
  parses : lib.parseDate d.buf = some t

variable {lib : DateLib} {a b : HttpDate} {ta tb : Int}

theorem Denotes.value (h : a.Denotes lib ta) (ifBad : Int) : a.value lib ifBad = ta := by
  rw [HttpDate.value, if_pos h.set, h.parses, Option.getD_some]

theorem lt_iff (ha : a.Denotes lib ta) (hb : b.Denotes lib tb) : a.lt lib b = true ↔ ta ≤ tb := by
  rw [lt, ge, ha.value, hb.value, decide_eq_true_eq]

theorem ge_iff (ha : a.Denotes lib ta) (hb : b.Denotes lib tb) : a.ge lib b = true ↔ tb ≤ ta := by
  rw [ge, ha.value, hb.value, decide_eq_true_eq]

theorem le_iff (ha : a.Denotes lib ta) (hb : b.Denotes lib tb) : a.le lib b = true ↔ ta ≤ tb := by
  rw [le, ha.value, hb.value, decide_eq_true_eq]

theorem gt_iff (ha : a.Denotes lib ta) (hb : b.Denotes lib tb) : a.gt lib b = true ↔ tb ≤ ta := le_iff hb ha

theorem eq_iff (ha : a.Denotes lib ta) (hb : b.Denotes lib tb) : a.eq lib b = true ↔ ta = tb := by
  rw [eq, ha.set, hb.set, ha.value, hb.value]
  split
  · rename_i h
    exact absurd h (by simp)
  · split
    · rename_i htext
      have hparses := ha.parses
      rw [eq_of_beq htext, hb.parses] at hparses
      exact ⟨fun _ => (Option.some.inj hparses).symm, fun _ => rfl⟩
    · rw [beq_iff_eq]

/-- A text that is not empty is made a date. -/
theorem eqStr_some (ha : a.Denotes lib ta) {text : Bytes} (hne : text ≠ []) :
    a.eqStr lib (some text) = true ↔ text = a.buf ∨ ta = (lib.parseDate text).getD (-2) := by
  have hset : (some text).any (fun t => !t.isEmpty) = true := by simp [hne]
  have hbuf : a.buf.take 30 = a.buf := List.take_of_length_le (Nat.le_of_lt ha.fits)
  have hfront : text.take 30 = a.buf ↔ text = a.buf := by
    constructor
    · intro h
      have hlen := congrArg List.length h
      have hfits := ha.fits
      rw [List.length_take] at hlen
      rw [List.take_of_length_le (by omega)] at h
      exact h
    · rintro rfl
      exact hbuf
  rw [eqStr, ha.set, hset, ha.value, hbuf, Option.getD_some]
  simp only [if_true, Bool.not_true, Bool.false_eq_true, if_false]
  split
  · rename_i h
    exact ⟨fun _ => .inl (hfront.mp (eq_of_beq h)), fun _ => rfl⟩
  · rename_i h
    have hother : text ≠ a.buf := fun heq => h (beq_iff_eq.mpr (hfront.mpr heq))
    rw [beq_iff_eq]
    exact ⟨.inr, fun h => h.resolve_left hother⟩

theorem eq_some (ha : a.Denotes lib ta) {text : Bytes} (hne : text ≠ []) :
    a.eq lib ⟨text⟩ = true ↔ text = a.buf ∨ ta = (lib.parseDate text).getD (-2) := by
  have hset : (⟨text⟩ : HttpDate).isSet = true := by simp [isSet, hne]
  have hvalue : (⟨text⟩ : HttpDate).value lib (-2) = (lib.parseDate text).getD (-2) := by rw [value, if_pos hset]
  rw [eq, ha.set, hset, ha.value, hvalue]
  simp only [bne_self_eq_false, Bool.false_eq_true, if_false]
  split
  · rename_i h
    exact ⟨fun _ => .inl (eq_of_beq h).symm, fun _ => rfl⟩
  · rename_i h
    rw [beq_iff_eq]
    exact ⟨.inr, fun h' => h'.resolve_left (fun heq => h (beq_iff_eq.mpr heq.symm))⟩

/-- What a C string says, against the date that is made of it. -/
theorem eqStr_iff (ha : a.Denotes lib ta)
    (hlib : ∀ s t, lib.parseDate s = some t → lib.parseDate (lib.formatNorm s) = some t ∧ lib.formatNorm s ≠ [])
    (s : Option Bytes) :
    a.eqStr lib s = a.eq lib (ofCStr lib s) ↔
      ¬ (ta = -2 ∧ ∃ text, s = some text ∧ 30 ≤ text.length ∧ lib.parseDate text = none) := by
  have hunset : a.eq lib {} = false := by rw [eq, ha.set]; rfl
  cases s with
  | none =>
    have hstr : a.eqStr lib none = false := by rw [eqStr, ha.set]; rfl
    simp [ofCStr, hunset, hstr]
  | some text =>
    by_cases hempty : text = []
    · subst hempty
      have hstr : a.eqStr lib (some []) = false := by rw [eqStr, ha.set]; rfl
      have hdate : ofCStr lib (some []) = {} := rfl
      simp [hdate, hunset, hstr]
    have hstr := eqStr_some ha hempty
    by_cases hshort : text.length < 30
    · -- The text is taken as it is.
      have hdate : ofCStr lib (some text) = ⟨text⟩ := by rw [ofCStr]; exact if_pos hshort
      rw [hdate, Bool.eq_iff_iff, hstr, eq_some ha hempty]
      refine ⟨fun _ h => ?_, fun _ => Iff.rfl⟩
      obtain ⟨-, text', htext, hlong, -⟩ := h
      obtain rfl := Option.some.inj htext
      omega
    · have hdate : ofCStr lib (some text) = ⟨if (lib.parseDate text).isSome then lib.formatNorm text else []⟩ := by
        rw [ofCStr]
        exact if_neg hshort
      have hother : text ≠ a.buf := by
        rintro rfl
        exact hshort ha.fits
      rw [hdate, Bool.eq_iff_iff, hstr]
      cases hparse : lib.parseDate text with
      | none =>
        have hnone : a.eq lib ⟨if (none : Option Int).isSome then lib.formatNorm text else []⟩ = false := hunset
        rw [hnone]
        simp [hother, hparse, Nat.le_of_not_lt hshort]
      | some t =>
        -- The text is put into the first format, which is read as the same time.
        obtain ⟨hback, hne⟩ := hlib text t hparse
        have hsame : lib.formatNorm text = a.buf → ta = t := by
          intro heq
          have hparses := ha.parses
          rw [← heq, hback] at hparses
          exact (Option.some.inj hparses).symm
        rw [Option.isSome_some, if_pos rfl, eq_some ha hne, hback, Option.getD_some]
        refine ⟨fun _ h => ?_, fun _ => ⟨fun h => .inr (h.resolve_left hother), fun h => .inr (h.elim hsame id)⟩⟩
        obtain ⟨-, text', htext, -, hnone⟩ := h
        obtain rfl := Option.some.inj htext
        rw [hparse] at hnone
        cases hnone

/-- The laws of two dates, of a third one and of a C string. -/
structure OrderLaws (lib : DateLib) (a b : HttpDate) (ta tb : Int) (s : Option Bytes) : Prop where
  one : (a.lt lib b = true ∧ a.eq lib b = false ∧ b.lt lib a = false) ∨
    (a.lt lib b = false ∧ a.eq lib b = true ∧ b.lt lib a = false) ∨
    (a.lt lib b = false ∧ a.eq lib b = false ∧ b.lt lib a = true)
  ge : a.ge lib b = !a.lt lib b
  time : a.eq lib b = true ↔ ta = tb
  refl : a.eq lib a = true
  symm : a.eq lib b = b.eq lib a
  trans : ∀ d td, d.Denotes lib td → a.eq lib b = true → b.eq lib d = true → a.eq lib d = true
  cstr : a.eqStr lib s = a.eq lib (ofCStr lib s)

/-- `operator<` is `operator>=` the other way round, so the laws hold only of dates that are not equal. -/
theorem orderLaws_iff {τ : Type} {c : CTime τ} (hc : c.ReadsBack) {a b : HttpDate} {ta tb : Int}
    (ha : a.Denotes c.dateLib ta) (hb : b.Denotes c.dateLib tb) (s : Option Bytes) :
    OrderLaws c.dateLib a b ta tb s ↔
      ta ≠ tb ∧ ¬ (ta = -2 ∧ ∃ text, s = some text ∧ 30 ≤ text.length ∧ c.dateLib.parseDate text = none) := by
  have hab := lt_iff ha hb
  have hba := lt_iff hb ha
  have hge := ge_iff ha hb
  have heq := eq_iff ha hb
  have hstr := eqStr_iff ha (fun _ _ => hc.parseDate) s
  constructor
  · intro laws
    refine ⟨?_, hstr.mp laws.cstr⟩
    rintro rfl
    have hnot := laws.ge
    rw [hge.mpr le_rfl, hab.mpr le_rfl] at hnot
    cases hnot
  · rintro ⟨hne, hlong⟩
    refine ⟨?_, ?_, heq, (eq_iff ha ha).mpr rfl, ?_, fun d td hd hab hbd => ?_, hstr.mpr hlong⟩
    · have hneq : a.eq c.dateLib b = false := by
        rw [← Bool.not_eq_true]
        exact fun h => hne (heq.mp h)
      obtain hlt | hlt := lt_or_gt_of_ne hne
      · refine .inl ⟨hab.mpr (le_of_lt hlt), hneq, ?_⟩
        rw [← Bool.not_eq_true, hba]
        exact not_le.mpr hlt
      · refine .inr (.inr ⟨?_, hneq, hba.mpr (le_of_lt hlt)⟩)
        rw [← Bool.not_eq_true, hab]
        exact not_le.mpr hlt
    · rw [Bool.eq_iff_iff, Bool.not_eq_true', ← Bool.not_eq_true, hge, hab]
      omega
    · rw [Bool.eq_iff_iff, heq, eq_iff hb ha]
      exact eq_comm
    · rw [heq] at hab
      rw [eq_iff hb hd] at hbd
      rw [eq_iff ha hd]
      exact hab.trans hbd

section Example

/-- The start of the epoch, or the second behind it. -/
def epochText (late : Bool) : Bytes :=
  if late then lit "Thu, 01 Jan 1970 00:00:01 GMT" else lit "Thu, 01 Jan 1970 00:00:00 GMT"

/-- A library that knows these two dates. -/
def epochTime : CTime Bool where
  strptime s fmt :=
    if fmt = normFmt then
      if s = epochText false then some (29, false) else if s = epochText true then some (29, true) else none
    else none
  mktime late := if late then 1 else 0
  strftime _ late := epochText late

theorem epochTime_readsBack : epochTime.ReadsBack := by
  intro s fmt n tm _ _ _
  refine ⟨?_, 29, tm, ?_, by decide, ?_, rfl⟩
  · cases tm <;> decide
  · cases tm <;> decide
  · cases tm <;> decide

/-- A date is less than itself. -/
theorem orderLaws_same : ¬ OrderLaws epochTime.dateLib ⟨epochText false⟩ ⟨epochText false⟩ 0 0 none := by
  intro laws
  exact absurd laws.ge (by decide)

theorem orderLaws_iff_epoch :
    OrderLaws epochTime.dateLib ⟨epochText false⟩ ⟨epochText true⟩ 0 1 (some (epochText true)) :=
  (orderLaws_iff epochTime_readsBack ⟨by decide, by decide, by decide⟩
    ⟨by decide, by decide, by decide⟩ _).mpr ⟨by decide, fun h => absurd h.1 (by decide)⟩

end Example

end HttpDate

end Acng
