import Acng.Conn
import Acng.Proofs.HeadLoad

namespace Acng.Header
open Lib

/-- A field that the source's table does not know. -/
def isCustom (l : Bytes) : Bool := isField l && (resolvePos (fieldKey l)).isNone

/-- A folded line directly behind an unknown field, where the loop gets to if
these are not collected. -/
def UnknownFold (isOpen : Bool) (lines : List Bytes) : Prop := Behind isCustom false isOpen lines

/-- The same head read in both modes. -/
structure Modes (st st' : LineState) : Prop where
  hd : st'.hd = st.hd
  dropped : st.unk = none
  collected : st'.unk.isSome = true

/-- What the loop makes of the lines: its result, or none where it appends to
an absent value, and the head. -/
def outcome (st : LineState) (pos : Nat) (lines : List Bytes) : Option Int × Header :=
  (if (appends st lines).all (fun b => b) then some (loadLines st pos lines).1 else none,
    (loadLines st pos lines).2.hd)

theorem outcome_nil (st : LineState) (pos : Nat) : outcome st pos [] = (some 0, st.hd) := rfl

theorem outcome_blank (st : LineState) (pos : Nat) (rest : List Bytes) :
    outcome st pos ([] :: rest) = (some (if rest.isEmpty then 0 else (pos : Int) + 2), st.hd) := by
  unfold outcome
  cases rest <;> rfl

theorem outcome_field {st t : LineState} {l : Bytes} (pos : Nat) (rest : List Bytes)
    (he : l.isEmpty = false) (hf : isFolded l = false) (hok : fieldLine st (trimBoth l) = .ok t) :
    outcome st pos (l :: rest) = outcome t (pos + l.length + 2) rest := by
  unfold outcome
  rw [appends, loadLines, he, hf, hok]
  rfl

theorem outcome_bad {st : LineState} {l : Bytes} {e : Int} (pos : Nat) (rest : List Bytes)
    (he : l.isEmpty = false) (hf : isFolded l = false) (herr : fieldLine st (trimBoth l) = .error e) :
    outcome st pos (l :: rest) = (some (if rest.isEmpty then 0 else e), st.hd) := by
  unfold outcome
  rw [appends, loadLines, he, hf, herr]
  rfl

theorem outcome_garbage {st : LineState} {l : Bytes} (pos : Nat) (rest : List Bytes)
    (he : l.isEmpty = false) (hf : isFolded l = true) (hmax : st.lastSetId = .max) :
    outcome st pos (l :: rest) = (some (-2), st.hd) := by
  have herr : foldLine st (trimBoth l) = .error (-2) := by rw [foldLine, hmax]
  unfold outcome
  rw [appends, loadLines, he, hf, herr, hmax]
  rfl

/-- A folded line with nothing to append it to. -/
theorem outcome_stuck {st : LineState} {l : Bytes} (pos : Nat) (rest : List Bytes)
    (he : l.isEmpty = false) (hf : isFolded l = true) (hslot : st.slot = false)
    (hlast : st.lastSetId ≠ .unkExport) :
    outcome st pos (l :: rest) = (if st.lastSetId = .max then some (-2) else none, st.hd) := by
  cases hset : st.lastSetId with
  | max => exact outcome_garbage pos rest he hf hset
  | unkExport => exact absurd hset hlast
  | pos p =>
    have hnone : st.hd.h p = none := by
      rw [LineState.slot, hset] at hslot
      exact Option.not_isSome_iff_eq_none.mp (Bool.not_eq_true _ ▸ hslot)
    have herr : foldLine st (trimBoth l) = .error (-3) := by simp only [foldLine, hset, hnone]
    unfold outcome
    rw [appends, loadLines, he, hf, herr, hslot]
    simp [hset]

theorem outcome_fold {st t : LineState} {l : Bytes} (pos : Nat) (rest : List Bytes)
    (he : l.isEmpty = false) (hf : isFolded l = true) (hslot : st.slot = true)
    (hok : foldLine st (trimBoth l) = .ok t) :
    outcome st pos (l :: rest) = outcome t (pos + l.length + 2) rest := by
  have hmax : st.lastSetId ≠ .max := by
    intro hmax
    rw [LineState.slot, hmax] at hslot
    cases hslot
  unfold outcome
  rw [appends, loadLines, he, hf, hok, hslot]
  simp [hmax]

/-- Whether a line is a field at all does not depend on the state. -/
theorem fieldLine_error_same {st : LineState} {sv : Bytes} {e : Int} (st' : LineState)
    (h : fieldLine st sv = .error e) : fieldLine st' sv = .error e := by
  unfold fieldLine at h ⊢
  cases hp : find [58] sv with
  | none =>
    rw [hp] at h
    exact h
  | some pos =>
    rw [hp] at h
    simp only at h ⊢
    split at h
    · rename_i hkey
      rw [if_pos hkey]
      exact h
    · split at h
      · split at h
        · cases h
        · cases h
      · cases h

/-- The states part at an unknown field. -/
theorem fieldLine_modes {st st' : LineState} (h : Modes st st') {l : Bytes} (hl : isField l = true) :
    ∃ t t', fieldLine st (trimBoth l) = .ok t ∧ fieldLine st' (trimBoth l) = .ok t' ∧ Modes t t' ∧
      if isCustom l then t.lastSetId = .max ∧ t'.lastSetId = .unkExport
      else t'.lastSetId = t.lastSetId ∧ t.lastSetId ≠ .unkExport := by
  obtain ⟨u, hu⟩ := Option.isSome_iff_exists.mp h.collected
  obtain ⟨pos, hp, hk, -, hkey⟩ := isField_colon hl
  simp only [fieldLine, hp, ← hk, hkey, Bool.false_eq_true, if_false, isCustom, hl, Bool.true_and,
    h.dropped, hu]
  cases hr : resolvePos (fieldKey l) with
  | none => exact ⟨_, _, rfl, rfl, ⟨h.hd, rfl, rfl⟩, rfl, rfl⟩
  | some p =>
    refine ⟨_, _, rfl, rfl, ⟨?_, rfl, rfl⟩, rfl, by simp⟩
    rw [h.hd]

/-- States that differ in nothing but what they collect continue alike. -/
theorem foldLine_modes {st st' : LineState} (h : Modes st st')
    (hsame : st'.lastSetId = st.lastSetId) (hlast : st.lastSetId ≠ .unkExport) (sv : Bytes) :
    (st.slot = false ∧ st'.slot = false ∧ ∃ e, foldLine st sv = .error e) ∨
      (st.slot = true ∧ st'.slot = true ∧ ∃ t t', foldLine st sv = .ok t ∧
        foldLine st' sv = .ok t' ∧ Modes t t' ∧ t.slot = true ∧ t'.lastSetId = t.lastSetId ∧
        t.lastSetId ≠ .unkExport) := by
  cases hset : st.lastSetId with
  | unkExport => exact absurd hset hlast
  | max =>
    refine .inl ⟨?_, ?_, -2, ?_⟩
    · rw [LineState.slot, hset]
    · rw [LineState.slot, hsame, hset]
    · rw [foldLine, hset]
  | pos p =>
    have hset' := hsame.trans hset
    have hslot : st.slot = (st.hd.h p).isSome := by rw [LineState.slot, hset]
    have hslot' : st'.slot = (st.hd.h p).isSome := by rw [LineState.slot, hset', ← h.hd]
    cases hold : st.hd.h p with
    | none =>
      refine .inl ⟨by rw [hslot, hold]; rfl, by rw [hslot', hold]; rfl, -3, ?_⟩
      simp only [foldLine, hset, hold]
    | some old =>
      refine .inr ⟨by rw [hslot, hold]; rfl, by rw [hslot', hold]; rfl,
        { st with hd := st.hd.set p (some (old ++ 32 :: sv)) },
        { st' with hd := st'.hd.set p (some (old ++ 32 :: sv)) }, ?_, ?_,
        ⟨by rw [h.hd], h.dropped, h.collected⟩, ?_, hsame, hlast⟩
      · simp only [foldLine, hset, hold]
      · simp only [foldLine, hset', h.hd, hold]
      · simp only [LineState.slot, hset, set_some]

theorem foldLine_collected (st : LineState) (sv : Bytes) (hlast : st.lastSetId ≠ .max) :
    foldLine st sv = .error (-3) ∨
      ∃ t, foldLine st sv = .ok t ∧ t.unk.isSome = st.unk.isSome ∧ t.lastSetId = st.lastSetId := by
  unfold foldLine
  split
  · exact .inr ⟨_, rfl, Option.isSome_map, rfl⟩
  · contradiction
  · split
    · exact .inl rfl
    · exact .inr ⟨_, rfl, rfl, rfl⟩

theorem fieldLine_collected (st : LineState) (sv : Bytes) (hunk : st.unk.isSome = true) :
    (∃ e, fieldLine st sv = .error e ∧ (e = -4 ∨ e = -5)) ∨
      ∃ t, fieldLine st sv = .ok t ∧ t.unk.isSome = true ∧ t.lastSetId ≠ .max := by
  obtain ⟨u, hu⟩ := Option.isSome_iff_exists.mp hunk
  unfold fieldLine
  cases find [58] sv with
  | none => exact .inl ⟨_, rfl, .inl rfl⟩
  | some pos =>
    simp only [hu]
    split
    · exact .inl ⟨_, rfl, .inr rfl⟩
    · right
      cases resolvePos (trimBack (sv.take pos)) with
      | none => exact ⟨_, rfl, rfl, by simp⟩
      | some p => exact ⟨_, rfl, rfl, by simp⟩

/-- Where the unknown fields are collected, there is always something to
continue behind the first field. -/
theorem loadLines_collected (st : LineState) (pos : Nat) (lines : List Bytes)
    (hunk : st.unk.isSome = true) (hlast : st.lastSetId ≠ .max) :
    (loadLines st pos lines).1 ≠ -2 := by
  have hzero : ∀ st' : LineState, ((0 : Int), st').1 ≠ -2 := fun _ => by simp
  induction lines generalizing st pos with
  | nil => exact hzero st
  | cons l rest ih =>
    rw [loadLines]
    by_cases he : l.isEmpty = true
    · rw [if_pos he]
      split
      · exact hzero st
      · simp only
        omega
    · rw [if_neg he]
      by_cases hf : isFolded l = true
      · rw [if_pos hf]
        rcases foldLine_collected st (trimBoth l) hlast with herr | ⟨t, hok, htunk, htlast⟩
        · rw [herr]
          simp
        · rw [hok]
          exact ih t _ (htunk.trans hunk) (htlast ▸ hlast)
      · rw [if_neg hf]
        rcases fieldLine_collected st (trimBoth l) hunk with ⟨e, herr, he⟩ | ⟨t, hok, htunk, htlast⟩
        · rw [herr]
          simp only
          split
          · exact hzero st
          · omega
        · rw [hok]
          exact ih t _ htunk htlast

/-- A folded line behind an unknown field is garbage for one state only. -/
theorem outcome_parted {st st' : LineState} (h : Modes st st') (hmax : st.lastSetId = .max)
    (hunk : st'.lastSetId = .unkExport) (pos : Nat) (lines : List Bytes) :
    outcome st pos lines = outcome st' pos lines ↔
      ¬ (∃ c ∈ lines.head?, isFolded c = true) ∧
        outcome st pos lines = outcome { st' with lastSetId := .max } pos lines := by
  cases lines with
  | nil => simp [outcome_nil]
  | cons c rest =>
    by_cases he : c.isEmpty = true
    · obtain rfl := List.isEmpty_iff.mp he
      simp [outcome_blank, isFolded_nil]
    · rw [Bool.not_eq_true] at he
      by_cases hf : isFolded c = true
      · refine iff_of_false ?_ (fun hno => hno.1 ⟨c, rfl, hf⟩)
        rw [outcome_garbage pos rest he hf hmax]
        intro hsame
        have hres := congrArg Prod.fst hsame
        simp only [outcome] at hres
        split at hres
        · refine loadLines_collected st' pos (c :: rest) h.collected ?_ (Option.some.inj hres).symm
          rw [hunk]
          decide
        · cases hres
      · rw [Bool.not_eq_true] at hf
        have hhead : ¬ ∃ d ∈ (c :: rest).head?, isFolded d = true := by simp [hf]
        rw [and_iff_right hhead]
        have hfield : fieldLine { st' with lastSetId := .max } (trimBoth c) =
          fieldLine st' (trimBoth c) := rfl
        cases hline : fieldLine st' (trimBoth c) with
        | error e =>
          rw [outcome_bad pos rest he hf hline, outcome_bad pos rest he hf (hfield.trans hline)]
        | ok t =>
          rw [outcome_field pos rest he hf hline, outcome_field pos rest he hf (hfield.trans hline)]

/-- States that differ in nothing but what they collect go on alike, up to an
unknown field that is continued. -/
theorem outcome_modes {st st' : LineState} (h : Modes st st') (hsame : st'.lastSetId = st.lastSetId)
    (hlast : st.lastSetId ≠ .unkExport) (pos : Nat) (lines : List Bytes) :
    outcome st pos lines = outcome st' pos lines ↔ ¬ UnknownFold st.slot lines := by
  induction lines generalizing st st' pos with
  | nil =>
    rw [outcome_nil, outcome_nil, h.hd]
    exact iff_of_true rfl (behind_nil isCustom false st.slot)
  | cons l rest ih =>
    rw [UnknownFold, behind_cons]
    by_cases he : l.isEmpty = true
    · obtain rfl := List.isEmpty_iff.mp he
      rw [outcome_blank, outcome_blank, h.hd]
      simp [isFolded_nil, isField_nil, isCustom]
    · rw [Bool.not_eq_true] at he
      by_cases hf : isFolded l = true
      · have hfield : isField l = false := by simp [isField, hf]
        simp only [hfield, hf, isCustom, Bool.false_and, Bool.false_eq_true, false_and, false_or,
          or_false, true_and]
        rcases foldLine_modes h hsame hlast (trimBoth l) with ⟨hslot, hslot', -⟩ |
          ⟨hslot, hslot', t, t', hok, hok', ht, htslot, htsame, htlast⟩
        · rw [outcome_stuck pos rest he hf hslot hlast,
            outcome_stuck pos rest he hf hslot' (hsame ▸ hlast), hsame, h.hd, hslot]
          simp
        · rw [outcome_fold pos rest he hf hslot hok, outcome_fold pos rest he hf hslot' hok',
            ih ht htsame htlast, htslot, hslot]
          simp [UnknownFold]
      · rw [Bool.not_eq_true] at hf
        by_cases hfield : isField l = true
        · obtain ⟨t, t', hok, hok', ht, hcase⟩ := fieldLine_modes h hfield
          have hslot : t.slot = keeps false l := by
            obtain ⟨t₁, hok₁, -, hs, -⟩ := fieldLine_keeps st l hfield
            obtain rfl := Except.ok.inj (hok.symm.trans hok₁)
            rw [hs, h.dropped]
            rfl
          rw [outcome_field pos rest he hf hok, outcome_field pos rest he hf hok']
          simp only [hf, hfield, Bool.false_eq_true, false_and, true_and, false_or]
          split at hcase
          · rename_i hcustom
            have hstep := @ih t { t' with lastSetId := .max } ⟨ht.hd, ht.dropped, ht.collected⟩
              hcase.1.symm (by simp [hcase.1]) (pos + l.length + 2)
            rw [outcome_parted ht hcase.1 hcase.2, hstep, hslot, not_or, and_iff_right hcustom]
            rfl
          · rename_i hcustom
            have hno : ¬ (isCustom l = true ∧ ∃ c ∈ rest.head?, isFolded c = true) :=
              fun hc => hcustom hc.1
            rw [ih ht hcase.1 hcase.2, hslot, or_iff_right hno]
            rfl
        · rw [Bool.not_eq_true] at hfield
          obtain ⟨e, -, herr⟩ := fieldLine_of_not st l hf hfield
          rw [outcome_bad pos rest he hf herr,
            outcome_bad pos rest he hf (fieldLine_error_same st' herr), h.hd]
          simp [hf, hfield, isCustom]

/-- Collecting the unknown fields changes neither the result nor the head,
unless one of them is continued where the loop gets to. -/
theorem load_modes_iff (self : Header) (input : Bytes) (collected : List (Bytes × Bytes)) :
    (returned self input none = returned self input (some collected) ∧
        (loadOn self input none).2.hd = (loadOn self input (some collected)).2.hd) ↔
      ¬ (firstTaken input ∧ UnknownFold false (headLines input).tail) := by
  by_cases hfirst : firstTaken input
  · obtain ⟨hd, pos, htaken⟩ := loadOn_taken self input hfirst
    have hmodes : Modes { hd, unk := none } { hd, unk := some collected } := ⟨rfl, rfl, rfl⟩
    have := outcome_modes hmodes rfl (by simp) pos (headLines input).tail
    rw [and_iff_right hfirst]
    refine Iff.trans ?_ this
    simp only [returned, (htaken _).1, (htaken _).2, outcome, Prod.mk.injEq]
  · obtain ⟨n, hd, -, -, hno⟩ := loadOn_not_taken self input hfirst
    refine iff_of_true ?_ (fun h => hfirst h.1)
    simp only [returned, (hno _).1, (hno _).2, and_self]

theorem continued_unknown_field :
    let input := lit "GET http://h/a HTTP/1.1\r\nX-Foo: a\r\n b\r\n\r\n"
    returned {} input none = some (-2) ∧ returned {} input (some []) = some 41 := by
  unfold lit
  rw [String.toList_ofList]
  decide +kernel

/-- The fields of a head, which an empty line ends. -/
def headFields (input : Bytes) : List Bytes := (headLines input).tail.takeWhile (fun l => !l.isEmpty)

/-- The lines that start a field, each with the folded ones behind it. -/
def withFolds : List Bytes → List (Bytes × List Bytes)
  | [] => []
  | l :: ls => if isFolded l then withFolds ls else (l, ls.takeWhile isFolded) :: withFolds ls

def isTaboo (taboo : List Bytes) (key : Bytes) : Bool := taboo.any (fun x => caseEq x key)

/-- A field neither known nor taboo. -/
def isForwarded (taboo : List Bytes) (l : Bytes) : Bool := isCustom l && !isTaboo taboo (fieldKey l)

/-- A field on one line, its folded values behind single blanks. -/
def forwardedText (field : Bytes × List Bytes) : Bytes :=
  fieldKey field.1 ++ lit ": " ++
    List.intercalate [32] (fieldValue field.1 :: field.2.map trimBoth) ++ crlf

/-- What the server is to see of the fields of a client. -/
def forwarded (taboo : List Bytes) (lines : List Bytes) : Bytes :=
  ((withFolds lines).filter (fun field => isForwarded taboo field.1)).flatMap forwardedText

/-- What the loop collects from lines that are all taken; `custom` tells whether
the field before them is an unknown one. -/
def collects (custom : Bool) : List Bytes → List (Bytes × Bytes)
  | [] => []
  | l :: ls =>
    if isFolded l then (if custom then [([], trimBoth l)] else []) ++ collects custom ls
    else (if isCustom l then [(fieldKey l, fieldValue l)] else []) ++ collects (isCustom l) ls

theorem intercalate_blank (v : Bytes) (vs : List Bytes) :
    List.intercalate [32] (v :: vs) = v ++ vs.flatMap (fun w => 32 :: w) := by
  induction vs generalizing v with
  | nil => simp
  | cons w vs ih => rw [List.intercalate_cons_cons, ih]; simp

theorem customHeaders_continued (taboo : List Bytes) (r v : Bytes) (rest : List (Bytes × Bytes)) :
    customHeaders taboo false (r ++ crlf) (([], v) :: rest) =
      customHeaders taboo false (r ++ 32 :: v ++ crlf) rest := by
  rw [customHeaders]
  simp [crlf]

theorem forwarded_folded (taboo : List Bytes) {l : Bytes} (ls : List Bytes) (hf : isFolded l = true) :
    forwarded taboo (l :: ls) = forwarded taboo ls := by
  rw [forwarded, withFolds, if_pos hf]
  rfl

theorem forwarded_dropped {taboo : List Bytes} {l : Bytes} (ls : List Bytes)
    (h : isForwarded taboo l = false) : forwarded taboo (l :: ls) = forwarded taboo ls := by
  rw [forwarded, withFolds]
  split
  · rfl
  · rw [List.filter_cons_of_neg (by rw [h]; decide)]
    rfl

theorem forwarded_cons {taboo : List Bytes} {l : Bytes} (ls : List Bytes) (hf : isFolded l = false)
    (h : isForwarded taboo l = true) :
    forwarded taboo (l :: ls) = forwardedText (l, ls.takeWhile isFolded) ++ forwarded taboo ls := by
  rw [forwarded, withFolds, if_neg (by rw [hf]; decide), List.filter_cons]
  simp only [h, if_true, List.flatMap_cons]
  rfl

/-- Where the field before is dropped so are the folded lines; where it is forwarded
they are glued to it. -/
theorem customHeaders_collects (taboo : List Bytes) (lines : List Bytes) :
    (∀ custom forbidden ret, (custom = true → forbidden = true) →
      customHeaders taboo forbidden ret (collects custom lines) = ret ++ forwarded taboo lines) ∧
    ∀ r, customHeaders taboo false (r ++ crlf) (collects true lines) =
      r ++ (lines.takeWhile isFolded).flatMap (fun l => 32 :: trimBoth l) ++ crlf ++
        forwarded taboo lines := by
  induction lines with
  | nil => simp [collects, customHeaders, forwarded, withFolds]
  | cons l ls ih =>
    by_cases hf : isFolded l = true
    · refine ⟨fun custom forbidden ret h => ?_, fun r => ?_⟩
      · rw [collects, if_pos hf, forwarded_folded taboo ls hf]
        cases custom with
        | false => exact ih.1 false forbidden ret h
        | true =>
          rw [h rfl]
          exact ih.1 true true ret (fun _ => rfl)
      · rw [collects, if_pos hf, if_pos rfl, List.singleton_append, customHeaders_continued, ih.2,
          forwarded_folded taboo ls hf, List.takeWhile_cons_of_pos hf]
        simp
    · have hfield (custom forbidden : Bool) (ret : Bytes) :
          customHeaders taboo forbidden ret (collects custom (l :: ls)) =
            ret ++ forwarded taboo (l :: ls) := by
        rw [collects, if_neg hf]
        by_cases hcustom : isCustom l = true
        · obtain ⟨-, -, -, -, hkey⟩ := isField_colon (Bool.and_eq_true_iff.mp hcustom).1
          rw [if_pos hcustom, List.singleton_append, customHeaders, hkey, hcustom]
          simp only [Bool.false_eq_true, if_false]
          cases htaboo : taboo.any (fun x => caseEq x (fieldKey l)) with
          | true =>
            rw [forwarded_dropped ls
              (by rw [isForwarded, isTaboo, htaboo, Bool.not_true, Bool.and_false])]
            exact ih.1 true true ret (fun _ => rfl)
          | false =>
            rw [Bool.not_eq_true] at hf
            rw [forwarded_cons ls hf (by rw [isForwarded, hcustom, isTaboo, htaboo]; rfl)]
            simp only [Bool.false_eq_true, if_false]
            rw [ih.2, forwardedText, intercalate_blank]
            simp [List.flatMap_map]
        · rw [Bool.not_eq_true] at hcustom
          rw [hcustom, forwarded_dropped ls (by rw [isForwarded, hcustom, Bool.false_and])]
          exact ih.1 false forbidden ret nofun
      refine ⟨fun custom forbidden ret _ => hfield custom forbidden ret, fun r => ?_⟩
      rw [hfield, List.takeWhile_cons_of_neg hf]
      simp

theorem fieldLine_gathers {st : LineState} {collected : List (Bytes × Bytes)} {l : Bytes}
    (hunk : st.unk = some collected) (hl : isField l = true) :
    ∃ t, fieldLine st (trimBoth l) = .ok t ∧
      t.unk = some (collected ++ if isCustom l then [(fieldKey l, fieldValue l)] else []) ∧
      decide (t.lastSetId = .unkExport) = isCustom l := by
  obtain ⟨pos, hp, hk, hv, hkey⟩ := isField_colon hl
  simp only [fieldLine, hp, ← hk, ← hv, hkey, Bool.false_eq_true, if_false, isCustom,
    hl, Bool.true_and, hunk]
  cases resolvePos (fieldKey l) with
  | none => exact ⟨_, rfl, rfl, rfl⟩
  | some p => exact ⟨_, rfl, by simp, by simp⟩

theorem foldLine_gathers {st : LineState} {collected : List (Bytes × Bytes)} (sv : Bytes)
    (hunk : st.unk = some collected) (hslot : st.slot = true) :
    ∃ t, foldLine st sv = .ok t ∧ t.slot = true ∧ t.lastSetId = st.lastSetId ∧
      t.unk = some (collected ++ if st.lastSetId = .unkExport then [([], sv)] else []) := by
  obtain ⟨t, hok, -, hs⟩ := foldLine_keeps st sv hslot
  refine ⟨t, hok, hs, ?_⟩
  unfold foldLine at hok
  split at hok
  · rename_i hlast
    cases hok
    exact ⟨rfl, by rw [if_pos hlast, hunk]; rfl⟩
  · cases hok
  · rename_i p hlast
    split at hok
    · cases hok
    · cases hok
      exact ⟨rfl, by rw [if_neg (by simp [hlast]), List.append_nil]; exact hunk⟩

/-- What the loop over taken lines collects. -/
theorem loadLines_gathers {st : LineState} {collected : List (Bytes × Bytes)} (pos : Nat)
    (lines rest : List Bytes) (hunk : st.unk = some collected)
    (ht : taken true st.slot lines = true) :
    (loadLines st pos (lines ++ [] :: rest)).2.unk =
      some (collected ++ collects (decide (st.lastSetId = .unkExport)) lines) := by
  induction lines generalizing st pos collected with
  | nil =>
    rw [List.nil_append, loadLines, List.isEmpty_nil, if_pos rfl, collects, List.append_nil]
    split
    · exact hunk
    · exact hunk
  | cons l lines ih =>
    rw [taken] at ht
    rw [List.cons_append, loadLines, collects]
    by_cases hf : isFolded l = true
    · have he : l.isEmpty = false := by
        cases l with
        | nil => cases hf
        | cons c l => rfl
      rw [if_pos hf, Bool.and_eq_true] at ht
      obtain ⟨t, hok, hs, hlast, htunk⟩ := foldLine_gathers (trimBoth l) hunk ht.1
      rw [he, if_neg Bool.false_ne_true, if_pos hf, if_pos hf, hok]
      simp only
      rw [ih _ htunk (by rw [hs]; exact ht.2), hlast, List.append_assoc]
      simp only [decide_eq_true_eq]
    · rw [if_neg hf, Bool.and_eq_true] at ht
      have he : l.isEmpty = false := by
        cases l with
        | nil => exact absurd ht.1 (by decide)
        | cons c l => rfl
      obtain ⟨t, hok, htunk, hlast⟩ := fieldLine_gathers hunk ht.1
      obtain ⟨t₁, hok₁, -, hs, -⟩ := fieldLine_keeps st l ht.1
      obtain rfl := Except.ok.inj (hok.symm.trans hok₁)
      rw [he, if_neg Bool.false_ne_true, if_neg hf, if_neg hf, hok]
      simp only
      rw [ih _ htunk (by rw [hs, hunk]; exact ht.2), hlast, List.append_assoc]

/-- The lines in front of the empty line of an accepted head are all taken. -/
theorem loadLines_accepted {st : LineState} {pos : Nat} {lines : List Bytes}
    (hall : (appends st lines).all (fun b => b) = true) (h : 0 < (loadLines st pos lines).1) :
    ∃ fields rest, lines = fields ++ [] :: rest ∧ taken st.unk.isSome st.slot fields = true := by
  induction lines generalizing st pos with
  | nil => exact absurd h (lt_irrefl 0)
  | cons l lines ih =>
    by_cases he : l.isEmpty = true
    · exact ⟨[], lines, by rw [List.isEmpty_iff.mp he]; rfl, rfl⟩
    · rw [appends, if_neg he] at hall
      rw [loadLines, if_neg he] at h
      by_cases hf : isFolded l = true
      · rw [if_pos hf] at hall h
        by_cases hmax : st.lastSetId = .max
        · rw [foldLine, hmax] at h
          exact absurd h (by simp)
        · rw [if_neg hmax, List.all_cons, Bool.and_eq_true] at hall
          obtain ⟨t, hok, hunk, hslot⟩ := foldLine_keeps st (trimBoth l) hall.1
          rw [hok] at hall h
          obtain ⟨fields, rest, rfl, ht⟩ := ih hall.2 h
          refine ⟨l :: fields, rest, rfl, ?_⟩
          rw [hslot, hunk] at ht
          rw [taken, if_pos hf, hall.1, ht]
          rfl
      · rw [if_neg hf] at hall h
        by_cases hfield : isField l = true
        · obtain ⟨t, hok, hunk, hslot, -⟩ := fieldLine_keeps st l hfield
          rw [hok] at hall h
          obtain ⟨fields, rest, rfl, ht⟩ := ih hall h
          refine ⟨l :: fields, rest, rfl, ?_⟩
          rw [taken, if_neg hf, hfield, ← hslot, ← hunk]
          exact ht
        · rw [Bool.not_eq_true] at hf hfield
          obtain ⟨e, -, herr⟩ := fieldLine_of_not st l hf hfield
          have := fieldLine_error st (trimBoth l) e herr
          rw [herr] at h
          simp only at h
          split at h
          · exact absurd h (lt_irrefl 0)
          · exact absurd (h.trans this) (lt_irrefl 0)

/-- Where the unknown fields are collected no fewer lines are taken. -/
theorem taken_collected {unk isOpen isOpen' : Bool} {lines : List Bytes}
    (hopen : isOpen = true → isOpen' = true) (h : taken unk isOpen lines = true) :
    taken true isOpen' lines = true := by
  induction lines generalizing isOpen isOpen' with
  | nil => rfl
  | cons l lines ih =>
    rw [taken] at h ⊢
    split at h
    · rename_i hf
      rw [Bool.and_eq_true] at h
      rw [if_pos hf, hopen h.1, ih id h.2]
      rfl
    · rename_i hf
      rw [Bool.and_eq_true] at h
      rw [if_neg hf, h.1, Bool.true_and]
      refine ih ?_ h.2
      intro hkeeps
      unfold keeps at hkeeps ⊢
      split at hkeeps
      · rename_i hknown
        rw [if_pos hknown]
        exact hkeeps
      · rename_i hknown
        rw [if_neg hknown]

theorem taken_no_blank {unk isOpen : Bool} {lines : List Bytes} (h : taken unk isOpen lines = true) :
    ∀ l ∈ lines, l.isEmpty = false := by
  induction lines generalizing isOpen with
  | nil => exact nofun
  | cons l lines ih =>
    rw [taken] at h
    intro m hm
    have hl : l.isEmpty = false := by
      cases l with
      | nil => simp [isFolded_nil, isField_nil] at h
      | cons c l => rfl
    rcases List.mem_cons.mp hm with rfl | hm
    · exact hl
    · split at h
      · exact ih (Bool.and_eq_true_iff.mp h).2 m hm
      · exact ih (Bool.and_eq_true_iff.mp h).2 m hm

/-- Of an accepted head exactly the unknown fields are forwarded that are not taboo,
in their order and with their continuations. -/
theorem extractCustomHeaders_eq (self : Header) (input : Bytes) (unk : UnkMap) (n : Int)
    (isPassThrough : Bool) (h : returned self input unk = some n) (hn : 0 < n) :
    extractCustomHeaders input isPassThrough =
      forwarded (if isPassThrough then tabooHeadersPassThrough else tabooHeadersForCaching)
        (headFields input) := by
  unfold returned at h
  split at h
  · rename_i hall
    obtain rfl := Option.some.inj h
    by_cases hfirst : firstTaken input
    · obtain ⟨hd, pos, htaken⟩ := loadOn_taken self input hfirst
      rw [(htaken unk).2] at hall
      rw [(htaken unk).1] at hn
      obtain ⟨fields, rest, hlines, ht⟩ := loadLines_accepted hall hn
      have hfields : headFields input = fields := by
        have hblank : ∀ l ∈ fields, (!l.isEmpty) = true := by
          intro l hl
          rw [taken_no_blank ht l hl]
          rfl
        rw [headFields, hlines, List.takeWhile_append_of_pos hblank]
        simp
      obtain ⟨hd', pos', hload⟩ := loadOn_taken {} input hfirst
      have hunk : (load input (some [])).2.unk = some (collects false fields) := by
        have htaken' : taken true false fields = true :=
          @taken_collected unk.isSome false false fields id ht
        rw [load_eq, (hload (some [])).1, hlines]
        exact @loadLines_gathers { hd := hd', unk := some [] } [] pos' fields rest rfl htaken'
      have hne : input.isEmpty = false := by
        rw [← Bool.not_eq_true, List.isEmpty_iff]
        rintro rfl
        exact absurd (firstTaken_length hfirst) (by decide)
      rw [extractCustomHeaders, hne, hunk, hfields]
      exact (customHeaders_collects _ fields).1 false false [] nofun
    · obtain ⟨m, hd, hneg, -, hno⟩ := loadOn_not_taken self input hfirst
      rw [(hno unk).1] at hn
      exact absurd hn (not_lt.mpr hneg)
  · cases h

theorem folded_taboo_dropped :
    let input := lit "GET http://h/a HTTP/1.1\r\nX-Foo: a\r\n b\r\nhost: h\r\n i\r\n\r\nX-No: c\r\n"
    extractCustomHeaders input false = forwarded tabooHeadersForCaching (headFields input) ∧
      forwarded tabooHeadersForCaching (headFields input) = lit "X-Foo: a b\r\n" := by
  unfold lit
  rw [String.toList_ofList, String.toList_ofList]
  exact ⟨extractCustomHeaders_eq {} _ (some []) 54 false (by decide +kernel) (by decide), by decide +kernel⟩

end Acng.Header
