import Acng.HeadLoad
import Acng.Proofs.Load
import Acng.Lib.Lines

namespace Acng.Header
open Lib

/-- The lines of a head, the first one without the prefix that tells its type. -/
def headLines (input : Bytes) : List Bytes :=
  match frontType input with
  | none => []
  | some (_, _, n) => slices crlf 0 (input.drop n)

def statusToken (it : Bytes) : Bytes := (it.dropWhile isspace).takeWhile (fun c => !isspace c)

def statusReason (it : Bytes) : Bytes :=
  trimBoth ((it.dropWhile isspace).dropWhile (fun c => !isspace c))

/-- A status line has a positive number and a reason behind it, a request line
room for a URL and the protocol. -/
def firstTaken (input : Bytes) : Prop :=
  ∃ it ∈ (headLines input).head?,
    if (lit "HTTP/1.").isPrefixOf input then
      0 < toInt32 (RemoteStatus.svtol (statusToken it)) ∧ statusReason it ≠ []
    else 10 ≤ (trimBoth it).length

/-- A line with a name before its colon. -/
def isField (l : Bytes) : Bool :=
  !isFolded l && (find [58] (trimBoth l)).any (fun pos => !(trimBack ((trimBoth l).take pos)).isEmpty)

def fieldKey (l : Bytes) : Bytes := trimBack ((trimBoth l).take ((find [58] (trimBoth l)).getD 0))

def fieldValue (l : Bytes) : Bytes :=
  trimFront ((trimBoth l).drop ((find [58] (trimBoth l)).getD 0 + 1))

/-- A known field without a value. -/
def clears (l : Bytes) : Bool := isField l && (resolvePos (fieldKey l)).isSome && (fieldValue l).isEmpty

/-- A field that a folded line can continue: a known one with a value, or an
unknown one where these are collected. -/
def keeps (unk : Bool) (l : Bytes) : Bool :=
  if (resolvePos (fieldKey l)).isSome then !(fieldValue l).isEmpty else unk

/-- Lines that are all fields and continuations of fields; `open` tells
whether the line before them is one that can be continued. -/
def taken (unk : Bool) (isOpen : Bool) : List Bytes → Bool
  | [] => true
  | l :: ls =>
    if isFolded l then isOpen && taken unk true ls else isField l && taken unk (keeps unk l) ls

/-- A folded line directly behind a known field without a value. -/
def Stray (unk : Bool) (isOpen : Bool) (lines : List Bytes) : Prop :=
  ∃ ls f c post, lines = ls ++ f :: c :: post ∧ taken unk isOpen ls = true ∧ clears f = true ∧
    isFolded c = true

/-- A slot is remembered but there is nothing in it. -/
def LineState.absent (st : LineState) : Prop := st.lastSetId ≠ .max ∧ st.slot = false

theorem set_some (hd : Header) (p : HeadPos) (v : Bytes) : ((hd.set p (some v)).h p).isSome = true := by
  simp [Header.set]

theorem del_none (hd : Header) (p : HeadPos) : ((hd.del p).h p).isSome = false := by
  simp [Header.del, Header.set]

/-- A field has a colon, with a name before it. -/
theorem isField_colon {l : Bytes} (h : isField l = true) :
    ∃ pos, find [58] (trimBoth l) = some pos ∧ fieldKey l = trimBack ((trimBoth l).take pos) ∧
      fieldValue l = trimFront ((trimBoth l).drop (pos + 1)) ∧ (fieldKey l).isEmpty = false := by
  unfold isField at h
  unfold fieldKey fieldValue
  cases hp : find [58] (trimBoth l) with
  | none => simp [hp] at h
  | some pos =>
    simp only [hp, Option.any_some, Bool.and_eq_true, Bool.not_eq_true'] at h
    exact ⟨pos, rfl, rfl, rfl, h.2⟩

/-- What a field leaves to continue depends on nothing that was loaded before. -/
theorem fieldLine_keeps (st : LineState) (l : Bytes) (h : isField l = true) :
    ∃ st', fieldLine st (trimBoth l) = .ok st' ∧ st'.unk.isSome = st.unk.isSome ∧
      st'.slot = keeps st.unk.isSome l ∧ (st'.absent ↔ clears l = true) := by
  obtain ⟨pos, hp, hk, hv, hkey⟩ := isField_colon h
  simp only [fieldLine, hp, ← hk, ← hv, hkey, Bool.false_eq_true, if_false, keeps, clears, h,
    Bool.true_and]
  cases hr : resolvePos (fieldKey l) with
  | none =>
    cases hu : st.unk with
    | none =>
      refine ⟨_, rfl, rfl, rfl, ?_⟩
      simp [LineState.absent]
    | some u =>
      refine ⟨_, rfl, rfl, rfl, ?_⟩
      simp [LineState.absent, LineState.slot]
  | some p =>
    cases he : (fieldValue l).isEmpty with
    | true =>
      refine ⟨_, rfl, rfl, del_none _ _, ?_⟩
      simp [LineState.absent, LineState.slot, del_none]
    | false =>
      refine ⟨_, rfl, rfl, set_some _ _ _, ?_⟩
      simp [LineState.absent, LineState.slot, set_some]

theorem foldLine_keeps (st : LineState) (sv : Bytes) (h : st.slot = true) :
    ∃ st', foldLine st sv = .ok st' ∧ st'.unk.isSome = st.unk.isSome ∧ st'.slot = true := by
  unfold LineState.slot at h
  cases hl : st.lastSetId with
  | max => rw [hl] at h; cases h
  | unkExport =>
    rw [hl] at h
    refine ⟨{ st with unk := st.unk.map (· ++ [([], sv)]) }, ?_, Option.isSome_map, ?_⟩
    · rw [foldLine, hl]
    · simpa only [LineState.slot, hl, Option.isSome_map] using h
  | pos p =>
    rw [hl] at h
    obtain ⟨old, ho⟩ := Option.isSome_iff_exists.mp h
    refine ⟨{ st with hd := st.hd.set p (some (old ++ 32 :: sv)) }, ?_, rfl, ?_⟩
    · simp only [foldLine, hl, ho]
    · simp only [LineState.slot, hl, set_some]

theorem fieldLine_of_not (st : LineState) (l : Bytes) (hf : isFolded l = false)
    (h : isField l = false) : ∃ e : Int, e ≠ 0 ∧ fieldLine st (trimBoth l) = .error e := by
  unfold isField at h
  unfold fieldLine
  cases hp : find [58] (trimBoth l) with
  | none => exact ⟨-4, by decide, rfl⟩
  | some pos =>
    simp only [hf, hp, Option.any_some, Bool.not_false, Bool.true_and, Bool.not_eq_false'] at h
    refine ⟨-5, by decide, ?_⟩
    simp only [h, if_true]

theorem isFolded_nil : isFolded [] = false := rfl

theorem isField_nil : isField [] = false := rfl

theorem not_folded_of_isField {l : Bytes} (h : isField l = true) : isFolded l = false := by
  simp only [isField, Bool.and_eq_true, Bool.not_eq_true'] at h
  exact h.1

/-- A folded line directly behind a field of some kind, with lines before it
that are all taken. -/
def Behind (p : Bytes → Bool) (unk isOpen : Bool) (lines : List Bytes) : Prop :=
  ∃ ls f c post, lines = ls ++ f :: c :: post ∧ taken unk isOpen ls = true ∧ p f = true ∧
    isFolded c = true

/-- A line in front of such a place is the field itself or taken before it. -/
theorem behind_cons {p : Bytes → Bool} {unk isOpen : Bool} {l : Bytes} {rest : List Bytes} :
    Behind p unk isOpen (l :: rest) ↔
      (p l = true ∧ ∃ c ∈ rest.head?, isFolded c = true) ∨
      (isFolded l = true ∧ isOpen = true ∧ Behind p unk true rest) ∨
      (isField l = true ∧ Behind p unk (keeps unk l) rest) := by
  constructor
  · rintro ⟨ls, f, c, post, hl, ht, hf, hc⟩
    cases ls with
    | nil =>
      obtain ⟨rfl, rfl⟩ := List.cons.inj hl
      exact .inl ⟨hf, c, rfl, hc⟩
    | cons m ls =>
      obtain ⟨rfl, rfl⟩ := List.cons.inj hl
      rw [taken] at ht
      split at ht
      · rename_i hm
        rw [Bool.and_eq_true] at ht
        exact .inr (.inl ⟨hm, ht.1, ls, f, c, post, rfl, ht.2, hf, hc⟩)
      · rw [Bool.and_eq_true] at ht
        exact .inr (.inr ⟨ht.1, ls, f, c, post, rfl, ht.2, hf, hc⟩)
  · rintro (⟨hl, c, hc, hfold⟩ | ⟨hl, ho, ls, f, c, post, rfl, ht, hf, hc⟩ |
      ⟨hl, ls, f, c, post, rfl, ht, hf, hc⟩)
    · obtain ⟨post, rfl⟩ : ∃ post, rest = c :: post := by
        cases rest with
        | nil => cases hc
        | cons d post =>
          obtain rfl : d = c := Option.some.inj hc
          exact ⟨post, rfl⟩
      exact ⟨[], l, c, post, rfl, rfl, hl, hfold⟩
    · exact ⟨l :: ls, f, c, post, rfl, by rw [taken, if_pos hl, ho, ht]; rfl, hf, hc⟩
    · refine ⟨l :: ls, f, c, post, rfl, ?_, hf, hc⟩
      rw [taken, if_neg (by rw [not_folded_of_isField hl]; decide), hl, ht]
      rfl

theorem behind_nil (p : Bytes → Bool) (unk isOpen : Bool) : ¬ Behind p unk isOpen [] := by
  rintro ⟨ls, f, c, post, hl, -⟩
  exact absurd hl.symm (List.append_ne_nil_of_right_ne_nil _ (List.cons_ne_nil _ _))

theorem stray_cons {unk isOpen : Bool} {l : Bytes} {rest : List Bytes} :
    Stray unk isOpen (l :: rest) ↔
      (clears l = true ∧ ∃ c ∈ rest.head?, isFolded c = true) ∨
      (isFolded l = true ∧ isOpen = true ∧ Stray unk true rest) ∨
      (isField l = true ∧ Stray unk (keeps unk l) rest) :=
  behind_cons

theorem stray_nil (unk isOpen : Bool) : ¬ Stray unk isOpen [] := behind_nil clears unk isOpen

/-- A loop that remembers an emptied slot goes wrong at once or not for it. -/
theorem appends_absent (st : LineState) (h : st.absent) (lines : List Bytes) :
    false ∈ appends st lines ↔
      (∃ c ∈ lines.head?, isFolded c = true) ∨ false ∈ appends { st with lastSetId := .max } lines := by
  cases lines with
  | nil => simp [appends]
  | cons c rest =>
    simp only [appends]
    by_cases he : c.isEmpty = true
    · rw [List.isEmpty_iff.mp he]
      simp [isFolded_nil]
    · by_cases hf : isFolded c = true
      · simp [he, hf, h.1, h.2]
      · have hsame : ∀ sv, fieldLine { st with lastSetId := .max } sv = fieldLine st sv := fun _ => rfl
        simp [he, hf, hsame]

theorem appends_iff (st : LineState) (h : ¬ st.absent) (lines : List Bytes) :
    false ∈ appends st lines ↔ Stray st.unk.isSome st.slot lines := by
  induction lines generalizing st with
  | nil => simp [appends, stray_nil]
  | cons l rest ih =>
    rw [stray_cons, appends]
    by_cases he : l.isEmpty = true
    · obtain rfl := List.isEmpty_iff.mp he
      simp [isFolded_nil, isField_nil, clears]
    · rw [if_neg he]
      by_cases hf : isFolded l = true
      · have hfield : isField l = false := by simp [isField, hf]
        rw [if_pos hf]
        by_cases hmax : st.lastSetId = .max
        · have hslot : st.slot = false := by rw [LineState.slot, hmax]
          simp [hmax, clears, hfield, hslot]
        · have hslot : st.slot = true := by
            rw [← Bool.not_eq_false]
            exact fun hs => h ⟨hmax, hs⟩
          obtain ⟨st', hok, hunk, hs'⟩ := foldLine_keeps st (trimBoth l) hslot
          rw [if_neg hmax, hok, hslot]
          have := ih st' (fun ha => by simp [ha.2] at hs')
          rw [hunk, hs'] at this
          simp [this, hf, hfield, clears]
      · rw [if_neg hf]
        rw [Bool.not_eq_true] at hf
        by_cases hfield : isField l = true
        · obtain ⟨st', hok, hunk, hs', ha⟩ := fieldLine_keeps st l hfield
          rw [hok]
          by_cases hc : clears l = true
          · have hst := ha.mpr hc
            have hkeeps : keeps st.unk.isSome l = false := hs'.symm.trans hst.2
            have hrest : false ∈ appends { st' with lastSetId := .max } rest ↔
                Stray st.unk.isSome false rest := by
              rw [← hunk]
              exact ih { st' with lastSetId := .max } (fun ha => ha.1 rfl)
            rw [appends_absent st' hst, hrest]
            simp [hc, hf, hfield, hkeeps]
          · have := ih st' (fun hst => hc (ha.mp hst))
            rw [hunk, hs'] at this
            simp [this, hc, hf, hfield]
        · rw [Bool.not_eq_true] at hfield
          obtain ⟨e, -, he⟩ := fieldLine_of_not st l hf hfield
          rw [he]
          simp [hf, hfield, clears]

/-- Behind an empty line that more text follows, the loop has decided. -/
theorem loadLines_decided (st : LineState) (pos : Nat) (done rest : List Bytes) (h : rest ≠ []) :
    (loadLines st pos (done ++ [] :: rest)).1 ≠ 0 := by
  induction done generalizing st pos with
  | nil =>
    have hr : rest.isEmpty = false := by simpa using h
    simp only [List.nil_append, loadLines, List.isEmpty_nil, if_true, hr, Bool.false_eq_true, if_false]
    omega
  | cons l done ih =>
    have hr : (done ++ [] :: rest).isEmpty = false := by simp
    simp only [List.cons_append, loadLines, hr, Bool.false_eq_true, if_false]
    by_cases he : l.isEmpty = true
    · rw [if_pos he]
      simp only
      omega
    · rw [if_neg he]
      by_cases hf : isFolded l = true
      · rw [if_pos hf]
        cases hfold : foldLine st (trimBoth l) with
        | error e => exact (foldLine_error st _ e hfold).ne
        | ok st' => exact ih st' _
      · rw [if_neg hf]
        cases hfield : fieldLine st (trimBoth l) with
        | error e => exact (fieldLine_error st _ e hfield).ne
        | ok st' => exact ih st' _

theorem parse_code (it : Bytes) :
    0 ≤ (RemoteStatus.parse it (-1)).code ↔
      0 < toInt32 (RemoteStatus.svtol (statusToken it)) ∧ statusReason it ≠ [] := by
  have hnil : toInt32 (RemoteStatus.svtol []) = 0 := rfl
  unfold RemoteStatus.parse
  change 0 ≤ (if (statusToken it).isEmpty || toInt32 (RemoteStatus.svtol (statusToken it)) == 0 ||
    (statusReason it).isEmpty then _ else _ : RemoteStatus).code ↔ _
  split
  · rename_i hbad
    simp only [Bool.or_eq_true, List.isEmpty_iff, beq_iff_eq, or_assoc] at hbad
    refine iff_of_false (by decide) ?_
    rintro ⟨hpos, hreason⟩
    rcases hbad with hb | hb | hb
    · rw [hb, hnil] at hpos
      exact absurd hpos (by decide)
    · rw [hb] at hpos
      exact absurd hpos (by decide)
    · exact hreason hb
  · rename_i hgood
    simp only [Bool.or_eq_true, List.isEmpty_iff, beq_iff_eq, not_or] at hgood
    change 0 ≤ toInt32 (RemoteStatus.svtol (statusToken it)) ↔ _
    constructor
    · exact fun h => ⟨lt_of_le_of_ne h (Ne.symm hgood.1.2), hgood.2⟩
    · exact fun h => h.1.le

/-- A trimmed text starts with something that is not white space. -/
theorem trimBack_take_trimBoth (it : Bytes) (n : Nat) (h : n < (trimBoth it).length) :
    (trimBack ((trimBoth it).take (n + 1))).isEmpty = false := by
  rw [← Bool.not_eq_true, List.isEmpty_iff]
  intro hall
  obtain ⟨c, t, ht⟩ : ∃ c t, trimBoth it = c :: t :=
    List.exists_cons_of_ne_nil (fun he => by rw [he] at h; exact absurd h (Nat.not_lt_zero n))
  have hc : ¬ isspace c = true := by
    have := List.head?_dropWhile_not isspace (trimBack it)
    rw [show (trimBack it).dropWhile isspace = c :: t from ht] at this
    simpa using this
  rw [ht, List.take_succ_cons] at hall
  exact hc (List.rdropWhile_eq_nil_iff.mp hall c List.mem_cons_self)

theorem firstLine_isSome (hd : Header) (it : Bytes) :
    (firstLine hd it).isSome = true ↔
      if hd.type = .answer then
        0 < toInt32 (RemoteStatus.svtol (statusToken it)) ∧ statusReason it ≠ []
      else 10 ≤ (trimBoth it).length := by
  unfold firstLine
  split
  · rw [← parse_code]
    simp only
    split
    · rename_i hneg
      exact iff_of_false (by decide) (not_le.mpr hneg)
    · rename_i hpos
      exact iff_of_true rfl (not_lt.mp hpos)
  · simp only
    split
    · rename_i hshort
      exact iff_of_false (by decide) (not_le.mpr hshort)
    · rename_i hlong
      obtain ⟨n, hn⟩ : ∃ n, (trimBoth it).length - 9 = n + 1 := ⟨(trimBoth it).length - 10, by omega⟩
      rw [hn, trimBack_take_trimBoth it n (by omega)]
      exact iff_of_true rfl (not_lt.mp hlong)

theorem firstTaken_iff {input l : Bytes} {rest : List Bytes} {type : HeadType} {proto : Option UInt8}
    {n : Nat} (hfront : frontType input = some (type, proto, n))
    (hs : slices crlf 0 (input.drop n) = l :: rest) (hd : Header) (ht : hd.type = type) :
    firstTaken input ↔ (firstLine hd l).isSome = true := by
  have hhead : (headLines input).head? = some l := by
    rw [headLines, hfront]
    simp only [hs, List.head?_cons]
  have hiff : firstTaken input ↔
      if (lit "HTTP/1.").isPrefixOf input then
        0 < toInt32 (RemoteStatus.svtol (statusToken l)) ∧ statusReason l ≠ []
      else 10 ≤ (trimBoth l).length := by
    rw [firstTaken, hhead]
    exact ⟨fun ⟨_, hit, hf⟩ => by rwa [← Option.mem_some_iff.mp hit] at hf, fun hf => ⟨l, rfl, hf⟩⟩
  rw [hiff, firstLine_isSome, ht]
  obtain ⟨pre, t, rfl, -, -, ⟨rfl, rfl, -⟩ | ⟨ha, hno, -⟩⟩ := frontType_split input type proto n hfront
  · exact Iff.rfl
  · rw [hno, if_neg ha, if_neg (by decide)]

theorem trimBoth_length_le (l : Bytes) : (trimBoth l).length ≤ l.length :=
  (List.dropWhile_sublist _).length_le.trans (List.rdropWhile_prefix _ _).length_le

theorem firstTaken_length {input : Bytes} (h : firstTaken input) : 9 ≤ input.length := by
  obtain ⟨l, hl, hfirst⟩ := h
  cases hfront : frontType input with
  | none => rw [headLines, hfront] at hl; cases hl
  | some tpn =>
    obtain ⟨type, proto, n⟩ := tpn
    rw [headLines, hfront] at hl
    obtain ⟨m, rest, hs⟩ := List.exists_cons_of_ne_nil (slices_ne_nil crlf 0 (input.drop n))
    simp only [hs, List.head?_cons, Option.mem_some_iff] at hl
    subst hl
    have hle : m.length ≤ (input.drop n).length := (slices_front _ _ _ hs).length_le
    rw [List.length_drop] at hle
    obtain ⟨pre, t, rfl, -, hpre, ⟨-, rfl, rfl⟩ | ⟨-, hno, rfl⟩⟩ :=
      frontType_split input type proto n hfront
    · have hm : m ≠ [] := by
        rintro rfl
        exact hfirst.2 rfl
      have := List.length_pos_iff.mpr hm
      change m.length ≤ _ - 8 at hle
      omega
    · rw [hno, if_neg (by decide)] at hfirst
      have := trimBoth_length_le m
      omega

/-- A first line that is taken leads into the loop over the others. -/
theorem loadOn_taken (self : Header) (input : Bytes) (h : firstTaken input) :
    ∃ hd pos, ∀ unk, loadOn self input unk = loadLines { hd, unk } pos (headLines input).tail ∧
      appendsOn self input unk = appends { hd, unk } (headLines input).tail := by
  have hlong : ¬ input.length < 9 := not_lt.mpr (firstTaken_length h)
  cases hfront : frontType input with
  | none =>
    obtain ⟨l, hl, -⟩ := h
    rw [headLines, hfront] at hl
    cases hl
  | some tpn =>
    obtain ⟨type, proto, n⟩ := tpn
    obtain ⟨l, rest, hs⟩ := List.exists_cons_of_ne_nil (slices_ne_nil crlf 0 (input.drop n))
    obtain ⟨hd, hhd⟩ := Option.isSome_iff_exists.mp ((firstTaken_iff hfront hs
      { self with type, proto := proto.getD self.proto } rfl).mp h)
    refine ⟨hd, n + l.length + 2, fun unk => ⟨?_, ?_⟩⟩
    · simp only [loadOn, headLines, if_neg hlong, hfront, hs, hhd, List.tail_cons]
    · simp only [appendsOn, headLines, if_neg hlong, hfront, hs, hhd, List.tail_cons]

/-- Nothing else is looked at when the first line is not taken. -/
theorem loadOn_not_taken (self : Header) (input : Bytes) (h : ¬ firstTaken input) :
    ∃ n hd, n ≤ 0 ∧ ((frontType input).isSome = true → n = 0) ∧
      ∀ unk, loadOn self input unk = (n, { hd, unk }) ∧ appendsOn self input unk = [] := by
  unfold appendsOn loadOn
  simp only
  split
  · exact ⟨0, self, le_rfl, fun _ => rfl, fun _ => ⟨rfl, rfl⟩⟩
  · cases hfront : frontType input with
    | none => exact ⟨-1, _, by decide, nofun, fun _ => ⟨rfl, rfl⟩⟩
    | some tpn =>
      obtain ⟨type, proto, n⟩ := tpn
      obtain ⟨l, rest, hs⟩ := List.exists_cons_of_ne_nil (slices_ne_nil crlf 0 (input.drop n))
      have hnone : firstLine { self with type, proto := proto.getD self.proto } l = none := by
        rw [← Option.not_isSome_iff_eq_none]
        exact fun hfirst => h ((firstTaken_iff hfront hs _ rfl).mpr hfirst)
      simp only [hs, hnone]
      exact ⟨0, _, le_rfl, fun _ => rfl, fun _ => ⟨rfl, trivial⟩⟩

theorem appendsOn_iff (self : Header) (input : Bytes) (unk : UnkMap) :
    false ∈ appendsOn self input unk ↔
      firstTaken input ∧ Stray unk.isSome false (headLines input).tail := by
  by_cases hfirst : firstTaken input
  · obtain ⟨hd, pos, htaken⟩ := loadOn_taken self input hfirst
    rw [(htaken unk).2, appends_iff { hd, unk } (fun ha => ha.1 rfl), and_iff_right hfirst]
    rfl
  · obtain ⟨n, hd, -, -, hno⟩ := loadOn_not_taken self input hfirst
    rw [(hno unk).2]
    exact iff_of_false List.not_mem_nil (fun h => hfirst h.1)

theorem forall_slot_iff (bs : List Bool) : (∀ b ∈ bs, b = true) ↔ false ∉ bs := by
  constructor
  · exact fun hall hf => absurd (hall false hf) (by decide)
  · intro hn b hb
    cases b with
    | true => rfl
    | false => exact absurd hb hn

/-- No folded line is appended to an absent value, unless it stands directly
behind a known field without a value that the loop gets to. -/
theorem folded_slot_iff (self : Header) (input : Bytes) (unk : UnkMap) :
    (∀ b ∈ appendsOn self input unk, b = true) ↔
      ¬ (firstTaken input ∧ Stray unk.isSome false (headLines input).tail) := by
  rw [forall_slot_iff, appendsOn_iff]

theorem empty_field_continued :
    appendsOn {} (lit "HTTP/1.1 200 OK\r\nConnection:\r\n x\r\n\r\n") = [false] := by decide

/-- The lines of a text with an empty line. -/
theorem slices_blank (u v : Bytes) :
    slices crlf 0 (u ++ (crlf ++ crlf) ++ v) = slices crlf 0 u ++ [] :: slices crlf 0 v := by
  have hv : slices crlf 0 (crlf ++ v) = [] :: slices crlf 0 v := slices_crlf v
  rw [← List.append_assoc u crlf crlf, List.append_assoc, slices_append_crlf, hv]

/-- The empty line of a head is one of its lines, if the prefix does not take
half of it away. -/
theorem headLines_blank (input : Bytes) (hfront : (frontType input).isSome = true)
    (hblank : crlf ++ crlf <:+: input) :
    ((lit "HTTP/1.").isPrefixOf input = true ∧ (headLines input).head? = some [10]) ∨
      ∃ it done rest, headLines input = it :: (done ++ [] :: rest) ∧ rest ≠ [] := by
  obtain ⟨⟨type, proto, n⟩, hfront⟩ := Option.isSome_iff_exists.mp hfront
  obtain ⟨pre, t, rfl, h13, -, hcase⟩ := frontType_split input type proto n hfront
  obtain ⟨u, v, huv⟩ := hblank
  have hpre : pre <+: u := by
    have hfront : pre <+: pre ++ t := List.prefix_append _ _
    refine List.prefix_of_prefix_length_le hfront ?_ ?_
    · rw [← huv, List.append_assoc]
      exact List.prefix_append _ _
    · by_contra hlt
      refine h13 ?_
      have := congrArg (fun l => l[u.length]?) huv
      simp [List.getElem?_append, not_le.mp hlt, crlf] at this
      exact List.mem_of_getElem this.symm
  obtain ⟨w, rfl⟩ := hpre
  rw [List.append_assoc, List.append_assoc, List.append_cancel_left_eq] at huv
  have hlines : ∀ w' : Bytes, (pre ++ t).drop n = w' ++ (crlf ++ crlf) ++ v →
      ∃ it done rest, headLines (pre ++ t) = it :: (done ++ [] :: rest) ∧ rest ≠ [] := by
    intro w' hw
    obtain ⟨it, done, hu⟩ := List.exists_cons_of_ne_nil (slices_ne_nil crlf 0 w')
    refine ⟨it, done, slices crlf 0 v, ?_, slices_ne_nil _ _ _⟩
    simp only [headLines, hfront, hw, slices_blank, hu, List.cons_append]
  rcases hcase with ⟨-, rfl, rfl⟩ | ⟨-, -, rfl⟩
  · cases w with
    | nil =>
      left
      subst huv
      refine ⟨rfl, ?_⟩
      have hd : (lit "HTTP/1." ++ ([] ++ ((crlf ++ crlf) ++ v))).drop ((lit "HTTP/1.").length + 1) =
          [10] ++ crlf ++ v := rfl
      simp only [headLines, hfront, hd, slices_append_crlf]
      rfl
    | cons c w =>
      right
      subst huv
      refine hlines w ?_
      rw [List.append_assoc w]
      rfl
  · right
    refine hlines w ?_
    rw [List.drop_left, ← huv, List.append_assoc w]

/-- A finished head is decided if and only if its first line is taken and no
folded line is appended to an absent value. -/
theorem complete_head_iff (self : Header) (input : Bytes) (unk : UnkMap)
    (hfront : (frontType input).isSome = true) (hblank : crlf ++ crlf <:+: input) :
    (∃ n, returned self input unk = some n ∧ n ≠ 0) ↔
      firstTaken input ∧ ¬ Stray unk.isSome false (headLines input).tail := by
  have hslots := (forall_slot_iff _).trans (not_congr (appendsOn_iff self input unk))
  by_cases hfirst : firstTaken input
  · obtain ⟨it, done, rest, hlines, hrest⟩ :
        ∃ it done rest, headLines input = it :: (done ++ [] :: rest) ∧ rest ≠ [] := by
      rcases headLines_blank input hfront hblank with ⟨hans, hhead⟩ | hlines
      · obtain ⟨it, hit, hf⟩ := hfirst
        rw [hhead, Option.mem_some_iff] at hit
        subst hit
        rw [if_pos hans] at hf
        exact absurd rfl hf.2
      · exact hlines
    obtain ⟨hd, pos, htaken⟩ := loadOn_taken self input hfirst
    have hne : (loadOn self input unk).1 ≠ 0 := by
      rw [(htaken unk).1, hlines, List.tail_cons]
      exact loadLines_decided { hd, unk } pos done rest hrest
    rw [and_iff_right hfirst] at hslots ⊢
    rw [← hslots, ← List.all_eq_true, returned]
    split
    · rename_i hall
      exact iff_of_true ⟨_, rfl, hne⟩ hall
    · rename_i hall
      exact iff_of_false (fun ⟨_, h, _⟩ => by cases h) hall
  · refine iff_of_false ?_ (fun h => hfirst h.1)
    obtain ⟨m, hd, -, hzero, hno⟩ := loadOn_not_taken self input hfirst
    obtain ⟨hload, happ⟩ := hno unk
    rintro ⟨n, hn, hne⟩
    rw [returned, happ, hload] at hn
    simp only [List.all_nil, if_true, Option.some.injEq] at hn
    exact hne (hn ▸ hzero hfront)

theorem request_decided :
    let input := lit "GET http://h/a HTTP/1.1\r\nRange:\r\n\r\n"
    (frontType input).isSome = true ∧ crlf ++ crlf <:+: input ∧
      ((∃ n, returned {} input none = some n ∧ n ≠ 0) ↔
        firstTaken input ∧ ¬ Stray false false (headLines input).tail) :=
  have hblank : crlf ++ crlf <:+: lit "GET http://h/a HTTP/1.1\r\nRange:\r\n\r\n" :=
    ⟨lit "GET http://h/a HTTP/1.1\r\nRange:", [], by decide⟩
  ⟨by decide, hblank, complete_head_iff {} _ none (by decide) hblank⟩

theorem missing_reason_undecided :
    let input := lit "HTTP/1.1 200\r\n\r\n"
    (frontType input).isSome = true ∧ crlf ++ crlf <:+: input ∧ returned {} input = some 0 :=
  ⟨by decide, ⟨lit "HTTP/1.1 200", [], by decide⟩, by decide⟩

end Acng.Header
