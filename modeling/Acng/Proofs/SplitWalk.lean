import Acng.FileReader
import Acng.Lib.Find
import Acng.Lib.Separators
import Acng.Proofs.Trim
import Acng.SplitWalk
import Mathlib.Data.List.Infix

namespace Acng
open Lib

namespace SplitWalk

variable {mode : SplitMode} {m_seps : Bytes}

/-- The whole string, or one of the characters. -/
def IsSeparator (mode : SplitMode) (m_seps d : Bytes) : Prop :=
  if mode.stringSeparator then d = m_seps else ∃ c ∈ m_seps, d = [c]

def NoSeparator (mode : SplitMode) (m_seps slice : Bytes) : Prop :=
  ∀ d, IsSeparator mode m_seps d → ¬ d <:+: slice

/-- A string that separates is not empty. -/
def Separates (mode : SplitMode) (m_seps : Bytes) : Prop := mode.stringSeparator = true → m_seps ≠ []

def sepLen (mode : SplitMode) (m_seps : Bytes) : Nat := if mode.stringSeparator then m_seps.length else 1

theorem isSeparator_length {d : Bytes} (h : IsSeparator mode m_seps d) : d.length = sepLen mode m_seps := by
  unfold IsSeparator at h
  unfold sepLen
  split at h
  · rw [if_pos ‹_›, h]
  · obtain ⟨c, -, rfl⟩ := h
    rw [if_neg ‹_›]
    rfl

theorem sepLen_pos (hsep : Separates mode m_seps) : 0 < sepLen mode m_seps := by
  unfold sepLen
  split
  · exact List.length_pos_iff.mpr (hsep ‹_›)
  · exact Nat.one_pos

theorem noSeparator_chars (hchars : mode.stringSeparator = false) {slice : Bytes} :
    NoSeparator mode m_seps slice ↔ ∀ c ∈ slice, m_seps.contains c = false := by
  simp only [NoSeparator, IsSeparator, hchars, Bool.false_eq_true, if_false, forall_exists_index, and_imp]
  constructor
  · intro h c hc
    rw [← Bool.not_eq_true, List.contains_iff_mem]
    exact fun hmem => h [c] c hmem rfl ((List.singleton_infix_iff c slice).mpr hc)
  · rintro h d c hc rfl hinfix
    have := h c ((List.singleton_infix_iff c slice).mp hinfix)
    rw [← Bool.not_eq_true, List.contains_iff_mem] at this
    exact this hc

/-- What the search leaves in front has no separator, and one follows unless this is the end. -/
structure Cut (mode : SplitMode) (m_seps s : Bytes) (len : Nat) : Prop where
  le : len ≤ s.length
  clean : NoSeparator mode m_seps (s.take len)
  follows : s.drop len = [] ∨ ∃ d, IsSeparator mode m_seps d ∧ d <+: s.drop len

theorem findSep_cut (hsep : Separates mode m_seps) (s : Bytes) :
    Cut mode m_seps s ((findSep mode m_seps s).getD s.length) := by
  unfold findSep
  by_cases hstring : mode.stringSeparator = true
  · have hne := hsep hstring
    rw [if_pos hstring]
    cases hfind : find m_seps s with
    | none =>
      refine ⟨le_rfl, fun d hd => ?_, .inl (List.drop_length)⟩
      rw [IsSeparator, if_pos hstring] at hd
      rw [hd, Option.getD_none, List.take_length]
      exact find_none hne hfind
    | some p =>
      have hat := find_prefix hfind
      refine ⟨?_, fun d hd => ?_, .inr ⟨m_seps, ?_, hat⟩⟩
      · have hlen := hat.length_le
        have hpos := List.length_pos_iff.mpr hne
        rw [List.length_drop] at hlen
        rw [Option.getD_some]
        omega
      · rw [IsSeparator, if_pos hstring] at hd
        rw [hd]
        exact find_front hne hfind
      · rw [IsSeparator, if_pos hstring]
  · have hchars : mode.stringSeparator = false := by simpa using hstring
    rw [if_neg hstring]
    cases hfind : s.findIdx? m_seps.contains with
    | none =>
      rw [List.findIdx?_eq_none_iff] at hfind
      refine ⟨le_rfl, ?_, .inl (List.drop_length)⟩
      rw [Option.getD_none, List.take_length, noSeparator_chars hchars]
      exact hfind
    | some p =>
      obtain ⟨hlt, hp, hfront⟩ := List.findIdx?_eq_some_iff_getElem.mp hfind
      refine ⟨hlt.le, ?_, .inr ⟨[s[p]], ?_, ?_⟩⟩
      · rw [Option.getD_some, noSeparator_chars hchars]
        intro c hc
        obtain ⟨j, hj, rfl⟩ := List.mem_take_iff_getElem.mp hc
        rw [← Bool.not_eq_true]
        exact hfront j (by omega)
      · rw [IsSeparator, if_neg hstring]
        exact ⟨s[p], List.contains_iff_mem.mp hp, rfl⟩
      · rw [Option.getD_some, List.drop_eq_getElem_cons hlt]
        exact ⟨_, rfl⟩

/-- What is behind the last slice. -/
def rest (w : SplitWalk) : Bytes := w.m_input.drop w.m_slice_len

theorem rest_eq_nil {w : SplitWalk} (hle : w.m_slice_len ≤ w.m_input.length) :
    w.rest = [] ↔ w.m_input.length = w.m_slice_len := by
  rw [rest, List.drop_eq_nil_iff]
  omega

/-- The slice of what is left of the input. -/
def cutAt (mode : SplitMode) (m_seps m_input : Bytes) (m_first : Bool) : SplitWalk where
  m_input
  m_slice_len := (findSep mode m_seps m_input).getD m_input.length
  m_first

theorem next_strict (hstrict : mode.strictDelimiter = true) {w : SplitWalk}
    (hle : w.m_slice_len ≤ w.m_input.length) (hrest : w.rest ≠ []) :
    w.next mode m_seps =
      (true, cutAt mode m_seps (if w.m_first then w.rest else w.rest.drop (sepLen mode m_seps)) false) := by
  have hne : ¬ w.m_input.length = w.m_slice_len := fun h => hrest ((rest_eq_nil hle).mpr h)
  simp only [next, if_neg hne, hstrict, Bool.not_true, Bool.false_and, Bool.and_false, Bool.false_eq_true, if_false,
    advance, if_true]
  rfl

/-- Behind the first slice: separators and slices take turns. -/
theorem iterate_strict (hsep : Separates mode m_seps) (hstrict : mode.strictDelimiter = true) {calls : Nat}
    {w : SplitWalk} (hfirst : w.m_first = false) (hle : w.m_slice_len ≤ w.m_input.length)
    (hfollows : w.rest = [] ∨ ∃ d, IsSeparator mode m_seps d ∧ d <+: w.rest) (hcalls : w.rest.length < calls) :
    ∃ pairs : List (Bytes × Bytes), iterate mode m_seps calls w = some (pairs.map Prod.snd) ∧
      w.rest = pairs.flatMap (fun e => e.1 ++ e.2) ∧ pairs.length ≤ w.rest.length ∧
      ∀ e ∈ pairs, IsSeparator mode m_seps e.1 ∧ NoSeparator mode m_seps e.2 := by
  induction calls generalizing w with
  | zero => exact absurd hcalls (Nat.not_lt_zero _)
  | succ calls ih =>
    by_cases hrest : w.rest = []
    · have hend := (rest_eq_nil hle).mp hrest
      refine ⟨[], ?_, hrest, Nat.zero_le _, nofun⟩
      rw [iterate, next, if_pos hend]
      rfl
    · obtain ⟨d, hd, t, ht⟩ := hfollows.resolve_left hrest
      have hlen := isSeparator_length hd
      have hpos := sepLen_pos hsep
      have hdrop : w.rest.drop (sepLen mode m_seps) = t := by rw [← ht, ← hlen, List.drop_left]
      have hcut := findSep_cut hsep t
      have hshort := congrArg List.length ht
      rw [List.length_append, hlen] at hshort
      have hless : (cutAt mode m_seps t false).rest.length ≤ t.length := List.length_drop ▸ Nat.sub_le _ _
      obtain ⟨pairs, hiterate, hpairs, hcount, hgood⟩ :=
        ih (w := cutAt mode m_seps t false) rfl hcut.le hcut.follows (by omega)
      refine ⟨(d, (cutAt mode m_seps t false).view) :: pairs, ?_, ?_, ?_, ?_⟩
      · rw [iterate, next_strict hstrict hle hrest, hfirst, if_neg Bool.false_ne_true, hdrop]
        simp only [hiterate, Option.map_some, List.map_cons]
      · rw [List.flatMap_cons, ← hpairs, List.append_assoc, ← ht]
        congr 1
        exact (List.take_append_drop _ _).symm
      · rw [List.length_cons]
        omega
      · intro e he
        obtain rfl | he := List.mem_cons.mp he
        · exact ⟨hd, hcut.clean⟩
        · exact hgood e he

/-- What is skipped in front of a slice, and what is left. -/
structure Skipped (mode : SplitMode) (m_seps s s' : Bytes) : Prop where
  suffix : ∃ gap, s = gap ++ s' ∧ (mode.stringSeparator = false → ∀ c ∈ gap, m_seps.contains c = true)
  starts : ∀ d, IsSeparator mode m_seps d → ¬ d <+: s'

theorem skipSeps_skipped (hstring : mode.stringSeparator = true) (hne : m_seps ≠ []) (s : Bytes) :
    Skipped mode m_seps s (skipSeps m_seps s) := by
  induction s using skipSeps.induct m_seps with
  | case1 s h ih =>
    obtain ⟨t, ht⟩ := List.isPrefixOf_iff_prefix.mp h.2
    obtain ⟨⟨gap, hgap, -⟩, hstarts⟩ := ih
    rw [skipSeps, dif_pos h]
    refine ⟨⟨m_seps ++ gap, ?_, fun hchars => absurd (hstring.symm.trans hchars) Bool.noConfusion⟩, hstarts⟩
    rw [List.append_assoc, ← hgap, ← ht, List.drop_left]
  | case2 s h =>
    rw [skipSeps, dif_neg h]
    refine ⟨⟨[], rfl, fun _ => nofun⟩, fun d hd hprefix => ?_⟩
    rw [IsSeparator, if_pos hstring] at hd
    exact h ⟨hne, List.isPrefixOf_iff_prefix.mpr (hd ▸ hprefix)⟩

theorem advance_skipped (hsep : Separates mode m_seps) (hloose : mode.strictDelimiter = false) (m_first : Bool)
    (s : Bytes) : Skipped mode m_seps s (advance mode m_seps m_first s) := by
  rw [advance, if_neg (by simp [hloose])]
  by_cases hstring : mode.stringSeparator = true
  · rw [if_pos hstring]
    exact skipSeps_skipped hstring (hsep hstring) s
  · rw [if_neg hstring, StringView.trimFront_eq]
    refine ⟨⟨s.takeWhile m_seps.contains, List.takeWhile_append_dropWhile.symm, fun _ c hc =>
      List.mem_takeWhile_imp hc⟩, fun d hd hprefix => ?_⟩
    rw [IsSeparator, if_neg hstring] at hd
    obtain ⟨c, hc, rfl⟩ := hd
    obtain ⟨t, ht⟩ := hprefix
    have hhead := List.head?_dropWhile_not m_seps.contains s
    rw [← ht] at hhead
    simp only [List.singleton_append, List.head?_cons] at hhead
    exact Bool.noConfusion (hhead.symm.trans (List.contains_iff_mem.mpr hc))

theorem next_loose (hloose : mode.strictDelimiter = false) {w : SplitWalk}
    (hle : w.m_slice_len ≤ w.m_input.length) (hrest : w.rest ≠ []) :
    w.next mode m_seps =
      if advance mode m_seps w.m_first w.rest = [] then (false, { w with m_input := [] })
      else (true, cutAt mode m_seps (advance mode m_seps w.m_first w.rest) w.m_first) := by
  have hne : ¬ w.m_input.length = w.m_slice_len := fun h => hrest ((rest_eq_nil hle).mpr h)
  simp only [next, if_neg hne, hloose, Bool.not_false, Bool.true_and, Bool.and_true, List.isEmpty_iff]
  change (if advance mode m_seps w.m_first w.rest = [] then _ else _) = _
  by_cases hnil : advance mode m_seps w.m_first w.rest = []
  · rw [if_pos hnil, if_pos hnil]
    exact congrArg (fun m_input => (false, { w with m_input })) hnil
  · rw [if_neg hnil, if_neg hnil]
    rfl

theorem iterate_loose (hsep : Separates mode m_seps) (hloose : mode.strictDelimiter = false) {calls : Nat}
    {w : SplitWalk} (hle : w.m_slice_len ≤ w.m_input.length) (hcalls : w.rest.length < calls) :
    ∃ l, iterate mode m_seps calls w = some l ∧ l.length ≤ w.rest.length ∧
      (mode.stringSeparator = false → MaximalRuns m_seps.contains w.rest l) := by
  induction calls generalizing w with
  | zero => exact absurd hcalls (Nat.not_lt_zero _)
  | succ calls ih =>
    by_cases hrest : w.rest = []
    · refine ⟨[], ?_, Nat.zero_le _, fun _ => ?_⟩
      · rw [iterate, next, if_pos ((rest_eq_nil hle).mp hrest)]
      · rw [hrest]
        exact .gap nofun
    · obtain ⟨⟨gap, hgap, hall⟩, hstarts⟩ := advance_skipped hsep hloose w.m_first w.rest
      rw [iterate, next_loose hloose hle hrest]
      by_cases hnil : advance mode m_seps w.m_first w.rest = []
      · rw [if_pos hnil]
        rw [hnil, List.append_nil] at hgap
        exact ⟨[], rfl, Nat.zero_le _, fun hchars => .gap (hgap ▸ hall hchars)⟩
      · rw [if_neg hnil]
        generalize advance mode m_seps w.m_first w.rest = s at hgap hstarts hnil ⊢
        have hcut := findSep_cut hsep s
        -- No separator starts here, so the slice has a character at least.
        have hfull : (cutAt mode m_seps s w.m_first).view ≠ [] := by
          intro hempty
          have hzero : (findSep mode m_seps s).getD s.length = 0 := by
            have hlen := congrArg List.length hempty
            have hle := hcut.le
            rw [view, cutAt, List.length_take, List.length_nil] at hlen
            have hpos := List.length_pos_iff.mpr hnil
            simp only at hlen
            omega
          have hfollows := hcut.follows
          rw [hzero, List.drop_zero] at hfollows
          obtain hfollows | ⟨d, hd, hprefix⟩ := hfollows
          · exact hnil hfollows
          · exact hstarts d hd hprefix
        have hsplit : (cutAt mode m_seps s w.m_first).view ++ (cutAt mode m_seps s w.m_first).rest = s :=
          List.take_append_drop _ _
        have hlen := congrArg List.length hsplit
        have hlen' := congrArg List.length hgap
        have hpos := List.length_pos_iff.mpr hfull
        rw [List.length_append] at hlen hlen'
        obtain ⟨l, hiterate, hcount, hruns⟩ := ih (w := cutAt mode m_seps s w.m_first) hcut.le (by omega)
        refine ⟨(cutAt mode m_seps s w.m_first).view :: l, ?_, ?_, fun hchars => ?_⟩
        · simp only [hiterate, Option.map_some]
        · rw [List.length_cons]
          omega
        · have hparts : w.rest =
              gap ++ (cutAt mode m_seps s w.m_first).view ++ (cutAt mode m_seps s w.m_first).rest := by
            rw [List.append_assoc, hsplit, hgap]
          rw [hparts]
          refine .run (hall hchars) hfull ((noSeparator_chars hchars).mp hcut.clean) ?_ (hruns hchars)
          obtain hend | ⟨d, hd, t, ht⟩ := hcut.follows
          · have hnone : (cutAt mode m_seps s w.m_first).rest = [] := hend
            rw [hnone]
            rfl
          · have hnext : (cutAt mode m_seps s w.m_first).rest = d ++ t := ht.symm
            rw [IsSeparator, if_neg (by simp [hchars])] at hd
            obtain ⟨c, hc, rfl⟩ := hd
            rw [hnext]
            simpa using hc

/-- What the claims about a splitter are, for its slices. -/
structure Laws (mode : SplitMode) (m_seps input : Bytes) (l : List Bytes) : Prop where
  steps : l.length ≤ input.length + 1
  strict : mode.strictDelimiter = true → input ≠ [] →
    ∃ (first : Bytes) (pairs : List (Bytes × Bytes)), l = first :: pairs.map Prod.snd ∧
      input = first ++ pairs.flatMap (fun e => e.1 ++ e.2) ∧
      (∀ e ∈ pairs, IsSeparator mode m_seps e.1) ∧ ∀ slice ∈ l, NoSeparator mode m_seps slice
  runs : mode.strictDelimiter = false → mode.stringSeparator = false →
    MaximalRuns m_seps.contains input l ∧ l = splitWalk m_seps.contains input

theorem iterate_laws (hsep : Separates mode m_seps) (input : Bytes) :
    ∃ l, iterate mode m_seps (input.length + 2) { m_input := input } = some l ∧ Laws mode m_seps input l := by
  cases hmode : mode.strictDelimiter with
  | false =>
    obtain ⟨l, hl, hcount, hruns⟩ :=
      @iterate_loose mode m_seps hsep hmode (input.length + 2) { m_input := input } (Nat.zero_le _)
        (Nat.lt_succ_of_lt (Nat.lt_succ_self _))
    refine ⟨l, hl, Nat.le_succ_of_le hcount, fun h => absurd (hmode.symm.trans h) Bool.noConfusion, fun _ hchars => ?_⟩
    exact ⟨hruns hchars, (hruns hchars).eq_splitOnP⟩
  | true =>
    by_cases hne : input = []
    · subst hne
      exact ⟨[], rfl, Nat.zero_le _, fun _ h => absurd rfl h, fun h => absurd (hmode.symm.trans h) Bool.noConfusion⟩
    · have hcut := findSep_cut hsep input
      have hless : (cutAt mode m_seps input false).rest.length ≤ input.length := List.length_drop ▸ Nat.sub_le _ _
      obtain ⟨pairs, hiterate, hpairs, hcount, hgood⟩ :=
        @iterate_strict mode m_seps hsep hmode (input.length + 1) (cutAt mode m_seps input false) rfl hcut.le
          hcut.follows (by omega)
      refine ⟨(cutAt mode m_seps input false).view :: pairs.map Prod.snd, ?_, ?_, fun _ _ => ?_, fun h =>
        absurd (hmode.symm.trans h) Bool.noConfusion⟩
      · have hnext := @next_strict mode m_seps hmode { m_input := input } (Nat.zero_le _) hne
        rw [iterate, hnext, if_pos rfl]
        change (iterate mode m_seps (input.length + 1) (cutAt mode m_seps input false)).map _ = _
        rw [hiterate]
        rfl
      · rw [List.length_cons, List.length_map]
        omega
      · refine ⟨_, pairs, rfl, ?_, fun e he => (hgood e he).1, fun slice hslice => ?_⟩
        · rw [← hpairs]
          exact (List.take_append_drop _ _).symm
        · obtain rfl | hslice := List.mem_cons.mp hslice
          · exact hcut.clean
          · obtain ⟨e, he, rfl⟩ := List.mem_map.mp hslice
            exact (hgood e he).2

theorem iterate_laws_semicolon :
    iterate ⟨false, true⟩ [59] 3 { m_input := [59] } = some [[], []] ∧ Laws ⟨false, true⟩ [59] [59] [[], []] := by
  have hrun : iterate ⟨false, true⟩ [59] 3 { m_input := [59] } = some [[], []] := by decide
  obtain ⟨l, hl, hlaws⟩ := @iterate_laws ⟨false, true⟩ [59] nofun [59]
  refine ⟨hrun, ?_⟩
  have hsame : some [[], []] = some l := hrun.symm.trans hl
  rw [Option.some.inj hsame]
  exact hlaws

end SplitWalk

end Acng
