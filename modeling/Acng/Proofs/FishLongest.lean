import Acng.FishLongest

namespace Acng
open Lib

namespace Fishing

variable {f : Fishing} {L R : Nat}

/-- A position where a separator or the end of the trimmed string is. -/
def Component (f : Fishing) (p : Nat) : Prop :=
  p ≤ f.trimmed ∧ (p = f.trimmed ∨ f.stringToScan.text[p]? = some f.sep)

/-- The longest of the prefixes that are accepted. -/
def Longest (f : Fishing) (p : Nat) : Prop :=
  f.Component p ∧ f.check_ex (f.offered p) = true ∧
    ∀ q, f.Component q → f.check_ex (f.offered q) = true → q ≤ p

/-- A prefix is accepted with all that is longer. -/
def Closed (f : Fishing) : Prop :=
  ∀ p q, f.Component p → f.Component q → q ≤ p → f.check_ex (f.offered p) = true → f.check_ex (f.offered q) = true

/-- The rounds start with these positions. -/
inductive Reached (f : Fishing) : Nat → Nat → Prop
  | start : Reached f 0 f.trimmed
  | next {L R : Nat} (h : Reached f L R) (hlt : L < R) : Reached f (f.narrow L R).1 (f.narrow L R).2

/-- There is one position left, the prefix in front of it is accepted, and it is tried again. -/
def Stuck (f : Fishing) (L R : Nat) : Prop :=
  R = L + 1 ∧ f.stringToScan.text[L]? = some f.sep ∧ f.check_ex (f.offered L) = true

/-- There is no separator up to the end of the string, which is looked at. -/
def Leaves (f : Fishing) (L R : Nat) : Prop :=
  R = f.length ∧ ∀ j, (L + R) / 2 ≤ j → f.stringToScan.text[j]? ≠ some f.sep

theorem text_get {p : Nat} (hp : p < f.length) : f.stringToScan.text[p]? = some (f.stringToScan.get p) := by
  rw [Mapped.get, List.getElem?_eq_getElem hp, Option.getD_some]

theorem trimmed_le (f : Fishing) : f.trimmed ≤ f.length := (List.rdropWhile_prefix _ _).length_le

/-- The last character that is kept is no separator. -/
theorem trimmed_last {p : Nat} (h : p + 1 = f.trimmed) : f.stringToScan.text[p]? ≠ some f.sep := by
  have hne : f.stringToScan.text.rdropWhile (· == f.sep) ≠ [] := by
    intro hnil
    rw [trimmed, hnil] at h
    cases h
  obtain ⟨t, ht⟩ := List.rdropWhile_prefix (· == f.sep) f.stringToScan.text
  have hlast := List.rdropWhile_last_not (· == f.sep) f.stringToScan.text hne
  have hindex : (f.stringToScan.text.rdropWhile (· == f.sep))[p]? =
      some ((f.stringToScan.text.rdropWhile (· == f.sep)).getLast hne) := by
    rw [← List.getLast?_eq_some_getLast hne, List.getLast?_eq_getElem?, ← trimmed, ← h, Nat.add_sub_cancel]
  rw [← ht, List.getElem?_append_left (by rw [trimmed] at h; omega), hindex]
  intro hsep
  rw [Option.some.inj hsep] at hlast
  simp at hlast

theorem moveRight_spec (f : Fishing) (m left : Nat) :
    m ≤ f.moveRight m left ∧ f.moveRight m left ≤ m + left ∧
      (f.moveRight m left < m + left → f.stringToScan.get (f.moveRight m left) = f.sep) ∧
      ∀ j, m ≤ j → j < f.moveRight m left → f.stringToScan.get j ≠ f.sep := by
  induction left generalizing m with
  | zero =>
    refine ⟨le_rfl, le_rfl, fun h => absurd h (lt_irrefl _), fun j hj hlt => ?_⟩
    exact absurd (hj.trans_lt hlt) (lt_irrefl _)
  | succ left ih =>
    rw [moveRight]
    split
    · rename_i hsep
      exact ⟨le_rfl, by omega, fun _ => hsep, fun j hj hlt => absurd (hj.trans_lt hlt) (lt_irrefl _)⟩
    · rename_i hno
      obtain ⟨hle, hle', hsep, hfree⟩ := ih (m + 1)
      refine ⟨by omega, by omega, fun h => hsep (by omega), fun j hj hlt => ?_⟩
      by_cases heq : j = m
      · exact heq ▸ hno
      · exact hfree j (by omega) hlt

theorem moveLeft_spec (f : Fishing) {true_m : Nat} (h : L ≤ true_m) :
    L ≤ f.moveLeft L true_m ∧ f.moveLeft L true_m ≤ true_m ∧
      (L < f.moveLeft L true_m → f.stringToScan.get (f.moveLeft L true_m) = f.sep) ∧
      ∀ j, f.moveLeft L true_m < j → j ≤ true_m → f.stringToScan.get j ≠ f.sep := by
  induction true_m with
  | zero => exact ⟨h, le_rfl, fun hlt => absurd hlt (Nat.not_lt_zero _), fun j hj hle => by omega⟩
  | succ true_m ih =>
    rw [moveLeft]
    split
    · rename_i hgo
      obtain ⟨hle, hle', hsep, hfree⟩ := ih (by omega)
      refine ⟨hle, by omega, hsep, fun j hj hlt => ?_⟩
      by_cases heq : j = true_m + 1
      · exact heq ▸ hgo.2
      · exact hfree j hj (by omega)
    · rename_i hstop
      refine ⟨h, le_rfl, fun hlt => ?_, fun j hj hle => by omega⟩
      by_contra hno
      exact hstop ⟨hlt, hno⟩

theorem probe_spec (f : Fishing) (hlt : L < R) :
    (L + R) / 2 ≤ f.probe L R ∧ f.probe L R ≤ R ∧
      (f.probe L R < R → f.stringToScan.get (f.probe L R) = f.sep) ∧
      ∀ j, (L + R) / 2 ≤ j → j < f.probe L R → f.stringToScan.get j ≠ f.sep := by
  have hspec := f.moveRight_spec ((L + R) / 2) (R - (L + R) / 2)
  rw [Nat.add_sub_cancel' (by omega)] at hspec
  exact hspec

/-- Between the positions is what matters: in front of the left one prefixes are accepted, behind the right one not. -/
structure Between (f : Fishing) (L R : Nat) : Prop where
  le : L ≤ R
  top : R ≤ f.trimmed
  left : L = 0 ∨ f.Component L ∧ f.check_ex (f.offered L) = true
  right : R = L ∨ f.Component R
  above : ∀ p, f.Component p → R < p → f.check_ex (f.offered p) ≠ true

theorem Between.start (f : Fishing) : f.Between 0 f.trimmed where
  le := Nat.zero_le _
  top := le_rfl
  left := .inl rfl
  right := .inr ⟨le_rfl, .inl rfl⟩
  above _ hp hlt := absurd hp.1 (Nat.not_le_of_lt hlt)

theorem component_of_get {p : Nat} (hp : p < f.trimmed) (h : f.stringToScan.get p = f.sep) : f.Component p :=
  ⟨hp.le, .inr (by rw [text_get (hp.trans_le f.trimmed_le), h])⟩

theorem Between.probe_component (h : f.Between L R) (hlt : L < R) : f.Component (f.probe L R) := by
  obtain ⟨-, hle, hsep, -⟩ := f.probe_spec hlt
  obtain heq | hless := hle.eq_or_lt
  · rw [heq]
    exact h.right.resolve_left (by omega)
  · exact component_of_get (hless.trans_le h.top) (hsep hless)

theorem Between.narrow (h : f.Between L R) (hclosed : f.Closed) (hlt : L < R) :
    f.Between (f.narrow L R).1 (f.narrow L R).2 := by
  obtain ⟨hmid, hle, hsep, hfree⟩ := f.probe_spec hlt
  have hprobe := h.probe_component hlt
  have htop := h.top
  unfold Fishing.narrow
  split
  · rename_i hacc
    exact ⟨hle, htop, .inr ⟨hprobe, hacc⟩, .inr (h.right.resolve_left (by omega)), h.above⟩
  · rename_i hrej
    obtain ⟨hleft, hless, hsep', hfree'⟩ := @moveLeft_spec L f ((L + R) / 2) (by omega)
    refine ⟨hleft, by omega, h.left, ?_, fun p hp hlt' hacc => ?_⟩
    · obtain heq | hgt := hleft.eq_or_lt
      · exact .inl heq.symm
      · exact .inr (component_of_get (by omega) (hsep' hgt))
    · -- A component up to the probe is not in the gap around the middle.
      by_cases hbehind : f.probe L R ≤ p
      · exact hrej (hclosed p _ hp hprobe hbehind hacc)
      · have hno : f.stringToScan.get p ≠ f.sep := by
          by_cases hmid' : p ≤ (L + R) / 2
          · exact hfree' p hlt' hmid'
          · exact hfree p (by omega) (by omega)
        have hlen := f.trimmed_le
        obtain heq | hat := hp.2
        · omega
        · rw [text_get (by omega)] at hat
          exact hno (Option.some.inj hat)

theorem Reached.between (hclosed : f.Closed) (h : f.Reached L R) : f.Between L R := by
  induction h with
  | start => exact Between.start f
  | next _ hlt ih => exact ih.narrow hclosed hlt

/-- A round that is not stuck makes the distance smaller. -/
theorem Between.progress (h : f.Between L R) (hlt : L < R) (hgo : ¬ f.Stuck L R) :
    (f.narrow L R).2 - (f.narrow L R).1 < R - L := by
  obtain ⟨hmid, hle, hsep, -⟩ := f.probe_spec hlt
  have htop := h.top
  have hlen := f.trimmed_le
  unfold Fishing.narrow
  split
  · rename_i hacc
    have hne : f.probe L R ≠ L := by
      intro heq
      rw [heq] at hmid hsep hacc
      exact hgo ⟨by omega, by rw [text_get (by omega), hsep hlt], hacc⟩
    simp only
    omega
  · obtain ⟨hleft, hless, -⟩ := @moveLeft_spec L f ((L + R) / 2) (by omega)
    simp only
    omega

/-- What is read stays in the string unless the string is left. -/
theorem Between.probe_lt (h : f.Between L R) (hlt : L < R) (hin : ¬ f.Leaves L R) : f.probe L R < f.length := by
  obtain ⟨-, hle, hsep, hfree⟩ := f.probe_spec hlt
  have htop := h.top
  have hlen := f.trimmed_le
  by_contra hout
  refine hin ⟨by omega, fun j hj hat => ?_⟩
  have hj' : j < f.length := (List.getElem?_eq_some_iff.mp hat).1
  rw [text_get hj'] at hat
  exact hfree j hj (by omega) (Option.some.inj hat)

/-- What the loop comes to when no round is stuck or leaves the string. -/
theorem run_ends (hclosed : f.Closed)
    (hgood : ∀ L R, f.Reached L R → L < R → ¬ f.Stuck L R ∧ ¬ f.Leaves L R) {rounds : Nat} (h : f.Reached L R)
    (hrounds : R - L < rounds) {seen : Seen} (hreach : seen.reach ≤ f.length)
    (hleft : L = 0 ∨ f.offered L ∈ seen.checked) :
    ∃ seen' E, f.run rounds L R seen = some seen' ∧ seen'.reach ≤ f.length ∧ f.Reached E E ∧
      (E = 0 ∨ f.offered E ∈ seen'.checked) := by
  induction rounds generalizing L R seen with
  | zero => exact absurd hrounds (Nat.not_lt_zero _)
  | succ rounds ih =>
    have hbetween := h.between hclosed
    rw [run]
    by_cases hlt : L < R
    · obtain ⟨hgo, hin⟩ := hgood L R h hlt
      have hless := hbetween.progress hlt hgo
      have hprobe := hbetween.probe_lt hlt hin
      rw [if_pos hlt]
      refine ih (h.next hlt) (by omega) (Nat.max_le.mpr ⟨hreach, hprobe⟩) ?_
      unfold narrow
      split
      · exact .inr (by simp)
      · exact hleft.imp_right (List.mem_append_left _)
    · have heq : L = R := Nat.le_antisymm hbetween.le (Nat.le_of_not_lt hlt)
      rw [if_neg hlt]
      exact ⟨seen, L, rfl, hreach, heq ▸ h, hleft⟩

/-- A run that ends comes to every round that is reached. -/
theorem Reached.visited (h : f.Reached L R) {rounds : Nat} {seen' : Seen}
    (hrun : f.run rounds 0 f.trimmed {} = some seen') : ∃ left seen, f.run left L R seen = some seen' := by
  induction h with
  | start => exact ⟨rounds, {}, hrun⟩
  | next _ hlt ih =>
    obtain ⟨left, seen, hleft⟩ := ih
    cases left with
    | zero => cases hleft
    | succ left =>
      rw [run, if_pos hlt] at hleft
      exact ⟨left, _, hleft⟩

theorem Stuck.narrow (h : f.Stuck L R) : f.narrow L R = (L, R) := by
  obtain ⟨rfl, hsep, hacc⟩ := h
  have hmid : (L + (L + 1)) / 2 = L := by omega
  have hget : f.stringToScan.get L = f.sep := by
    rw [Mapped.get, hsep, Option.getD_some]
  have hprobe : f.probe L (L + 1) = L := by
    rw [probe, hmid, Nat.add_sub_cancel_left, moveRight, if_pos hget]
  rw [Fishing.narrow, hprobe, if_pos hacc]

theorem Stuck.endless (h : f.Stuck L R) (rounds : Nat) (seen : Seen) : f.run rounds L R seen = none := by
  induction rounds generalizing seen with
  | zero => rfl
  | succ rounds ih =>
    rw [run, if_pos (by have := h.1; omega), h.narrow]
    exact ih _

theorem run_reach {rounds : Nat} {seen seen' : Seen} (h : f.run rounds L R seen = some seen') :
    seen.reach ≤ seen'.reach := by
  induction rounds generalizing L R seen with
  | zero => cases h
  | succ rounds ih =>
    rw [run] at h
    split at h
    · exact (le_max_left _ _).trans (ih h)
    · rw [Option.some.inj h]

theorem Leaves.out (h : f.Leaves L R) (hlt : L < R) {rounds : Nat} {seen seen' : Seen}
    (hrun : f.run rounds L R seen = some seen') : f.length < seen'.reach := by
  obtain ⟨hmid, hle, hsep, -⟩ := f.probe_spec hlt
  have hprobe : f.probe L R = f.length := by
    by_contra hne
    have hlen := h.1
    refine h.2 _ hmid ?_
    rw [text_get (by omega), hsep (by omega)]
  cases rounds with
  | zero => cases hrun
  | succ rounds =>
    rw [run, if_pos hlt] at hrun
    have hreach := run_reach hrun
    rw [hprobe] at hreach
    exact (le_max_right _ _).trans hreach

/-- What is offered is offered in a round that is reached. -/
theorem run_checked {rounds : Nat} {seen seen' : Seen} (h : f.Reached L R)
    (hrun : f.run rounds L R seen = some seen') {s : Bytes} (hs : s ∈ seen'.checked) :
    s ∈ seen.checked ∨ ∃ L R, f.Reached L R ∧ L < R ∧ s = f.offered (f.probe L R) := by
  induction rounds generalizing L R seen with
  | zero => cases hrun
  | succ rounds ih =>
    rw [run] at hrun
    split at hrun
    · rename_i hlt
      obtain hseen | hlater := ih (h.next hlt) hrun
      · obtain hseen | hnow := List.mem_append.mp hseen
        · exact .inl hseen
        · exact .inr ⟨L, R, h, hlt, List.mem_singleton.mp hnow⟩
      · exact .inr hlater
    · rw [Option.some.inj hrun]
      exact .inl hs

/-- It ends, stays in the string, and the longest accepted prefix is offered. -/
def Fished (f : Fishing) : Prop :=
  ∃ rounds seen, f.fish_longest_match rounds = some seen ∧ seen.reach ≤ f.length ∧
    ∀ p, f.Longest p → f.offered p ∈ seen.checked

theorem fish_run (hne : f.stringToScan.text ≠ []) (rounds : Nat) :
    f.fish_longest_match rounds = f.run rounds 0 f.trimmed {} := by
  rw [fish_longest_match, if_neg (by simpa using hne)]

theorem fished_empty (h : f.stringToScan.text = []) : f.Fished := by
  refine ⟨0, ⟨[[]], 0⟩, ?_, Nat.zero_le _, fun p _ => ?_⟩
  · rw [fish_longest_match, h]
    rfl
  · rw [offered, h, List.take_nil]
    exact List.mem_singleton_self _

theorem Fished.not_stuck (h : f.Fished) (hne : f.stringToScan.text ≠ []) (hreached : f.Reached L R) :
    ¬ f.Stuck L R := by
  intro hstuck
  obtain ⟨rounds, seen, hrun, -⟩ := h
  obtain ⟨left, seen', hleft⟩ := hreached.visited (fish_run hne rounds ▸ hrun)
  rw [hstuck.endless] at hleft
  cases hleft

/-- The empty prefix is offered in a round that is stuck only. -/
theorem Fished.not_longest_zero (h : f.Fished) (hne : f.stringToScan.text ≠ []) (hclosed : f.Closed) :
    ¬ f.Longest 0 := by
  intro hzero
  have hfished := h
  obtain ⟨rounds, seen, hrun, -, hchecked⟩ := h
  obtain hnil | ⟨L, R, hreached, hlt, hoffered⟩ := run_checked .start (fish_run hne rounds ▸ hrun) (hchecked 0 hzero)
  · cases hnil
  · have hbetween := hreached.between hclosed
    obtain ⟨hmid, hle, hsep, -⟩ := f.probe_spec hlt
    have htop := hbetween.top
    have hlen := f.trimmed_le
    have hprobe : f.probe L R = 0 := by
      have hcount := congrArg List.length hoffered
      rw [offered, offered, List.length_take, List.length_take, Nat.zero_min] at hcount
      have hpos : 0 < f.length := List.length_pos_iff.mpr hne
      rw [length] at hpos hlen
      omega
    rw [hprobe] at hmid hsep
    refine hfished.not_stuck hne hreached ⟨by omega, ?_, ?_⟩
    · obtain rfl : L = 0 := by omega
      rw [text_get (by omega), hsep (by omega)]
    · obtain rfl : L = 0 := by omega
      exact hzero.2.1

theorem fished_iff (hclosed : f.Closed) :
    f.Fished ↔ f.stringToScan.text = [] ∨
      ¬ f.Longest 0 ∧ ∀ L R, f.Reached L R → L < R → ¬ f.Stuck L R ∧ ¬ f.Leaves L R := by
  constructor
  · intro h
    by_cases hne : f.stringToScan.text = []
    · exact .inl hne
    · refine .inr ⟨h.not_longest_zero hne hclosed, fun L R hreached hlt => ⟨h.not_stuck hne hreached, ?_⟩⟩
      intro hleaves
      obtain ⟨rounds, seen, hrun, hreach, -⟩ := h
      obtain ⟨left, seen', hleft⟩ := hreached.visited (fish_run hne rounds ▸ hrun)
      exact absurd (hleaves.out hlt hleft) (Nat.not_lt_of_le hreach)
  · rintro (hempty | ⟨hzero, hgood⟩)
    · exact fished_empty hempty
    · by_cases hne : f.stringToScan.text = []
      · exact fished_empty hne
      · obtain ⟨seen, E, hrun, hreach, hend, hchecked⟩ :=
          @run_ends f 0 f.trimmed hclosed hgood _ .start (Nat.lt_succ_self _) {} (Nat.zero_le _) (.inl rfl)
        refine ⟨_, seen, (fish_run hne _).trans hrun, hreach, fun p hp => ?_⟩
        have hbetween := hend.between hclosed
        have hle : p ≤ E := by
          by_contra hgt
          exact hbetween.above p hp.1 (by omega) hp.2.1
        have hpos : E ≠ 0 := by
          rintro rfl
          obtain rfl : p = 0 := by omega
          exact hzero hp
        obtain ⟨hcomponent, hacc⟩ := hbetween.left.resolve_left hpos
        rw [Nat.le_antisymm hle (hp.2.2 E hcomponent hacc)]
        exact hchecked.resolve_left hpos

/-- A stuck round has two separators, so a string without repeated ones has no such round. -/
theorem Stuck.repeated (h : f.Stuck L R) (hclosed : f.Closed) (hreached : f.Reached L R) :
    f.stringToScan.text[L]? = some f.sep ∧ f.stringToScan.text[L + 1]? = some f.sep := by
  obtain ⟨rfl, hsep, -⟩ := h
  obtain heq | hend | hnext := (hreached.between hclosed).right.imp_right And.right
  · omega
  · exact absurd hsep (trimmed_last hend)
  · exact ⟨hsep, hnext⟩

/-- `a/` is tried up to its end, where a separator is trimmed away. -/
def oneName : Fishing := ⟨⟨[97, 47], fun _ => 0⟩, 47, fun _ => true⟩

theorem fished_iff_oneName : oneName.Closed ∧ oneName.Fished := by
  have hclosed : oneName.Closed := fun _ _ _ _ _ _ => rfl
  have hreached : ∀ L R, oneName.Reached L R → L = 0 ∧ R = 1 ∨ L = 1 ∧ R = 1 := by
    intro L R h
    induction h with
    | start => exact .inl ⟨rfl, by decide⟩
    | @next L R _ hlt ih =>
      obtain ⟨rfl, rfl⟩ | ⟨rfl, rfl⟩ := ih
      · exact .inr ⟨by decide, by decide⟩
      · omega
  refine ⟨hclosed, (fished_iff hclosed).mpr (.inr ⟨fun hzero => ?_, fun L R h hlt => ?_⟩)⟩
  · exact absurd (hzero.2.2 1 ⟨by decide, .inl (by decide)⟩ rfl) (by decide)
  obtain ⟨rfl, rfl⟩ | ⟨rfl, rfl⟩ := hreached L R h
  · exact ⟨fun hstuck => absurd hstuck.2.1 (by decide), fun hleaves => absurd hleaves.1 (by decide)⟩
  · omega

/-- `a//b`, of which `a` is accepted alone. -/
def twoSeparators : Fishing := ⟨⟨[97, 47, 47, 98], fun _ => 0⟩, 47, fun s => s.length ≤ 1⟩

theorem fished_twoSeparators : twoSeparators.Closed ∧ ¬ twoSeparators.Fished := by
  constructor
  · intro p q _ _ hle hacc
    have hshort : (twoSeparators.offered p).length ≤ 1 := of_decide_eq_true hacc
    refine decide_eq_true ?_
    rw [offered, List.length_take] at hshort ⊢
    omega
  · intro h
    have hfirst : twoSeparators.narrow 0 twoSeparators.trimmed = (0, 2) := by decide
    have hsecond : twoSeparators.narrow 0 2 = (1, 2) := by decide
    have hreached : twoSeparators.Reached 0 2 := by
      simpa only [hfirst] using (Reached.start (f := twoSeparators)).next (by decide)
    have hagain : twoSeparators.Reached 1 2 := by
      simpa only [hsecond] using hreached.next (by decide)
    exact h.not_stuck (by decide) hagain ⟨rfl, by decide, by decide⟩

end Fishing

end Acng
