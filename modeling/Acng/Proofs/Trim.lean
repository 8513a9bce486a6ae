import Acng.Trim

namespace Acng
open Lib

theorem findFirstNotOf_eq (junk s : Bytes) :
    findFirstNotOf junk s =
      if s.dropWhile junk.contains = [] then none else some (s.takeWhile junk.contains).length := by
  induction s with
  | nil => rfl
  | cons c s ih =>
    rw [findFirstNotOf] at ih ⊢
    rw [List.findIdx?_cons, List.dropWhile_cons, List.takeWhile_cons]
    cases hc : junk.contains c with
    | true =>
      rw [ih]
      simp only [Bool.not_true, Bool.false_eq_true, if_false, if_true]
      split
      · rfl
      · rfl
    | false => simp

theorem findLastNotOf_eq (junk s : Bytes) :
    findLastNotOf junk s =
      if s.rdropWhile junk.contains = [] then none else some ((s.rdropWhile junk.contains).length - 1) := by
  have hempty : s.rdropWhile junk.contains = [] ↔ s.reverse.dropWhile junk.contains = [] := List.reverse_eq_nil_iff
  rw [findLastNotOf, findFirstNotOf_eq]
  by_cases hnil : s.reverse.dropWhile junk.contains = []
  · rw [if_pos hnil, if_pos (hempty.mpr hnil)]
    rfl
  · rw [if_neg hnil, if_neg (fun h => hnil (hempty.mp h)), List.rdropWhile]
    have hlen := congrArg List.length (List.takeWhile_append_dropWhile (p := junk.contains) (l := s.reverse))
    rw [List.length_append, List.length_reverse] at hlen
    rw [Option.map_some, List.length_reverse, Option.some.injEq]
    omega

theorem StringView.trimFront_eq (s junk : Bytes) : trimFront s junk = s.dropWhile junk.contains := by
  have hsplit := List.takeWhile_append_dropWhile (p := junk.contains) (l := s)
  rw [trimFront, findFirstNotOf_eq]
  split
  · rename_i hnil
    rw [hnil, Option.getD_none, List.drop_length]
  · rw [Option.getD_some]
    nth_rewrite 2 [← hsplit]
    rw [List.drop_left]

theorem StdString.trimFront_eq (s junk : Bytes) : trimFront s junk = s.dropWhile junk.contains := by
  rw [← StringView.trimFront_eq, trimFront, StringView.trimFront]
  cases hfind : findFirstNotOf junk s with
  | none => rw [Option.getD_none, List.drop_length]
  | some pos =>
    rw [Option.getD_some]
    by_cases hpos : 0 < pos
    · exact if_pos hpos
    · rw [Nat.eq_zero_of_not_pos hpos, List.drop_zero]
      rfl

theorem take_rdropWhile (junk s : Bytes) : s.take (s.rdropWhile junk.contains).length = s.rdropWhile junk.contains :=
  (List.prefix_iff_eq_take.mp (List.rdropWhile_prefix _ s)).symm

theorem StringView.trimBack_eq (s junk : Bytes) : trimBack s junk = s.rdropWhile junk.contains := by
  rw [trimBack, findLastNotOf_eq]
  split
  · rename_i hfind
    split at hfind
    · cases hfind
    · obtain rfl := Option.some.inj hfind
      have hle := (List.rdropWhile_prefix junk.contains s).length_le
      rename_i hne
      have hpos := List.length_pos_iff.mpr hne
      rw [show s.length - (s.length - ((s.rdropWhile junk.contains).length - 1) - 1) =
        (s.rdropWhile junk.contains).length by omega, take_rdropWhile]
  · rename_i hfind
    split at hfind
    · rename_i hnil
      rw [hnil, Nat.sub_self, List.take_zero]
    · cases hfind

/-- The string keeps its junk if there is one character in front of it. -/
theorem StdString.trimBack_eq (s junk : Bytes) :
    trimBack s junk = if (s.rdropWhile junk.contains).length = 1 then s else s.rdropWhile junk.contains := by
  rw [trimBack, findLastNotOf_eq]
  split
  · rename_i hfind
    split at hfind
    · rename_i hnil
      rw [hnil]
      rfl
    · cases hfind
  · rename_i pos hfind
    split at hfind
    · cases hfind
    · rename_i hne
      have hpos := List.length_pos_iff.mpr hne
      obtain rfl := Option.some.inj hfind
      by_cases hone : (s.rdropWhile junk.contains).length = 1
      · rw [if_pos hone, if_neg (by omega)]
      · rw [if_neg hone, if_pos (by omega), Nat.sub_add_cancel hpos, take_rdropWhile]

/-- One character, and nothing but junk behind it. -/
def OneThenJunk (junk s : Bytes) : Prop := ∃ c rest, s = c :: rest ∧ c ∉ junk ∧ rest ≠ [] ∧ ∀ d ∈ rest, d ∈ junk

theorem oneThenJunk_iff (junk s : Bytes) :
    OneThenJunk junk s ↔ (s.rdropWhile junk.contains).length = 1 ∧ s.rdropWhile junk.contains ≠ s := by
  constructor
  · rintro ⟨c, rest, rfl, hc, hne, hrest⟩
    have hdrop : (c :: rest).rdropWhile junk.contains = [c] := by
      rw [List.rdropWhile, List.reverse_cons,
        List.dropWhile_append_of_pos (by simpa using hrest)]
      simp [hc]
    rw [hdrop]
    refine ⟨rfl, fun h => hne ?_⟩
    exact (List.cons.inj h).2.symm
  · rintro ⟨hlen, hne⟩
    obtain ⟨c, hc⟩ := List.length_eq_one_iff.mp hlen
    have hrest := @List.rdropWhile_append_rtakeWhile _ junk.contains s
    rw [hc] at hrest hne
    refine ⟨c, s.rtakeWhile junk.contains, hrest.symm, ?_, ?_, fun d hd => ?_⟩
    · have hlast := List.rdropWhile_last_not junk.contains s (by rw [hc]; simp)
      simpa [hc] using hlast
    · intro hnil
      rw [hnil] at hrest
      exact hne hrest
    · simpa using List.mem_rtakeWhile_imp hd

/-- Both overloads leave the text without its junk. -/
structure TrimsAgree (junk s : Bytes) : Prop where
  front : StdString.trimFront s junk = s.dropWhile junk.contains ∧
    StringView.trimFront s junk = s.dropWhile junk.contains
  back : StdString.trimBack s junk = s.rdropWhile junk.contains ∧
    StringView.trimBack s junk = s.rdropWhile junk.contains
  both : StdString.trimBoth s junk = (s.rdropWhile junk.contains).dropWhile junk.contains ∧
    StringView.trimBoth s junk = (s.rdropWhile junk.contains).dropWhile junk.contains

theorem trims_agree_iff (junk s : Bytes) : TrimsAgree junk s ↔ ¬ OneThenJunk junk s := by
  rw [oneThenJunk_iff]
  constructor
  · rintro hagree ⟨hlen, hne⟩
    have hback := hagree.back.1
    rw [StdString.trimBack_eq, if_pos hlen] at hback
    exact hne hback.symm
  · intro hnot
    have hback : StdString.trimBack s junk = s.rdropWhile junk.contains := by
      rw [StdString.trimBack_eq]
      split
      · rename_i hlen
        by_contra hne
        exact hnot ⟨hlen, fun h => hne h.symm⟩
      · rfl
    refine ⟨⟨StdString.trimFront_eq s junk, StringView.trimFront_eq s junk⟩,
      ⟨hback, StringView.trimBack_eq s junk⟩, ?_, ?_⟩
    · rw [StdString.trimBoth, hback, StdString.trimFront_eq]
    · rw [StringView.trimBoth, StringView.trimBack_eq, StringView.trimFront_eq]

theorem trims_disagree : ¬ TrimsAgree spaceChars (lit "a ") := by
  intro h
  exact absurd h.back.1 (by decide +kernel)

theorem contains_spaceChars : spaceChars.contains = isspace := by
  funext c
  simp only [spaceChars, isspace, List.contains_cons, List.contains_nil, Bool.or_false, Bool.or_assoc]

/-- The trimmer that the parsers of options and of index lines use. -/
theorem stringTrimBack_eq (s : Bytes) : stringTrimBack s = StdString.trimBack s spaceChars := by
  rw [StdString.trimBack_eq, contains_spaceChars, stringTrimBack]
  simp only [beq_iff_eq]

end Acng
