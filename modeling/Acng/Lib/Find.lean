import Acng.Lib.Scan

namespace Acng.Lib

variable {α : Type u} [BEq α] [LawfulBEq α] {pat s : List α}

theorem find_prefix {p : Nat} (h : find pat s = some p) : pat <+: s.drop p := by
  induction s generalizing p with
  | nil =>
    cases pat with
    | nil => exact List.nil_prefix
    | cons a pat => cases h
  | cons c s ih =>
    unfold find at h
    split at h
    · rename_i hp
      obtain rfl := Option.some.inj h
      exact List.isPrefixOf_iff_prefix.mp hp
    · obtain ⟨q, hq, rfl⟩ := Option.map_eq_some_iff.mp h
      exact ih hq

/-- What is there is found, at this place or before. -/
theorem find_first {a : Nat} (hne : pat ≠ []) (h : pat <+: s.drop a) : ∃ p ≤ a, find pat s = some p := by
  induction s generalizing a with
  | nil =>
    rw [List.drop_nil, List.prefix_nil] at h
    exact absurd h hne
  | cons c s ih =>
    unfold find
    split
    · exact ⟨0, Nat.zero_le _, rfl⟩
    · rename_i hp
      cases a with
      | zero => exact absurd (List.isPrefixOf_iff_prefix.mpr h) hp
      | succ a =>
        obtain ⟨p, hle, hfind⟩ := ih h
        exact ⟨p + 1, Nat.succ_le_succ hle, by rw [hfind]; rfl⟩

/-- It is nowhere in front of the place where it is found. -/
theorem find_front {p : Nat} (hne : pat ≠ []) (h : find pat s = some p) : ¬ pat <:+: s.take p := by
  rintro ⟨a, b, hab⟩
  have hpos := List.length_pos_iff.mpr hne
  have hlen := congrArg List.length hab
  rw [List.length_append, List.length_append, List.length_take] at hlen
  have hprefix : pat <+: s.drop a.length := by
    have hsplit := List.take_append_drop p s
    rw [← hab, List.append_assoc, List.append_assoc] at hsplit
    rw [← hsplit, List.drop_left]
    exact List.prefix_append _ _
  obtain ⟨q, hle, hq⟩ := find_first hne hprefix
  rw [h] at hq
  obtain rfl := Option.some.inj hq
  omega

theorem find_none (hne : pat ≠ []) (h : find pat s = none) : ¬ pat <:+: s := by
  rintro ⟨a, b, rfl⟩
  have hprefix : pat <+: (a ++ pat ++ b).drop a.length := by
    rw [List.append_assoc, List.drop_left]
    exact List.prefix_append _ _
  obtain ⟨q, -, hq⟩ := find_first hne hprefix
  rw [h] at hq
  cases hq

/-- More text behind it does not move the place. -/
theorem find_append {p : Nat} (hne : pat ≠ []) (h : find pat s = some p) (t : List α) :
    find pat (s ++ t) = some p := by
  have hprefix := find_prefix h
  have hle := find_le pat s p h
  have hlong : pat <+: (s ++ t).drop p := by
    rw [List.drop_append_of_le_length (by omega)]
    exact hprefix.trans (List.prefix_append _ _)
  obtain ⟨q, hq, hfind⟩ := find_first hne hlong
  have hshort := find_prefix hfind
  rw [List.drop_append_of_le_length (by omega)] at hshort
  have hs := List.prefix_of_prefix_length_le hshort (List.prefix_append _ _) (by rw [List.length_drop]; omega)
  obtain ⟨q', hq', hfind'⟩ := find_first hne hs
  rw [h] at hfind'
  obtain rfl := Option.some.inj hfind'
  rw [hfind, Nat.le_antisymm hq hq']

/-- A pattern without the separator is found in front of it or behind it. -/
theorem find_sep {sep : α} (hsep : sep ∉ pat) (hne : pat ≠ []) (line s : List α) :
    find pat (line ++ sep :: s) =
      (find pat line).or ((find pat s).map (· + (line.length + 1))) := by
  have hnil : find pat [] = none := by
    rw [find, if_neg (by simpa using hne)]
  have hcut : ∀ t : List α, pat <+: t ++ sep :: s → pat <+: t := by
    intro t h
    by_cases hlen : pat.length ≤ t.length
    · exact List.prefix_of_prefix_length_le h (List.prefix_append t _) hlen
    · have ht : t ++ [sep] <+: t ++ sep :: s := ⟨s, by simp⟩
      have hpat := List.prefix_of_prefix_length_le ht h
        (by rw [List.length_append, List.length_singleton]; omega)
      exact absurd (hpat.subset (List.mem_append_right t (List.mem_singleton_self sep))) hsep
  induction line with
  | nil =>
    have hno : ¬ pat.isPrefixOf (sep :: s) = true := fun h => hne
      (List.prefix_nil.mp (hcut [] (List.isPrefixOf_iff_prefix.mp h)))
    rw [hnil, Option.none_or, List.nil_append]
    simp only [find, hno]
    rfl
  | cons c line ih =>
    rw [List.cons_append, find, find]
    by_cases h : pat.isPrefixOf (c :: (line ++ sep :: s)) = true
    · have hline := hcut (c :: line) (List.isPrefixOf_iff_prefix.mp h)
      rw [if_pos h, if_pos (List.isPrefixOf_iff_prefix.mpr hline)]
      rfl
    · have hline : ¬ pat.isPrefixOf (c :: line) = true := fun hline => h
        (List.isPrefixOf_iff_prefix.mpr ((List.isPrefixOf_iff_prefix.mp hline).trans
          (List.prefix_append _ _)))
      rw [if_neg h, if_neg hline, ih]
      cases find pat line with
      | none => simp [Option.map_map, Function.comp_def, Nat.add_assoc]
      | some p => rfl

end Acng.Lib
