import Acng.MirrorIndexes
import Mathlib.Data.List.Basic
import Mathlib.Data.List.Nodup

namespace Acng
open Lib

/-- A name that does not end in one of the suffixes itself. -/
def PlainBase (base : Bytes) : Prop := ∀ s ∈ sfxXzBz2GzLzma, ¬ s <:+ base

instance (base : Bytes) : Decidable (PlainBase base) := inferInstanceAs (Decidable (∀ s ∈ sfxXzBz2GzLzma, ¬ s <:+ base))

theorem suffixes_apart : ∀ s ∈ sfxXzBz2GzLzma, ∀ s' ∈ sfxXzBz2GzLzma, s <:+ s' → s = s' := by
  decide +kernel

theorem suffix_cases {s : Bytes} : s ∈ sfxXzBz2GzLzmaNone ↔ s ∈ sfxXzBz2GzLzma ∨ s = [] := by
  rw [sfxXzBz2GzLzmaNone, List.mem_append, List.mem_singleton]

/-- A variant of a plain name has no other suffix. -/
theorem PlainBase.suffix_eq {base s s' : Bytes} (hbase : PlainBase base) (hs : s ∈ sfxXzBz2GzLzmaNone)
    (hs' : s' ∈ sfxXzBz2GzLzma) (h : s' <:+ base ++ s) : s' = s := by
  obtain hs | rfl := suffix_cases.mp hs
  · obtain hle | hle := List.suffix_or_suffix_of_suffix h (List.suffix_append base s)
    · exact suffixes_apart s' hs' s hs hle
    · exact (suffixes_apart s hs s' hs' hle).symm
  · rw [List.append_nil] at h
    exact absurd h (hbase s' hs')

theorem PlainBase.mySuffix {base s : Bytes} (hbase : PlainBase base) (hs : s ∈ sfxXzBz2GzLzmaNone) :
    mySuffix (base ++ s) = s := by
  rw [Acng.mySuffix, sfxXzBz2GzLzmaNone, List.find?_append]
  cases hfind : sfxXzBz2GzLzma.find? (·.isSuffixOf (base ++ s)) with
  | some s' =>
    have hsuffix := List.find?_some hfind
    exact hbase.suffix_eq hs (List.mem_of_find?_eq_some hfind) (List.isSuffixOf_iff_suffix.mp hsuffix)
  | none =>
    obtain hs | rfl := suffix_cases.mp hs
    · have hnot := List.find?_eq_none.mp hfind s hs
      exact absurd (List.isSuffixOf_iff_suffix.mpr (List.suffix_append base s)) hnot
    · simp

theorem PlainBase.myBase {base s : Bytes} (hbase : PlainBase base) (hs : s ∈ sfxXzBz2GzLzmaNone) :
    myBase (base ++ s) = base := by
  rw [Acng.myBase, hbase.mySuffix hs, List.length_append, Nat.add_sub_cancel, List.take_left]

theorem mySuffix_mem (src : Bytes) : mySuffix src ∈ sfxXzBz2GzLzmaNone := by
  rw [mySuffix]
  cases hfind : sfxXzBz2GzLzmaNone.find? (·.isSuffixOf src) with
  | some s => exact List.mem_of_find?_eq_some hfind
  | none => exact suffix_cases.mpr (.inr rfl)

theorem myBase_append (src : Bytes) : myBase src ++ mySuffix src = src := by
  have hsuffix : mySuffix src <:+ src := by
    rw [mySuffix]
    cases hfind : sfxXzBz2GzLzmaNone.find? (·.isSuffixOf src) with
    | some s =>
      have hs := List.find?_some hfind
      exact List.isSuffixOf_iff_suffix.mp hs
    | none => exact List.nil_suffix
  rw [myBase]
  obtain ⟨front, hfront⟩ := hsuffix
  generalize mySuffix src = s at hfront
  subst hfront
  rw [List.length_append, Nat.add_sub_cancel, List.take_left]

/-- The paths that `delBros` leaves. -/
def keeps (mine x : Bytes) : Bool :=
  sfxXzBz2GzLzmaNone.all (fun suf => suf = mySuffix mine || x != myBase mine ++ suf)

theorem foldl_delBro (mine : Bytes) (sufs : List Bytes) {found : Nat × List Bytes} (hnodup : found.2.Nodup) :
    (sufs.foldl (delBro mine) found).2 =
        found.2.filter (fun x => sufs.all (fun suf => suf = mySuffix mine || x != myBase mine ++ suf)) ∧
      (sufs.foldl (delBro mine) found).1 + (sufs.foldl (delBro mine) found).2.length =
        found.1 + found.2.length := by
  induction sufs generalizing found with
  | nil => simp
  | cons suf sufs ih =>
    simp only [List.foldl_cons, List.all_cons]
    by_cases hmine : suf = mySuffix mine
    · rw [delBro, if_pos hmine]
      obtain ⟨hset, hcount⟩ := ih hnodup
      refine ⟨?_, hcount⟩
      rw [hset]
      simp [hmine]
    · rw [delBro, if_neg hmine]
      by_cases hmem : myBase mine ++ suf ∈ found.2
      · rw [if_pos hmem]
        obtain ⟨hset, hcount⟩ :=
          @ih (found.1 + 1, found.2.erase (myBase mine ++ suf)) (hnodup.erase (myBase mine ++ suf))
        have hlen := List.length_erase_of_mem hmem
        have hpos := List.length_pos_of_mem hmem
        refine ⟨?_, by rw [hcount]; simp only; omega⟩
        rw [hset, hnodup.erase_eq_filter, List.filter_filter]
        refine List.filter_congr (fun x _ => ?_)
        simp [hmine, Bool.and_comm]
      · rw [if_neg hmem]
        obtain ⟨hset, hcount⟩ := ih hnodup
        refine ⟨?_, hcount⟩
        rw [hset]
        refine List.filter_congr (fun x hx => ?_)
        have hne : x ≠ myBase mine ++ suf := fun heq => hmem (heq ▸ hx)
        simp [hmine, hne]

theorem delBros_spec {srcs : List Bytes} (hnodup : srcs.Nodup) (mine : Bytes) :
    (delBros srcs mine).2 = srcs.filter (keeps mine) ∧
      (delBros srcs mine).1 + (srcs.filter (keeps mine)).length = srcs.length := by
  obtain ⟨hset, hcount⟩ := @foldl_delBro mine sfxXzBz2GzLzmaNone (0, srcs) hnodup
  change (delBros srcs mine).2 = _ at hset
  change (delBros srcs mine).1 + (delBros srcs mine).2.length = _ at hcount
  rw [hset] at hcount
  exact ⟨hset, by rw [Nat.zero_add] at hcount; exact hcount⟩

/-- Of the paths with the same base only the one itself is left, and all others. -/
theorem keeps_iff {mine : Bytes} (hbase : PlainBase (myBase mine)) (x : Bytes) :
    keeps mine x = true ↔ (myBase x = myBase mine → x = mine) := by
  rw [keeps, List.all_eq_true]
  constructor
  · intro hall heq
    have hsuf := hall (mySuffix x) (mySuffix_mem x)
    rw [Bool.or_eq_true, decide_eq_true_eq, bne_iff_ne, ← heq, myBase_append] at hsuf
    have hsame : mySuffix x = mySuffix mine := hsuf.resolve_right (by simp)
    rw [← myBase_append x, ← myBase_append mine, heq, hsame]
  · intro hmine suf hmem
    rw [Bool.or_eq_true, decide_eq_true_eq, bne_iff_ne]
    by_cases heq : x = myBase mine ++ suf
    · have hx : myBase x = myBase mine := by rw [heq, hbase.myBase hmem]
      have hsuf := hbase.mySuffix hmem
      rw [← heq, hmine hx] at hsuf
      exact .inl hsuf.symm
    · exact .inr heq

theorem keeps_self (mine : Bytes) : keeps mine mine = true := by
  rw [keeps, List.all_eq_true]
  intro suf _
  rw [Bool.or_eq_true, decide_eq_true_eq, bne_iff_ne]
  by_cases hsuf : suf = mySuffix mine
  · exact .inl hsuf
  · refine .inr (fun heq => hsuf ?_)
    have hboth : myBase mine ++ mySuffix mine = myBase mine ++ suf := (myBase_append mine).trans heq
    exact (List.append_cancel_left hboth).symm

theorem delBrosOf_some {chosen : Bytes → Bool} {srcs srcs' : List Bytes} (hnodup : srcs.Nodup)
    (h : delBrosOf chosen srcs = some srcs') :
    ∃ src ∈ srcs, chosen src = true ∧ srcs' = srcs.filter (keeps src) ∧ srcs'.length < srcs.length := by
  obtain ⟨src, hsrc, hdel⟩ := List.exists_of_findSome?_eq_some h
  obtain ⟨hset, hcount⟩ := delBros_spec hnodup src
  split at hdel
  · rename_i hcond
    rw [Bool.and_eq_true, bne_iff_ne] at hcond
    obtain rfl : (delBros srcs src).2 = srcs' := Option.some.inj hdel
    have hfewer := hcond.2
    rw [hset]
    exact ⟨src, hsrc, hcond.1, rfl, by omega⟩
  · exact absurd hdel (by simp)

/-- If nothing is deleted, no chosen path has brothers. -/
theorem delBrosOf_none {chosen : Bytes → Bool} {srcs : List Bytes} (hnodup : srcs.Nodup)
    (h : delBrosOf chosen srcs = none) {src x : Bytes} (hsrc : src ∈ srcs) (hchosen : chosen src = true)
    (hbase : PlainBase (myBase src)) (hx : x ∈ srcs) (hsame : myBase x = myBase src) : x = src := by
  have hnone := List.findSome?_eq_none_iff.mp h src hsrc
  obtain ⟨-, hcount⟩ := delBros_spec hnodup src
  have hzero : (delBros srcs src).1 = 0 := by
    by_contra hne
    rw [hchosen, Bool.true_and, if_pos (bne_iff_ne.mpr hne)] at hnone
    exact absurd hnone (by simp)
  rw [hzero, Nat.zero_add] at hcount
  have hkept := List.length_filter_eq_length_iff.mp hcount x hx
  exact (keeps_iff hbase x).mp hkept hsame

section Phases

variable {uptodate : Bytes → Bool} {srcs : List Bytes}

/-- No variant is lost, other than for one that is up to date. -/
structure Cleaned (uptodate : Bytes → Bool) (srcs s : List Bytes) : Prop where
  sublist : s.Sublist srcs
  stays : ∀ x ∈ srcs, x ∈ s ∨ ∃ y ∈ s, myBase y = myBase x ∧ uptodate y = true

theorem Cleaned.step {s s' : List Bytes} (hnodup : srcs.Nodup) (hplain : ∀ src ∈ srcs, PlainBase (myBase src))
    (hclean : Cleaned uptodate srcs s) (h : clean uptodate s = some s') :
    Cleaned uptodate srcs s' ∧ s'.length < s.length := by
  obtain ⟨src, hsrc, hchosen, rfl, hless⟩ := delBrosOf_some (hclean.sublist.nodup hnodup) h
  have hbase := hplain src (hclean.sublist.mem hsrc)
  -- What is not kept has the base of the one that was chosen, and that one is up to date.
  have hreplace : ∀ y ∈ s, y ∈ s.filter (keeps src) ∨
      ∃ z ∈ s.filter (keeps src), myBase z = myBase y ∧ uptodate z = true := by
    intro y hy
    by_cases hkeeps : keeps src y = true
    · exact .inl (List.mem_filter.mpr ⟨hy, hkeeps⟩)
    · rw [keeps_iff hbase, Classical.not_imp] at hkeeps
      exact .inr ⟨src, List.mem_filter.mpr ⟨hsrc, keeps_self src⟩, hkeeps.1.symm, hchosen⟩
  refine ⟨⟨List.filter_sublist.trans hclean.sublist, fun x hx => ?_⟩, hless⟩
  obtain hx | ⟨y, hy, hsame, hup⟩ := hclean.stays x hx
  · exact hreplace x hx
  · obtain hy | ⟨z, hz, hzy, hup⟩ := hreplace y hy
    · exact .inr ⟨y, hy, hsame, hup⟩
    · exact .inr ⟨z, hz, hzy.trans hsame, hup⟩

/-- The place of the suffix in the order of preference. -/
def preference (src : Bytes) : Nat := sfxXzBz2GzLzmaNone.idxOf (mySuffix src)

/-- No variant is lost, other than for one that is preferred. -/
structure Chosen (srcs s : List Bytes) : Prop where
  sublist : s.Sublist srcs
  stays : ∀ x ∈ srcs, ∃ y ∈ s, myBase y = myBase x ∧ preference y ≤ preference x

theorem mem_before {l before after : List Bytes} {a b : Bytes} (hsplit : l = before ++ a :: after)
    (hlt : l.idxOf b < l.idxOf a) : b ∈ before := by
  have hfront : before <+: l := ⟨a :: after, hsplit.symm⟩
  have hplace : l.idxOf a ≤ before.length := by
    rw [hsplit, List.idxOf_append]
    split
    · exact List.idxOf_le_length
    · simp
  exact (hfront.mem_iff_idxOf_lt_length b).mpr (by omega)

/-- The scan takes the first suffix in the order of preference of which some path has brothers. -/
theorem clean2_some {s s' : List Bytes} (h : clean2 s = some s') :
    ∃ suf ∈ sfxXzBz2GzLzma, delBrosOf (fun src => suf.isSuffixOf src) s = some s' ∧
      ∀ suf' ∈ sfxXzBz2GzLzma, sfxXzBz2GzLzmaNone.idxOf suf' < sfxXzBz2GzLzmaNone.idxOf suf →
        delBrosOf (fun src => suf'.isSuffixOf src) s = none := by
  obtain ⟨before, suf, after, horder, hsome, hnone⟩ := List.findSome?_eq_some_iff.mp h
  have hsplit : sfxXzBz2GzLzmaNone = before ++ suf :: (after ++ [[]]) := by rw [sfxXzBz2GzLzmaNone, horder]; simp
  exact ⟨suf, by rw [horder]; simp, hsome, fun suf' _ hlt => hnone suf' (mem_before hsplit hlt)⟩

/-- A path with a suffix in the order of preference, other than the empty one. -/
theorem suffix_iff {src suf : Bytes} (hbase : PlainBase (myBase src)) (hsuf : suf ∈ sfxXzBz2GzLzma) :
    suf.isSuffixOf src = true ↔ mySuffix src = suf := by
  rw [List.isSuffixOf_iff_suffix]
  constructor
  · intro h
    rw [← myBase_append src] at h
    exact (hbase.suffix_eq (mySuffix_mem src) hsuf h).symm
  · rintro rfl
    exact ⟨myBase src, myBase_append src⟩

theorem preference_nil_le {src : Bytes} : preference src ≤ sfxXzBz2GzLzmaNone.idxOf [] := by
  have hall : ∀ suf ∈ sfxXzBz2GzLzmaNone, sfxXzBz2GzLzmaNone.idxOf suf ≤ sfxXzBz2GzLzmaNone.idxOf [] := by
    decide +kernel
  exact hall (mySuffix src) (mySuffix_mem src)

theorem Chosen.step {s s' : List Bytes} (hnodup : srcs.Nodup) (hplain : ∀ src ∈ srcs, PlainBase (myBase src))
    (hchosen : Chosen srcs s) (h : clean2 s = some s') : Chosen srcs s' ∧ s'.length < s.length := by
  have hs := hchosen.sublist.nodup hnodup
  obtain ⟨suf, hsuf, hdel, hfirst⟩ := clean2_some h
  obtain ⟨src, hsrc, hends, rfl, hless⟩ := delBrosOf_some hs hdel
  have hbase := hplain src (hchosen.sublist.mem hsrc)
  have hsuffix := (suffix_iff hbase hsuf).mp hends
  refine ⟨⟨List.filter_sublist.trans hchosen.sublist, fun x hx => ?_⟩, hless⟩
  obtain ⟨y, hy, hsame, hpref⟩ := hchosen.stays x hx
  by_cases hkeeps : keeps src y = true
  · exact ⟨y, List.mem_filter.mpr ⟨hy, hkeeps⟩, hsame, hpref⟩
  · rw [keeps_iff hbase, Classical.not_imp] at hkeeps
    obtain ⟨hbros, hne⟩ := hkeeps
    refine ⟨src, List.mem_filter.mpr ⟨hsrc, keeps_self src⟩, hbros.symm.trans hsame, ?_⟩
    -- A brother that is preferred would have been found before.
    by_contra hworse
    have hbasey := hplain y (hchosen.sublist.mem hy)
    have hlt : preference y < preference src := by omega
    obtain hsufy | hsufy := suffix_cases.mp (mySuffix_mem y)
    · have hnone := hfirst (mySuffix y) hsufy (by rw [← hsuffix]; exact hlt)
      have heq := delBrosOf_none hs hnone hy ((suffix_iff hbasey hsufy).mpr rfl) hbasey hsrc hbros.symm
      exact hne heq.symm
    · have hlast := @preference_nil_le src
      rw [← hsufy] at hlast
      exact absurd hlt (by rw [preference, preference] at *; omega)

/-- When both loops are through, every path is alone. -/
theorem alone_of_clean2_none {s : List Bytes} (hnodup : s.Nodup) (hplain : ∀ src ∈ s, PlainBase (myBase src))
    (h : clean2 s = none) {x y : Bytes} (hx : x ∈ s) (hy : y ∈ s) (hsame : myBase x = myBase y) : x = y := by
  have hnone := List.findSome?_eq_none_iff.mp h
  obtain hsufx | hsufx := suffix_cases.mp (mySuffix_mem x)
  · have hends := (suffix_iff (hplain x hx) hsufx).mpr rfl
    exact (delBrosOf_none hnodup (hnone (mySuffix x) hsufx) hx hends (hplain x hx) hy hsame.symm).symm
  · obtain hsufy | hsufy := suffix_cases.mp (mySuffix_mem y)
    · have hends := (suffix_iff (hplain y hy) hsufy).mpr rfl
      exact delBrosOf_none hnodup (hnone (mySuffix y) hsufy) hy hends (hplain y hy) hx hsame
    · rw [← myBase_append x, ← myBase_append y, hsufx, hsufy, hsame]

/-- The preferred variant is the first that there is in the order of the suffixes. -/
theorem find_preferred {left : Bytes} (hbase : PlainBase (myBase left)) (hleft : left ∈ srcs)
    (hbest : ∀ x ∈ srcs, myBase x = myBase left → preference left ≤ preference x) :
    sfxXzBz2GzLzmaNone.find? (fun suf => myBase left ++ suf ∈ srcs) = some (mySuffix left) := by
  cases hfind : sfxXzBz2GzLzmaNone.find? (fun suf => myBase left ++ suf ∈ srcs) with
  | none =>
    have hnot := List.find?_eq_none.mp hfind (mySuffix left) (mySuffix_mem left)
    rw [myBase_append, decide_eq_true_eq] at hnot
    exact absurd hleft hnot
  | some suf =>
    obtain ⟨hmem, before, after, hsplit, hbefore⟩ := List.find?_eq_some_iff_append.mp hfind
    rw [decide_eq_true_eq] at hmem
    have hsuf : suf ∈ sfxXzBz2GzLzmaNone := List.mem_of_find?_eq_some hfind
    have hle := hbest (myBase left ++ suf) hmem (hbase.myBase hsuf)
    rw [preference, preference, hbase.mySuffix hsuf] at hle
    have hge : ¬ sfxXzBz2GzLzmaNone.idxOf (mySuffix left) < sfxXzBz2GzLzmaNone.idxOf suf := by
      intro hlt
      have hnot := hbefore (mySuffix left) (mem_before hsplit hlt)
      rw [myBase_append] at hnot
      simp [hleft] at hnot
    rw [(List.idxOf_inj hsuf).mp (by omega : sfxXzBz2GzLzmaNone.idxOf suf = sfxXzBz2GzLzmaNone.idxOf (mySuffix left))]

end Phases

/-- One scan more than there are paths is enough. Of the variants of each path one is left, an up-to-date one if there
is any, and the first in the order of the suffixes otherwise. -/
theorem stripVariants_chooses (uptodate : Bytes → Bool) {srcs : List Bytes} (hnodup : srcs.Nodup)
    (hplain : ∀ src ∈ srcs, PlainBase (myBase src)) :
    ∃ r, stripVariants uptodate (srcs.length + 1) srcs = some r ∧ r.Sublist srcs ∧
      ∀ src ∈ srcs, ∃ left ∈ r, (∀ x ∈ r, myBase x = myBase src ↔ x = left) ∧
        if ∃ x ∈ srcs, myBase x = myBase src ∧ uptodate x = true then uptodate left = true
        else sfxXzBz2GzLzmaNone.find? (fun suf => myBase src ++ suf ∈ srcs) = some (mySuffix left) := by
  obtain ⟨s, hphase1, hcleaned, hclean⟩ :=
    @restart_ends _ (clean uptodate) (Cleaned uptodate srcs) List.length
      (fun _ _ hs h => hs.step hnodup hplain h) (srcs.length + 1) srcs (Nat.lt_succ_self _)
      ⟨List.Sublist.refl srcs, fun _ hx => .inl hx⟩
  have hnodups := hcleaned.sublist.nodup hnodup
  have hplains : ∀ src ∈ s, PlainBase (myBase src) := fun src hsrc => hplain src (hcleaned.sublist.mem hsrc)
  obtain ⟨r, hphase2, hchosen, hclean2⟩ :=
    @restart_ends _ clean2 (Chosen s) List.length (fun _ _ hr h => hr.step hnodups hplains h) (srcs.length + 1) s
      (Nat.lt_succ_of_le hcleaned.sublist.length_le) ⟨List.Sublist.refl s, fun x hx => ⟨x, hx, rfl, le_rfl⟩⟩
  have hplainr : ∀ src ∈ r, PlainBase (myBase src) := fun src hsrc => hplains src (hchosen.sublist.mem hsrc)
  have halone := @alone_of_clean2_none r (hchosen.sublist.nodup hnodups) hplainr hclean2
  refine ⟨r, by rw [stripVariants, hphase1]; exact hphase2, hchosen.sublist.trans hcleaned.sublist, fun src hsrc => ?_⟩
  -- Something with the base of the path comes through the first loop, and something with that base through the second.
  obtain ⟨y, hy, hybase⟩ : ∃ y ∈ s, myBase y = myBase src := by
    obtain hs | ⟨y, hy, hybase, -⟩ := hcleaned.stays src hsrc
    · exact ⟨src, hs, rfl⟩
    · exact ⟨y, hy, hybase⟩
  obtain ⟨left, hleft, hleftbase, -⟩ := hchosen.stays y hy
  rw [hybase] at hleftbase
  refine ⟨left, hleft, fun x hx => ⟨fun hsame => halone hx hleft (hsame.trans hleftbase.symm), ?_⟩, ?_⟩
  · rintro rfl
    exact hleftbase
  split
  · rename_i hup
    obtain ⟨x, hx, hxbase, hup⟩ := hup
    obtain ⟨z, hz, hzbase, hup⟩ : ∃ z ∈ s, myBase z = myBase src ∧ uptodate z = true := by
      obtain hs | ⟨z, hz, hzbase, hupz⟩ := hcleaned.stays x hx
      · exact ⟨x, hs, hxbase, hup⟩
      · exact ⟨z, hz, hzbase.trans hxbase, hupz⟩
    have hleftz := delBrosOf_none hnodups hclean hz hup (hplains z hz) (hchosen.sublist.mem hleft)
      (hleftbase.trans hzbase.symm)
    rw [hleftz]
    exact hup
  · rename_i hnone
    rw [← hleftbase]
    refine find_preferred (hplainr left hleft) ((hchosen.sublist.trans hcleaned.sublist).mem hleft) ?_
    intro x hx hsame
    have hxs : x ∈ s := (hcleaned.stays x hx).resolve_right (fun ⟨z, hz, hzx, hup⟩ => hnone
      ⟨z, hcleaned.sublist.mem hz, hzx.trans (hsame.trans hleftbase), hup⟩)
    obtain ⟨best, hbest, hbestx, hle⟩ := hchosen.stays x hxs
    rw [← halone hbest hleft (hbestx.trans hsame)]
    exact hle

theorem stripVariants_chooses_four :
    let srcs := [lit "a.gz", lit "a", lit "b.bz2", lit "b.xz"]
    let uptodate := fun src : Bytes => src == lit "a"
    ∃ r, stripVariants uptodate (srcs.length + 1) srcs = some r ∧ r.Sublist srcs ∧
      ∀ src ∈ srcs, ∃ left ∈ r, (∀ x ∈ r, myBase x = myBase src ↔ x = left) ∧
        if ∃ x ∈ srcs, myBase x = myBase src ∧ uptodate x = true then uptodate left = true
        else sfxXzBz2GzLzmaNone.find? (fun suf => myBase src ++ suf ∈ srcs) = some (mySuffix left) :=
  stripVariants_chooses (fun src => src == lit "a") (by decide +kernel) (by decide +kernel)

end Acng
