import Acng.GetOneLine
import Mathlib.Data.List.SplitBy

namespace Acng
open Lib

/-- Lines of a text with marks, as `GetOneLine` takes them: two line ends of different kinds are one, but not
across a mark. -/
def cutLines : List (UInt8 × Bool) → List Bytes
  | [] => [[]]
  | [(c, _)] => if lineEnd c then [[], []] else [[c]]
  | (c, cut) :: (d, cut') :: t =>
    if !lineEnd c then consHead c (cutLines ((d, cut') :: t))
    else if !cut && lineEnd d && c != d then [] :: cutLines t
    else [] :: cutLines ((d, cut') :: t)

/-- A piece with a mark at its end. -/
def marked : Bytes → List (UInt8 × Bool)
  | [] => []
  | [c] => [(c, true)]
  | c :: d :: t => (c, false) :: marked (d :: t)

def unmarked (s : Bytes) : List (UInt8 × Bool) := s.map (fun c => (c, false))

/-- Two line ends that may be one. -/
def alternates (a b : UInt8 × Bool) : Bool := lineEnd a.1 && lineEnd b.1 && a.1 != b.1

/-- The lines of runs of alternating line ends, one after the other, with so many line ends for each run. -/
def runLines (ends : List (UInt8 × Bool) → Nat) : List (List (UInt8 × Bool)) → List Bytes
  | [] => [[]]
  | run :: runs =>
    if run.all (fun a => lineEnd a.1) then List.replicate (ends run) [] ++ runLines ends runs
    else run.foldr (fun a lines => consHead a.1 lines) (runLines ends runs)

/-- The line ends of a run. -/
def lineEnds : List (UInt8 × Bool) → Nat
  | [] => 0
  | [_] => 1
  | (_, cut) :: b :: t => if cut then 1 + lineEnds (b :: t) else 1 + lineEnds t

theorem consHead_cutLines (c : UInt8) (cut : Bool) (hc : lineEnd c = false) (t : List (UInt8 × Bool)) :
    cutLines ((c, cut) :: t) = consHead c (cutLines t) := by
  cases t with
  | nil => simp only [cutLines, hc, Bool.false_eq_true, if_false, consHead]
  | cons b t => rw [cutLines, hc]; rfl

/-- A line end that is not one with what is behind it. -/
theorem cutLines_single (c : UInt8) (cut : Bool) (hc : lineEnd c = true) (t : List (UInt8 × Bool))
    (ht : cut = true ∨ ∀ b ∈ t.head?, alternates (c, cut) b = false) :
    cutLines ((c, cut) :: t) = [] :: cutLines t := by
  cases t with
  | nil => simp only [cutLines, hc, if_true]
  | cons b t =>
    obtain ⟨d, cut'⟩ := b
    have hno : (!cut && lineEnd d && c != d) = false := by
      obtain rfl | ht := ht
      · rfl
      · have := ht (d, cut') rfl
        rw [alternates, hc, Bool.true_and] at this
        rw [Bool.and_assoc, this, Bool.and_false]
    rw [cutLines, hc, hno]
    rfl

theorem cutLines_pair (c d : UInt8) (cut' : Bool) (h : alternates (c, false) (d, cut') = true)
    (t : List (UInt8 × Bool)) : cutLines ((c, false) :: (d, cut') :: t) = [] :: cutLines t := by
  rw [alternates, Bool.and_eq_true, Bool.and_eq_true] at h
  obtain ⟨⟨hc, hd⟩, hne⟩ := h
  simp only at hc hd hne
  rw [cutLines, hc, hd, hne]
  rfl

/-- In a run every step is from one kind of line end to the other. -/
theorem cutLines_run (run rest : List (UInt8 × Bool)) (hends : ∀ a ∈ run, lineEnd a.1 = true)
    (hchain : run.IsChain (fun a b => alternates a b = true))
    (hrest : ∀ a ∈ run.getLast?, ∀ b ∈ rest.head?, alternates a b = false) :
    cutLines (run ++ rest) = List.replicate (lineEnds run) [] ++ cutLines rest := by
  fun_induction lineEnds run with
  | case1 => rfl
  | case2 a =>
    have ha : lineEnd a.1 = true := hends a List.mem_cons_self
    have hlast : ∀ b ∈ rest.head?, alternates a b = false := hrest a rfl
    exact cutLines_single a.1 a.2 ha rest (.inr hlast)
  | case3 c b t ih =>
    obtain ⟨hc, hends⟩ := List.forall_mem_cons.mp hends
    have hlast : ∀ a ∈ (b :: t).getLast?, ∀ b ∈ rest.head?, alternates a b = false := by
      rwa [List.getLast?_cons_cons] at hrest
    rw [List.cons_append, cutLines_single c true hc _ (.inl rfl), ih hends hchain.tail hlast,
      Nat.add_comm, List.replicate_succ]
    rfl
  | case4 c cut b t hcut ih =>
    obtain rfl : cut = false := by simpa using hcut
    obtain ⟨-, hends⟩ := List.forall_mem_cons.mp hends
    obtain ⟨-, hends⟩ := List.forall_mem_cons.mp hends
    obtain ⟨hpair, hchain⟩ := List.isChain_cons_cons.mp hchain
    have hlast : ∀ a ∈ t.getLast?, ∀ b ∈ rest.head?, alternates a b = false := by
      intro a ha
      refine hrest a ?_
      cases t with
      | nil => simp at ha
      | cons x t => simpa using ha
    rw [List.cons_append, List.cons_append, cutLines_pair c b.1 b.2 hpair,
      ih hends hchain.tail hlast, Nat.add_comm, List.replicate_succ]
    rfl

/-- Runs, each as long as it can be. -/
structure Runs (runs : List (List (UInt8 × Bool))) : Prop where
  nonempty : [] ∉ runs
  chain : ∀ run ∈ runs, run.IsChain (fun a b => alternates a b = true)
  apart : runs.IsChain (fun a b => ∃ ha hb, alternates (a.getLast ha) (b.head hb) = false)

theorem runs_splitBy (s : List (UInt8 × Bool)) : Runs (s.splitBy alternates) where
  nonempty := List.nil_notMem_splitBy alternates s
  chain _ hrun := List.isChain_of_mem_splitBy hrun
  apart := List.isChain_getLast_head_splitBy alternates s

theorem Runs.tail {run : List (UInt8 × Bool)} {runs : List (List (UInt8 × Bool))} (h : Runs (run :: runs)) :
    Runs runs where
  nonempty hnil := h.nonempty (List.mem_cons_of_mem _ hnil)
  chain _ hrun := h.chain _ (List.mem_cons_of_mem _ hrun)
  apart := h.apart.tail

/-- The last character of a run does not go with what is behind it. -/
theorem Runs.rest {run : List (UInt8 × Bool)} {runs : List (List (UInt8 × Bool))} (h : Runs (run :: runs)) :
    ∀ a ∈ run.getLast?, ∀ b ∈ runs.flatten.head?, alternates a b = false := by
  intro a ha b hb
  cases runs with
  | nil => simp at hb
  | cons run' runs =>
    obtain ⟨⟨hne, hne', hapart⟩, -⟩ := List.isChain_cons_cons.mp h.apart
    rw [List.getLast?_eq_some_getLast hne, Option.mem_some] at ha
    rw [List.flatten_cons, List.head?_append_of_ne_nil _ hne', List.head?_eq_some_head hne',
      Option.mem_some] at hb
    rwa [← ha, ← hb]

/-- A character that is no line end is alone. -/
theorem run_text {run : List (UInt8 × Bool)} (hchain : run.IsChain (fun a b => alternates a b = true))
    (h : run.all (fun a => lineEnd a.1) = false) (hne : run ≠ []) :
    ∃ a, run = [a] ∧ lineEnd a.1 = false := by
  induction run with
  | nil => exact absurd rfl hne
  | cons a t ih =>
    cases t with
    | nil => exact ⟨a, rfl, by simpa using h⟩
    | cons b t =>
      obtain ⟨hab, hchain⟩ := List.isChain_cons_cons.mp hchain
      rw [alternates, Bool.and_eq_true, Bool.and_eq_true] at hab
      rw [List.all_cons, hab.1.1, Bool.true_and] at h
      obtain ⟨x, hx, hend⟩ := ih hchain h (by simp)
      obtain ⟨rfl, rfl⟩ := List.cons_eq_cons.mp hx
      exact absurd hab.1.2 (by simp [hend])

theorem cutLines_runs {runs : List (List (UInt8 × Bool))} (h : Runs runs) :
    cutLines runs.flatten = runLines lineEnds runs := by
  induction runs with
  | nil => rfl
  | cons run runs ih =>
    have hchain := h.chain run List.mem_cons_self
    rw [List.flatten_cons, runLines, ← ih h.tail]
    cases hall : run.all (fun a => lineEnd a.1) with
    | true => exact cutLines_run run _ (List.all_eq_true.mp hall) hchain h.rest
    | false =>
      obtain ⟨a, rfl, ha⟩ := run_text hchain hall (fun hnil => h.nonempty (hnil ▸ List.mem_cons_self))
      exact consHead_cutLines a.1 a.2 ha _

/-- In a part without a mark inside every second character ends no line. -/
theorem lineEnds_part (part rest : List (UInt8 × Bool))
    (hchain : part.IsChain (fun a _ => (!a.2) = true))
    (hrest : ∀ a ∈ part.getLast?, rest = [] ∨ a.2 = true) :
    lineEnds (part ++ rest) = (part.length + 1) / 2 + lineEnds rest := by
  fun_induction lineEnds part with
  | case1 => simp
  | case2 a =>
    cases rest with
    | nil => simp [lineEnds]
    | cons b rest =>
      have ha : a.2 = true := (hrest a rfl).resolve_left (by simp)
      rw [List.singleton_append, lineEnds, if_pos ha, List.length_singleton]
  | case3 c b t ih => exact absurd (List.isChain_cons_cons.mp hchain).1 (by simp)
  | case4 c cut b t hcut ih =>
    have hlast : ∀ a ∈ t.getLast?, rest = [] ∨ a.2 = true := by
      intro a ha
      refine hrest a ?_
      cases t with
      | nil => simp at ha
      | cons x t => simpa using ha
    have := ih hchain.tail.tail hlast
    rw [List.cons_append, List.cons_append, lineEnds, if_neg hcut, this, List.length_cons,
      List.length_cons]
    omega

/-- The parts that the marks make of a run. -/
def markParts (run : List (UInt8 × Bool)) : List (List (UInt8 × Bool)) := run.splitBy (fun a _ => !a.2)

def oddParts (run : List (UInt8 × Bool)) : Nat := (markParts run).countP (fun part => part.length % 2 == 1)

/-- A part of odd length has one line end more than its half. -/
theorem two_lineEnds_flatten (parts : List (List (UInt8 × Bool)))
    (hchain : ∀ part ∈ parts, part.IsChain (fun a _ => (!a.2) = true))
    (hapart : parts.IsChain (fun a b => ∃ (ha : a ≠ []) (_ : b ≠ []), (!(a.getLast ha).2) = false)) :
    2 * lineEnds parts.flatten =
      parts.flatten.length + parts.countP (fun part => part.length % 2 == 1) := by
  induction parts with
  | nil => rfl
  | cons part parts ih =>
    have hrest : ∀ a ∈ part.getLast?, parts.flatten = [] ∨ a.2 = true := by
      intro a ha
      cases parts with
      | nil => exact .inl rfl
      | cons part' parts =>
        obtain ⟨⟨hne, -, hcut⟩, -⟩ := List.isChain_cons_cons.mp hapart
        rw [List.getLast?_eq_some_getLast hne, Option.mem_some] at ha
        exact .inr (by rw [← ha]; simpa using hcut)
    have hparts := ih (fun part hpart => hchain part (List.mem_cons_of_mem _ hpart)) hapart.tail
    rw [List.flatten_cons, lineEnds_part part _ (hchain part List.mem_cons_self) hrest,
      List.length_append, List.countP_cons]
    by_cases hodd : part.length % 2 = 1
    · rw [if_pos (by simpa using hodd)]
      omega
    · rw [if_neg (by simpa using hodd)]
      omega

theorem two_lineEnds (run : List (UInt8 × Bool)) : 2 * lineEnds run = run.length + oddParts run := by
  have h := two_lineEnds_flatten (markParts run) (fun _ hpart => List.isChain_of_mem_splitBy hpart)
    (List.isChain_getLast_head_splitBy (fun a _ => !a.2) run)
  rwa [markParts, List.flatten_splitBy] at h

/-- The text without its marks. -/
def unmark (s : List (UInt8 × Bool)) : List (UInt8 × Bool) := s.map (fun a => (a.1, false))

theorem lineEnds_unmark (run : List (UInt8 × Bool)) : lineEnds (unmark run) = (run.length + 1) / 2 := by
  have hchain : (unmark run).IsChain (fun a _ => (!a.2) = true) :=
    (List.isChain_map _).mpr (List.Pairwise.isChain (List.pairwise_of_forall (fun _ _ => rfl)))
  have := lineEnds_part (unmark run) [] hchain (fun _ _ => .inl rfl)
  simpa [unmark, lineEnds] using this

/-- Only the marks in front of which an odd number of characters is left make more lines. -/
theorem lineEnds_eq_iff (run : List (UInt8 × Bool)) :
    lineEnds run = lineEnds (unmark run) ↔ oddParts run ≤ 1 := by
  have h := two_lineEnds run
  rw [lineEnds_unmark]
  omega

theorem lineEnds_unmark_le (run : List (UInt8 × Bool)) : lineEnds (unmark run) ≤ lineEnds run := by
  have h := two_lineEnds run
  rw [lineEnds_unmark]
  omega

theorem Runs.unmark {runs : List (List (UInt8 × Bool))} (h : Runs runs) : Runs (runs.map unmark) where
  nonempty hnil := by
    obtain ⟨run, hrun, hempty⟩ := List.mem_map.mp hnil
    obtain rfl := List.map_eq_nil_iff.mp hempty
    exact h.nonempty hrun
  chain run hrun := by
    obtain ⟨run', hrun', rfl⟩ := List.mem_map.mp hrun
    exact (List.isChain_map _).mpr (h.chain run' hrun')
  apart := by
    refine (List.isChain_map _).mpr (h.apart.imp ?_)
    rintro a b ⟨ha, hb, hapart⟩
    refine ⟨by simpa [Acng.unmark] using ha, by simpa [Acng.unmark] using hb, ?_⟩
    simpa [Acng.unmark, alternates] using hapart

theorem length_consHead (c : UInt8) {lines : List Bytes} (h : lines ≠ []) :
    (consHead c lines).length = lines.length := by
  cases lines with
  | nil => exact absurd rfl h
  | cons line lines => rfl

theorem foldr_consHead_ne_nil (run : List (UInt8 × Bool)) {lines : List Bytes} (h : lines ≠ []) :
    run.foldr (fun a lines => consHead a.1 lines) lines ≠ [] := by
  induction run with
  | nil => exact h
  | cons a run ih => exact List.ne_nil_of_length_pos (by
      rw [List.foldr_cons, length_consHead a.1 ih]
      exact List.length_pos_iff.mpr ih)

theorem length_foldr_consHead (run : List (UInt8 × Bool)) {lines : List Bytes} (h : lines ≠ []) :
    (run.foldr (fun a lines => consHead a.1 lines) lines).length = lines.length := by
  induction run with
  | nil => rfl
  | cons a run ih => rw [List.foldr_cons, length_consHead a.1 (foldr_consHead_ne_nil run h), ih]

theorem runLines_ne_nil (ends : List (UInt8 × Bool) → Nat) (runs : List (List (UInt8 × Bool))) :
    runLines ends runs ≠ [] := by
  induction runs with
  | nil => simp [runLines]
  | cons run runs ih =>
    rw [runLines]
    split
    · exact List.append_ne_nil_of_right_ne_nil _ ih
    · exact foldr_consHead_ne_nil run ih

/-- More line ends make more lines. -/
theorem length_runLines_le {few many : List (UInt8 × Bool) → Nat} (hle : ∀ run, few run ≤ many run)
    (runs : List (List (UInt8 × Bool))) : (runLines few runs).length ≤ (runLines many runs).length := by
  induction runs with
  | nil => exact Nat.le_refl _
  | cons run runs ih =>
    rw [runLines, runLines]
    split
    · have := hle run
      rw [List.length_append, List.length_append, List.length_replicate, List.length_replicate]
      omega
    · rwa [length_foldr_consHead run (runLines_ne_nil few runs),
        length_foldr_consHead run (runLines_ne_nil many runs)]

theorem runLines_eq_iff {few many : List (UInt8 × Bool) → Nat} (hle : ∀ run, few run ≤ many run)
    (runs : List (List (UInt8 × Bool))) :
    runLines many runs = runLines few runs ↔
      ∀ run ∈ runs, run.all (fun a => lineEnd a.1) = true → many run = few run := by
  refine ⟨fun heq => ?_, fun hruns => ?_⟩
  · have hlen := congrArg List.length heq
    clear heq
    induction runs with
    | nil => simp
    | cons run runs ih =>
      have hrest := length_runLines_le hle runs
      rw [runLines, runLines] at hlen
      split at hlen
      · have := hle run
        rw [List.length_append, List.length_append, List.length_replicate, List.length_replicate] at hlen
        exact List.forall_mem_cons.mpr ⟨fun _ => by omega, ih (by omega)⟩
      · rename_i htext
        rw [length_foldr_consHead run (runLines_ne_nil few runs),
          length_foldr_consHead run (runLines_ne_nil many runs)] at hlen
        exact List.forall_mem_cons.mpr ⟨fun hends => absurd hends htext, ih hlen⟩
  · induction runs with
    | nil => rfl
    | cons run runs ih =>
      obtain ⟨hrun, hruns⟩ := List.forall_mem_cons.mp hruns
      rw [runLines, runLines, ih hruns]
      split
      · rename_i hends
        rw [hrun hends]
      · rfl

theorem runLines_unmark (runs : List (List (UInt8 × Bool))) :
    runLines lineEnds (runs.map unmark) = runLines (fun run => lineEnds (unmark run)) runs := by
  induction runs with
  | nil => rfl
  | cons run runs ih =>
    rw [List.map_cons, runLines, runLines, ih]
    simp only [unmark, List.all_map, List.foldr_map, Function.comp_def]

/-- Marks make no other lines if they cut off at most one part of odd length from each run. -/
theorem cutLines_eq_unmark_iff (s : List (UInt8 × Bool)) :
    cutLines s = cutLines (unmark s) ↔ ∀ run ∈ s.splitBy alternates, oddParts run ≤ 1 := by
  have hruns := runs_splitBy s
  have hs : (s.splitBy alternates).flatten = s := List.flatten_splitBy alternates s
  have hun : ((s.splitBy alternates).map unmark).flatten = unmark s := by
    conv_rhs => rw [← hs]
    exact List.map_flatten.symm
  have hlines := cutLines_runs hruns
  have hclear := cutLines_runs hruns.unmark
  rw [hs] at hlines
  rw [hun, runLines_unmark] at hclear
  rw [hlines, hclear, runLines_eq_iff lineEnds_unmark_le]
  refine forall₂_congr (fun run hrun => ?_)
  rw [lineEnds_eq_iff]
  refine ⟨fun h => ?_, fun h _ => h⟩
  cases hall : run.all (fun a => lineEnd a.1) with
  | true => exact h hall
  | false =>
    obtain ⟨a, rfl, -⟩ := run_text (hruns.chain run hrun) hall
      (List.ne_nil_of_mem_splitBy hrun)
    exact Nat.le_refl 1

theorem cutLines_ne_nil (s : List (UInt8 × Bool)) : cutLines s ≠ [] := by
  have h := cutLines_runs (runs_splitBy s)
  rw [List.flatten_splitBy] at h
  rw [h]
  exact runLines_ne_nil lineEnds _

theorem consHead_append (c : UInt8) {lines : List Bytes} (h : lines ≠ []) (more : List Bytes) :
    consHead c (lines ++ more) = consHead c lines ++ more := by
  cases lines with
  | nil => exact absurd rfl h
  | cons line lines => rfl

/-- Without an end of its last line a plain file has one line more. -/
theorem fileLines_eq_cutLines (s : Bytes) :
    fileLines s = cutLines (unmarked s) ++ (if s.getLast?.all lineEnd then [] else [[]]) := by
  fun_induction fileLines s with
  | case1 => rfl
  | case2 c hc => simp [unmarked, cutLines, hc]
  | case3 c hc => simp [unmarked, cutLines, hc]
  | case4 c d t hc ih =>
    have hc : lineEnd c = false := by simpa using hc
    have htext : cutLines (unmarked (c :: d :: t)) = consHead c (cutLines (unmarked (d :: t))) :=
      consHead_cutLines c false hc _
    rw [ih, htext, List.getLast?_cons_cons, consHead_append c (cutLines_ne_nil _)]
  | case5 c d t hc hpair ih =>
    have hpair : alternates (c, false) (d, false) = true := by
      have hc : lineEnd c = true := by simpa using hc
      rw [alternates, hc, Bool.true_and]
      exact hpair
    have hend : lineEnd d = true := by
      rw [alternates, Bool.and_eq_true, Bool.and_eq_true] at hpair
      exact hpair.1.2
    have hlines : cutLines (unmarked (c :: d :: t)) = [] :: cutLines (unmarked t) :=
      cutLines_pair c d false hpair _
    have hlast : (c :: d :: t).getLast?.all lineEnd = t.getLast?.all lineEnd := by
      cases t with
      | nil => simpa using hend
      | cons x t => rw [List.getLast?_cons_cons, List.getLast?_cons_cons]
    rw [ih, hlines, hlast, List.cons_append]
  | case6 c d t hc hpair ih =>
    have hc : lineEnd c = true := by simpa using hc
    have hlines : cutLines (unmarked (c :: d :: t)) = [] :: cutLines (unmarked (d :: t)) := by
      refine cutLines_single c false hc _ (.inr (fun b hb => ?_))
      obtain rfl : (d, false) = b := by simpa [unmarked] using hb
      rw [alternates, Bool.and_assoc, Bool.eq_false_of_not_eq_true hpair, Bool.and_false]
    rw [ih, hlines, List.getLast?_cons_cons, List.cons_append]

/-- The last line of a text that ends in no line end is not empty. -/
theorem cutLines_getLast (s : List (UInt8 × Bool)) (h : s.getLast?.all (fun a => lineEnd a.1) = false) :
    ∃ line, (cutLines s).getLast? = some line ∧ line ≠ [] := by
  fun_induction cutLines s with
  | case1 => simp at h
  | case2 c cut hc => simp [hc] at h
  | case3 c cut hc => exact ⟨[c], rfl, by simp⟩
  | case4 c cut d cut' t hc ih =>
    rw [List.getLast?_cons_cons] at h
    obtain ⟨line, hline, hne⟩ := ih h
    cases hlines : cutLines ((d, cut') :: t) with
    | nil => exact absurd hlines (cutLines_ne_nil _)
    | cons first lines =>
      rw [hlines] at hline
      cases lines with
      | nil => exact ⟨c :: first, rfl, by simp⟩
      | cons second lines => exact ⟨line, by simpa [consHead] using hline, hne⟩
  | case5 c cut d cut' t hc hpair ih =>
    have hend : lineEnd d = true := by
      rw [Bool.and_eq_true, Bool.and_eq_true] at hpair
      exact hpair.1.2
    cases t with
    | nil => simp [hend] at h
    | cons x t =>
      rw [List.getLast?_cons_cons, List.getLast?_cons_cons] at h
      obtain ⟨line, hline, hne⟩ := ih h
      exact ⟨line, by rw [List.getLast?_cons, hline]; rfl, hne⟩
  | case6 c cut d cut' t hc hpair ih =>
    rw [List.getLast?_cons_cons] at h
    obtain ⟨line, hline, hne⟩ := ih h
    exact ⟨line, by rw [List.getLast?_cons, hline]; rfl, hne⟩

/-- When marks make no difference to the lines of a plain file. -/
theorem cutLines_eq_fileLines_iff (s : List (UInt8 × Bool)) :
    cutLines s = fileLines (s.map Prod.fst) ↔
      s.getLast?.all (fun a => lineEnd a.1) = true ∧ ∀ run ∈ s.splitBy alternates, oddParts run ≤ 1 := by
  have hun : unmarked (s.map Prod.fst) = unmark s := List.map_map
  have hlast : (s.map Prod.fst).getLast?.all lineEnd = s.getLast?.all (fun a => lineEnd a.1) := by
    rw [List.getLast?_map, Option.all_map]
  rw [fileLines_eq_cutLines, hun, hlast, ← cutLines_eq_unmark_iff]
  cases hend : s.getLast?.all (fun a => lineEnd a.1) with
  | true => simp
  | false =>
    obtain ⟨line, hline, hne⟩ := cutLines_getLast s hend
    refine iff_of_false (fun heq => hne ?_) (fun h => absurd h.1 (by simp))
    have := congrArg List.getLast? heq
    rw [hline] at this
    simpa using this

end Acng
