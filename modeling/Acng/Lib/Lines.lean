import Acng.Lib.Find

namespace Acng.Lib

/-- Every line with its end. -/
def unlines (ls : List Bytes) : Bytes := ls.flatMap (· ++ crlf)

@[simp] theorem unlines_nil : unlines [] = [] := rfl

@[simp] theorem unlines_cons (l : Bytes) (ls : List Bytes) :
    unlines (l :: ls) = l ++ crlf ++ unlines ls := by
  simp [unlines]

/-- A line end separates whatever stands on its two sides. -/
theorem slices_append_crlf (s t : Bytes) :
    slices crlf 0 (s ++ crlf ++ t) = slices crlf 0 s ++ slices crlf 0 t := by
  induction hn : s.length using Nat.strong_induction_on generalizing s with
  | _ n ih =>
    cases s with
    | nil => exact slices_crlf t
    | cons c s =>
      cases hc : crlf.isPrefixOf (c :: s) with
      | true =>
        obtain ⟨u, rfl, rfl⟩ := crlf_front c s hc
        rw [List.cons_append, List.cons_append, List.cons_append, List.cons_append, slices_crlf,
          slices_crlf, ih u.length (by simp only [← hn, List.length_cons]; omega) u rfl,
          List.cons_append]
      | false =>
        have hno : crlf.isPrefixOf (c :: (s ++ crlf ++ t)) = false := by
          cases s with
          | nil => simp [crlf, List.isPrefixOf]
          | cons d s => simpa [crlf, List.isPrefixOf] using hc
        rw [List.cons_append, List.cons_append, slices_cons c _ hno, slices_cons c s hc,
          ih s.length (by simp [← hn]) s rfl]
        cases hs : slices crlf 0 s with
        | nil => exact absurd hs (slices_ne_nil _ _ _)
        | cons l ls => rfl

theorem slices_unlines (ls : List Bytes) (t : Bytes) :
    slices crlf 0 (unlines ls ++ t) = ls.flatMap (slices crlf 0) ++ slices crlf 0 t := by
  induction ls with
  | nil => rfl
  | cons l ls ih =>
    rw [unlines_cons, List.append_assoc, slices_append_crlf, ih, List.flatMap_cons, List.append_assoc]

/-- A text without line feeds is one line. -/
theorem slices_line (s : Bytes) (h : 10 ∉ s) : slices crlf 0 s = [s] := by
  induction s with
  | nil => rfl
  | cons c s ih =>
    have hc : crlf.isPrefixOf (c :: s) = false := by
      rw [← Bool.not_eq_true]
      intro hp
      obtain ⟨t, -, rfl⟩ := crlf_front c s hp
      simp at h
    rw [slices_cons c s hc, ih (fun hm => h (List.mem_cons_of_mem c hm))]
    rfl

/-- Text without carriage returns goes to the front of the first line. -/
theorem slices_behind (pre s l : Bytes) (ls : List Bytes) (h : 13 ∉ pre)
    (hs : slices crlf 0 s = l :: ls) : slices crlf 0 (pre ++ s) = (pre ++ l) :: ls := by
  induction pre with
  | nil => exact hs
  | cons c pre ih =>
    have hc : crlf.isPrefixOf (c :: (pre ++ s)) = false := by
      rw [← Bool.not_eq_true]
      intro hp
      obtain ⟨t, rfl, -⟩ := crlf_front c _ hp
      exact h List.mem_cons_self
    rw [List.cons_append, slices_cons c _ hc, ih (fun hm => h (List.mem_cons_of_mem c hm))]
    rfl

/-- The lines put together again. -/
theorem intercalate_slices (s : Bytes) : crlf.intercalate (slices crlf 0 s) = s := by
  induction hn : s.length using Nat.strong_induction_on generalizing s with
  | _ n ih =>
    cases s with
    | nil => rfl
    | cons c s =>
      cases hc : crlf.isPrefixOf (c :: s) with
      | true =>
        obtain ⟨u, rfl, rfl⟩ := crlf_front c s hc
        have hu := ih u.length (by simp only [← hn, List.length_cons]; omega) u rfl
        rw [slices_crlf]
        cases hs : slices crlf 0 u with
        | nil => exact absurd hs (slices_ne_nil _ _ _)
        | cons l ls =>
          rw [hs] at hu
          rw [List.intercalate_cons_cons, hu]
          rfl
      | false =>
        have hu := ih s.length (by simp [← hn]) s rfl
        rw [slices_cons c s hc]
        cases hs : slices crlf 0 s with
        | nil => exact absurd hs (slices_ne_nil _ _ _)
        | cons l ls =>
          rw [hs] at hu
          cases ls with
          | nil => simpa [consHead] using hu
          | cons m ls =>
            rw [List.intercalate_cons_cons] at hu
            rw [consHead, List.intercalate_cons_cons, List.cons_append, List.cons_append, hu]

theorem slices_front (s l : Bytes) (ls : List Bytes) (h : slices crlf 0 s = l :: ls) : l <+: s := by
  have hi := intercalate_slices s
  rw [h] at hi
  rw [← hi]
  cases ls with
  | nil => simp
  | cons m ls =>
    rw [List.intercalate_cons_cons, List.append_assoc]
    exact List.prefix_append _ _

/-- A text that ends with its first empty line. -/
def OneHead (t : Bytes) : Prop := ∃ p, find (crlf ++ crlf) t = some p ∧ p + 4 = t.length

/-- A text brings no empty line into the lines it is put into. -/
def NoBlankLine (t : Bytes) : Prop := ∀ l ∈ (slices crlf 0 t).tail, l ≠ []

instance (t : Bytes) : Decidable (NoBlankLine t) := inferInstanceAs (Decidable (∀ _ ∈ _, _))

theorem slices_sum (t : Bytes) :
    ((slices crlf 0 t).map (fun l : Bytes => l.length + 2)).sum = t.length + 2 :=
  slices_length crlf (List.cons_ne_nil _ _) 0 t (Nat.zero_le _)

/-- The first of the elements that are empty. -/
theorem exists_first_nil (ls : List Bytes) (h : ¬ ∀ l ∈ ls, l ≠ []) :
    ∃ done rest, ls = done ++ [] :: rest ∧ ∀ l ∈ done, l ≠ [] := by
  induction ls with
  | nil => exact absurd (fun _ hl => absurd hl List.not_mem_nil) h
  | cons m ls ih =>
    by_cases hm : m = []
    · exact ⟨[], ls, by rw [hm, List.nil_append], fun _ hl => absurd hl List.not_mem_nil⟩
    · obtain ⟨done, rest, rfl, hd⟩ := ih (fun hall => h (fun l hl => by
        rcases List.mem_cons.mp hl with rfl | hl
        · exact hm
        · exact hall l hl))
      refine ⟨m :: done, rest, rfl, fun l hl => ?_⟩
      rcases List.mem_cons.mp hl with rfl | hl
      · exact hm
      · exact hd l hl

/-- A text of lines ends with its first empty line if and only if no line brings another one. -/
theorem oneHead_iff_lines (t it : Bytes) (ls : List Bytes)
    (h : slices crlf 0 t = it :: (ls ++ [[], []])) : OneHead t ↔ ∀ l ∈ ls, l ≠ [] := by
  have hsum := slices_sum t
  rw [h] at hsum
  simp only [List.map_cons, List.map_append, List.sum_cons, List.sum_append, List.map_nil,
    List.sum_nil, List.length_nil] at hsum
  constructor
  · rintro ⟨p, hp, hlen⟩
    by_contra hne
    obtain ⟨done, rest, rfl, hd⟩ := exists_first_nil ls hne
    obtain ⟨m, ms, hm⟩ : ∃ m ms, rest ++ [[], []] = m :: ms :=
      List.exists_cons_of_ne_nil (List.append_ne_nil_of_right_ne_nil _ (List.cons_ne_nil _ _))
    have hf := find_empty_slice t it m done ms (by rw [h, List.append_assoc, List.cons_append, hm]) hd
    rw [hp, Option.some.injEq] at hf
    simp only [List.map_append, List.map_cons, List.sum_append, List.sum_cons, List.length_nil] at hsum
    omega
  · intro hne
    exact ⟨_, find_empty_slice t it [] ls [] h hne, by omega⟩

theorem slices_ne_iff (pre t : Bytes) (h : 13 ∉ pre) (hne : pre ≠ []) :
    (∀ l ∈ slices crlf 0 (pre ++ t), l ≠ []) ↔ NoBlankLine t := by
  obtain ⟨l, ls, hs⟩ := List.exists_cons_of_ne_nil (slices_ne_nil crlf 0 t)
  rw [slices_behind pre t l ls h hs, NoBlankLine, hs, List.tail_cons]
  constructor
  · exact fun hall m hm => hall m (List.mem_cons_of_mem _ hm)
  · intro hall m hm
    rcases List.mem_cons.mp hm with rfl | hm
    · exact List.append_ne_nil_of_left_ne_nil hne l
    · exact hall m hm

/-- A head whose lines have each a fixed front and a text behind it. -/
theorem oneHead_parts (p : Bytes × Bytes) (ps : List (Bytes × Bytes))
    (h : ∀ q ∈ p :: ps, 13 ∉ q.1 ∧ q.1 ≠ []) :
    OneHead (unlines ((p :: ps).map (fun q => q.1 ++ q.2)) ++ crlf) ↔
      ∀ q ∈ p :: ps, NoBlankLine q.2 := by
  obtain ⟨l, ls, hs⟩ := List.exists_cons_of_ne_nil (slices_ne_nil crlf 0 p.2)
  have hp := h p List.mem_cons_self
  have hlines : slices crlf 0 (unlines ((p :: ps).map (fun q => q.1 ++ q.2)) ++ crlf) =
      (p.1 ++ l) :: ((ls ++ (ps.map (fun q => q.1 ++ q.2)).flatMap (slices crlf 0)) ++ [[], []]) := by
    rw [slices_unlines, List.map_cons, List.flatMap_cons, slices_behind p.1 p.2 l ls hp.1 hs]
    simp only [List.cons_append, List.append_assoc]
    rfl
  rw [oneHead_iff_lines _ _ _ hlines]
  constructor
  · intro hall q hq
    rcases List.mem_cons.mp hq with rfl | hq
    · rw [NoBlankLine, hs, List.tail_cons]
      exact fun m hm => hall m (List.mem_append_left _ hm)
    · rw [← slices_ne_iff q.1 q.2 (h q (List.mem_cons_of_mem _ hq)).1 (h q (List.mem_cons_of_mem _ hq)).2]
      intro m hm
      refine hall m (List.mem_append_right _ (List.mem_flatMap.mpr ⟨q.1 ++ q.2, ?_, hm⟩))
      exact List.mem_map.mpr ⟨q, hq, rfl⟩
  · intro hall m hm
    rcases List.mem_append.mp hm with hm | hm
    · have := hall p List.mem_cons_self
      rw [NoBlankLine, hs, List.tail_cons] at this
      exact this m hm
    · obtain ⟨line, hline, hm⟩ := List.mem_flatMap.mp hm
      obtain ⟨q, hq, rfl⟩ := List.mem_map.mp hline
      have hq' := List.mem_cons_of_mem p hq
      exact (slices_ne_iff q.1 q.2 (h q hq').1 (h q hq').2).mpr (hall q hq') m hm

/-- Nothing is behind the empty line. -/
theorem OneHead.end_of_blank {t a x : Bytes} (h : OneHead t) (hp : a ++ (crlf ++ crlf) ++ x <+: t) :
    x = [] := by
  obtain ⟨q, hq, hlen⟩ := h
  obtain ⟨y, rfl⟩ := hp
  have hocc : crlf ++ crlf <+: (a ++ (crlf ++ crlf) ++ x ++ y).drop a.length := by
    rw [List.append_assoc, List.append_assoc, List.drop_left]
    exact List.prefix_append _ _
  obtain ⟨p, hpa, hf⟩ := find_first (by decide) hocc
  rw [hq, Option.some.injEq] at hf
  have h2 : crlf.length = 2 := rfl
  simp only [List.length_append, h2] at hlen
  exact List.length_eq_zero_iff.mp (by omega)

theorem OneHead.ends {t : Bytes} (h : OneHead t) : ∃ a, t = a ++ (crlf ++ crlf) := by
  obtain ⟨p, hp, hlen⟩ := h
  have hpre := find_prefix hp
  have heq : crlf ++ crlf = t.drop p := hpre.eq_of_length (by
    rw [List.length_drop]
    change 4 = _
    omega)
  exact ⟨t.take p, by rw [heq, List.take_append_drop]⟩

/-- What a byte is to the search for line ends. -/
def lineClass (c : UInt8) : UInt8 := if c = 13 then 13 else if c = 10 then 10 else 0

theorem lineClass_eq (a c : UInt8) (h : a = 13 ∨ a = 10) : (a == lineClass c) = (a == c) := by
  unfold lineClass
  by_cases h13 : c = 13
  · rw [if_pos h13, h13]
  · rw [if_neg h13]
    by_cases h10 : c = 10
    · rw [if_pos h10, h10]
    · rw [if_neg h10]
      rcases h with rfl | rfl
      · rw [beq_eq_false_iff_ne.mpr (Ne.symm h13)]
        rfl
      · rw [beq_eq_false_iff_ne.mpr (Ne.symm h10)]
        rfl

theorem isPrefixOf_lineClass (pat s : Bytes) (h : ∀ a ∈ pat, a = 13 ∨ a = 10) :
    pat.isPrefixOf (s.map lineClass) = pat.isPrefixOf s := by
  induction pat generalizing s with
  | nil => simp [List.isPrefixOf]
  | cons a pat ih =>
    cases s with
    | nil => rfl
    | cons c s =>
      simp only [List.map_cons, List.isPrefixOf]
      rw [lineClass_eq a c (h a List.mem_cons_self), ih s (fun b hb => h b (List.mem_cons_of_mem a hb))]

theorem find_lineClass (pat s : Bytes) (h : ∀ a ∈ pat, a = 13 ∨ a = 10) :
    find pat (s.map lineClass) = find pat s := by
  induction s with
  | nil => rfl
  | cons c s ih =>
    have hp := isPrefixOf_lineClass pat (c :: s) h
    rw [List.map_cons] at hp ⊢
    rw [find, hp, ih, find]

theorem oneHead_lineClass (s t : Bytes) (h : s.map lineClass = t.map lineClass) :
    OneHead s ↔ OneHead t := by
  have hpat : ∀ a ∈ crlf ++ crlf, a = 13 ∨ a = 10 := by simp [crlf]
  have hf : find (crlf ++ crlf) s = find (crlf ++ crlf) t := by
    rw [← find_lineClass _ s hpat, h, find_lineClass _ t hpat]
  have hl : s.length = t.length := by simpa using congrArg List.length h
  rw [OneHead, OneHead, hf, hl]

end Acng.Lib
