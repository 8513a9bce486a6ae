import Acng.Lib.Numeral

namespace Acng.Lib

/-- All slices but the last one are settled by the text so far: more text only
continues the last one. -/
theorem slices_append [BEq α] [LawfulBEq α] (sep : List α) (k : Nat) (s : List α)
    (hk : k ≤ s.length) :
    ∃ done last, slices sep k s = done ++ [last] ∧ (done = [] → last = s.drop k) ∧
      (done ≠ [] → sep.length ≤ s.length) ∧
      ∀ t, slices sep k (s ++ t) = done ++ slices sep 0 (last ++ t) := by
  induction s generalizing k with
  | nil =>
    obtain rfl : k = 0 := by simpa using hk
    exact ⟨[], [], by simp [slices], by simp, by simp, by simp⟩
  | cons c s ih =>
    cases k with
    | succ k =>
      obtain ⟨done, last, hs, hd, hl, ha⟩ := ih k (by simpa using hk)
      refine ⟨done, last, by simpa [slices] using hs, by simpa using hd, ?_, ?_⟩
      · intro h
        simpa using Nat.le_succ_of_le (hl h)
      · intro t
        simpa [slices] using ha t
    | zero =>
      by_cases hp : sep.isPrefixOf (c :: s) = true
      · have hlen := (List.isPrefixOf_iff_prefix.mp hp).length_le
        obtain ⟨done, last, hs, hd, hl, ha⟩ := ih (sep.length - 1) (by simp at hlen; omega)
        refine ⟨[] :: done, last, by simp [slices, hp, hs], by simp, fun _ => hlen, ?_⟩
        intro t
        have hp' : sep.isPrefixOf (c :: (s ++ t)) = true :=
          List.isPrefixOf_iff_prefix.mpr
            ((List.isPrefixOf_iff_prefix.mp hp).trans (List.prefix_append (c :: s) t))
        simp [slices, hp', ha]
      · obtain ⟨done, last, hs, hd, hl, ha⟩ := ih 0 (Nat.zero_le _)
        cases done with
        | nil =>
          have he : last = s := by simpa using hd rfl
          subst he
          exact ⟨[], c :: last, by simp [slices, hp, hs, consHead], by simp, by simp, by simp⟩
        | cons d done =>
          have hlen := hl (by simp)
          refine ⟨(c :: d) :: done, last, by simp [slices, hp, hs, consHead], by simp, ?_, ?_⟩
          · intro _
            simpa using Nat.le_succ_of_le hlen
          · intro t
            have hp' : ¬ sep.isPrefixOf (c :: (s ++ t)) = true := by
              intro h
              apply hp
              rw [List.isPrefixOf_iff_prefix] at h ⊢
              exact List.prefix_of_prefix_length_le h (List.prefix_append (c :: s) t)
                (by simp; omega)
            simp [slices, hp', ha, consHead]

/-- The slices and the separators between them account for every symbol. -/
theorem slices_length [BEq α] [LawfulBEq α] (sep : List α) (hsep : sep ≠ []) (k : Nat) (s : List α)
    (hk : k ≤ s.length) :
    ((slices sep k s).map (fun l => l.length + sep.length)).sum + k = s.length + sep.length := by
  have hpos : 0 < sep.length := List.length_pos_iff.mpr hsep
  induction s generalizing k with
  | nil =>
    obtain rfl : k = 0 := by simpa using hk
    simp [slices]
  | cons c s ih =>
    cases k with
    | succ k =>
      have := ih k (by simpa using hk)
      simp only [slices, List.length_cons]
      omega
    | zero =>
      by_cases hp : sep.isPrefixOf (c :: s) = true
      · have hlen := (List.isPrefixOf_iff_prefix.mp hp).length_le
        simp only [List.length_cons] at hlen
        have := ih (sep.length - 1) (by omega)
        simp only [slices, hp, if_true, List.map_cons, List.sum_cons, List.length_nil,
          List.length_cons]
        omega
      · have := ih 0 (Nat.zero_le _)
        simp only [slices, hp, List.length_cons]
        cases hs : slices sep 0 s with
        | nil => exact absurd hs (slices_ne_nil sep 0 s)
        | cons l ls =>
          rw [hs] at this
          simp only [List.map_cons, List.sum_cons] at this
          simp only [consHead, List.map_cons, List.sum_cons, List.length_cons, Bool.false_eq_true,
            if_false]
          omega

theorem find_of_notMem [BEq α] [LawfulBEq α] (a : α) (pat line rest : List α) (h : a ∉ line) :
    find (a :: pat) (line ++ (a :: pat) ++ rest) = some line.length := by
  induction line with
  | nil => simp [find, List.isPrefixOf]
  | cons c line ih =>
    simp only [List.mem_cons, not_or] at h
    have hc : (a == c) = false := by simpa using h.1
    have := ih h.2
    simp only [List.append_assoc, List.cons_append] at this
    simp [find, List.isPrefixOf, hc, this]

theorem find_none_of_notMem [BEq α] [LawfulBEq α] (b : α) (pat s : List α) (hb : b ∈ pat)
    (h : b ∉ s) : find pat s = none := by
  induction s with
  | nil =>
    cases pat with
    | nil => simp at hb
    | cons a pat => simp [find]
  | cons c s ih =>
    have hp : ¬ pat.isPrefixOf (c :: s) = true := by
      intro hp
      exact h ((List.isPrefixOf_iff_prefix.mp hp).subset hb)
    simp only [List.mem_cons, not_or] at h
    simp [find, hp, ih h.2]

theorem find_le [BEq α] [LawfulBEq α] (pat s : List α) (p : Nat) (h : find pat s = some p) :
    p + pat.length ≤ s.length := by
  induction s generalizing p with
  | nil =>
    cases pat with
    | nil => simp [find] at h; simp [← h]
    | cons a pat => simp [find] at h
  | cons c s ih =>
    simp only [find] at h
    split at h
    · rename_i hp
      have hlen := (List.isPrefixOf_iff_prefix.mp hp).length_le
      cases h
      simpa using hlen
    · obtain ⟨q, hq, rfl⟩ := Option.map_eq_some_iff.mp h
      have := ih q hq
      simp only [List.length_cons]
      omega

theorem cstr_append (s t : Bytes) (h : 0 ∉ s) : cstr (s ++ t) = s ++ cstr t := by
  unfold cstr
  rw [List.takeWhile_append_of_pos]
  intro c hc
  simp only [bne_iff_ne, ne_eq]
  rintro rfl
  exact h hc

theorem cstr_eq_self {s : Bytes} (h : 0 ∉ s) : cstr s = s := by
  have happ := cstr_append s [] h
  rwa [List.append_nil, show cstr [] = [] from rfl, List.append_nil] at happ

theorem cstr_take (s : Bytes) : cstr s <+: s := List.takeWhile_prefix _

theorem cstr_append_nul (s t : Bytes) (h : 0 ∈ s) : cstr (s ++ t) = cstr s := by
  unfold cstr
  rw [List.takeWhile_append, if_neg]
  intro hl
  have he : List.takeWhile (· != 0) s = s :=
    (List.takeWhile_prefix _).eq_of_length hl
  have := List.mem_takeWhile_imp (he ▸ h)
  simp at this

/-- A text line on its way: either its end has not arrived yet, or the search
finds it at its place. -/
theorem find_line (line buf unread rest : Bytes) (h0 : 0 ∉ line) (h13 : 13 ∉ line)
    (h10 : 10 ∉ line) (h : buf ++ unread = line ++ crlf ++ rest) :
    (find crlf (cstr buf) = none ∧ unread ≠ []) ∨
      (find crlf (cstr buf) = some line.length ∧ ∃ more, buf = line ++ crlf ++ more ∧
        more ++ unread = rest) := by
  by_cases hlen : line.length + 2 ≤ buf.length
  · right
    have hl : line ++ crlf <+: buf ++ unread := h ▸ List.prefix_append _ _
    obtain ⟨more, rfl⟩ := List.prefix_of_prefix_length_le hl (List.prefix_append _ _)
      (by simpa [crlf] using hlen)
    refine ⟨?_, more, rfl, by simpa using h⟩
    have hn : 0 ∉ line ++ crlf := by simp [crlf, h0]
    rw [cstr_append _ _ hn]
    exact find_of_notMem 13 [10] line (cstr more) h13
  · left
    have hb : buf <+: line ++ crlf ++ rest := h ▸ List.prefix_append _ _
    have hp : buf <+: line ++ [13] := by
      refine List.prefix_of_prefix_length_le hb ?_ (by simp; omega)
      exact ⟨10 :: rest, by simp [crlf]⟩
    refine ⟨find_none_of_notMem 10 crlf _ (by simp [crlf]) ?_, ?_⟩
    · intro hm
      have := hp.subset ((cstr_take buf).subset hm)
      simp [h10] at this
    · rintro rfl
      have := congrArg List.length h
      simp [crlf] at this
      omega

/-- What stands behind a line. -/
theorem drop_line {line : Bytes} {k : Nat} (more : Bytes) (hk : line.length = k) :
    (line ++ crlf ++ more).drop (k + 2) = more := by
  have hlen : k + 2 = (line ++ crlf).length := by simp [crlf, hk]
  rw [hlen, List.drop_left]

theorem forall_byte (p : UInt8 → Prop) (h : ∀ n : Fin 256, p (UInt8.ofNat n)) (c : UInt8) : p c := by
  simpa using h ⟨c.toNat, c.toNat_lt⟩

theorem isxdigit_graph : ∀ c : UInt8, isxdigit c = true →
    isspace c = false ∧ (c == 45) = false ∧ (c == 43) = false ∧ c ≠ 0 ∧ c ≠ 13 ∧ c ≠ 10 ∧
      c ≠ 120 ∧ c ≠ 88 := by
  apply forall_byte
  decide +kernel

theorem isdigit_graph : ∀ c : UInt8, isdigit c = true →
    isspace c = false ∧ (c == 45) = false ∧ (c == 43) = false ∧ c ≠ 0 ∧ c ≠ 13 ∧ c ≠ 10 := by
  apply forall_byte
  decide +kernel

/-- There is no sign and no white space in front of digits. -/
theorem sign_digits {ds x : Bytes} (hne : ds ≠ []) (hds : ∀ d ∈ ds, isdigit d = true) :
    sign ((cstr (ds ++ x)).dropWhile isspace) = (false, ds ++ cstr x) := by
  have h0 : (0 : UInt8) ∉ ds := fun h => (isdigit_graph 0 (hds 0 h)).2.2.2.1 rfl
  rw [cstr_append _ _ h0]
  cases ds with
  | nil => exact absurd rfl hne
  | cons d ds =>
    obtain ⟨hspace, hminus, hplus, -⟩ := isdigit_graph d (hds d List.mem_cons_self)
    simp [sign, hspace, hminus, hplus]

theorem cstr_head_digit {x : Bytes} (hx : x.head?.any isdigit = false) :
    (cstr x).head?.any isdigit = false := by
  cases x with
  | nil => rfl
  | cons c x =>
    have hc : isdigit c = false := by simpa using hx
    by_cases hz : c = 0
    · simp [cstr, hz]
    · simp [cstr, hz, hc]

theorem takeWhile_digits {ds x : Bytes} (hds : ∀ d ∈ ds, isdigit d = true)
    (hx : x.head?.any isdigit = false) : (ds ++ x).takeWhile isdigit = ds := by
  rw [List.takeWhile_append_of_pos hds]
  cases x with
  | nil => simp
  | cons c x =>
    have hc : isdigit c = false := by simpa using hx
    simp [hc]

theorem dropWhile_digits {ds x : Bytes} (hds : ∀ d ∈ ds, isdigit d = true)
    (hx : x.head?.any isdigit = false) : (ds ++ x).dropWhile isdigit = x := by
  rw [List.dropWhile_append_of_pos hds]
  cases x with
  | nil => rfl
  | cons c x =>
    have hc : isdigit c = false := by simpa using hx
    simp [hc]

/-- Digits up to a byte that ends them are read as their number, or as the largest one there is. -/
theorem strtoll_digits {ds x : Bytes} (hne : ds ≠ []) (hds : ∀ d ∈ ds, isdigit d = true)
    (hx : x.head?.any isdigit = false) : strtoll (ds ++ x) = min (decimal ds) (2 ^ 63 - 1) := by
  unfold strtoll
  rw [sign_digits hne hds]
  simp only [takeWhile_digits hds (cstr_head_digit hx), Bool.false_eq_true, if_false]
  omega

/-- Hex digits up to a byte that ends them, as `sscanf` reads them. -/
theorem scanHex_digits (ds : Bytes) (c : UInt8) (rest : Bytes) (hne : ds ≠ [])
    (hds : ∀ d ∈ ds, isxdigit d = true) (hc : isxdigit c = false) (hx : c ≠ 120 ∧ c ≠ 88)
    (hv : hexadecimal ds < 2 ^ 64) :
    scanHex (ds ++ c :: rest) = some (hexadecimal ds % 2 ^ 32) := by
  have h0 : (0 : UInt8) ∉ ds := fun h => (isxdigit_graph 0 (hds 0 h)).2.2.2.1 rfl
  obtain ⟨d, ds', rfl⟩ := List.exists_cons_of_ne_nil hne
  have hd := isxdigit_graph d (hds d (by simp))
  have hs : sign ((cstr (d :: ds' ++ c :: rest)).dropWhile isspace) =
      (false, d :: (ds' ++ cstr (c :: rest))) := by
    rw [cstr_append _ _ h0]
    simp [sign, hd.1, hd.2.1, hd.2.2.1]
  have hh : hexDigits (d :: (ds' ++ cstr (c :: rest))) = d :: ds' := by
    have ht : (d :: (ds' ++ cstr (c :: rest))).takeWhile isxdigit = d :: ds' := by
      have hstop : (cstr (c :: rest)).takeWhile isxdigit = [] := by
        cases h : (cstr (c :: rest)) with
        | nil => rfl
        | cons e es =>
          have he : e = c := by
            have := (h ▸ cstr_take (c :: rest) : e :: es <+: c :: rest)
            exact (List.cons_prefix_cons.mp this).1
          simp [he, hc]
      rw [← List.cons_append, List.takeWhile_append_of_pos (fun a ha => hds a ha), hstop,
        List.append_nil]
    have hnx : ((ds' ++ cstr (c :: rest)).head? == some 120 ||
        (ds' ++ cstr (c :: rest)).head? == some 88) = false := by
      cases ds' with
      | cons e es =>
        have he := isxdigit_graph e (hds e (by simp))
        simp [he.2.2.2.2.2.2.1, he.2.2.2.2.2.2.2]
      | nil =>
        by_cases hz : c = 0
        · simp [cstr, hz]
        · simp [cstr, hz, hx.1, hx.2]
    simp only [hexDigits, hnx, Bool.and_false, Bool.false_eq_true, if_false, ht]
  unfold scanHex
  rw [hs]
  simp only [hh, List.isEmpty_cons, Bool.false_eq_true, if_false]
  rw [if_neg (Nat.not_le.mpr hv)]

/-- A separator right at the front leaves an empty first slice. -/
theorem slices_crlf (t : Bytes) : slices crlf 0 (13 :: 10 :: t) = [] :: slices crlf 0 t := by
  cases t <;> rfl

theorem slices_cons (c : UInt8) (s : Bytes) (h : crlf.isPrefixOf (c :: s) = false) :
    slices crlf 0 (c :: s) = consHead c (slices crlf 0 s) := by
  rw [slices, if_neg (by simp [h])]

theorem crlf_front (c : UInt8) (s : Bytes) (h : crlf.isPrefixOf (c :: s) = true) :
    ∃ t, c = 13 ∧ s = 10 :: t := by
  rw [List.isPrefixOf_iff_prefix] at h
  obtain ⟨t, ht⟩ := h
  simp only [crlf, List.cons_append, List.nil_append, List.cons.injEq] at ht
  exact ⟨t, ht.1.symm, ht.2.symm⟩

/-- The first of several slices is empty exactly if the separator stands in front. -/
theorem slices_head_empty {t d : Bytes} {rest : List Bytes} (hs : slices crlf 0 t = d :: rest) (hrest : rest ≠ []) :
    d = [] ↔ crlf.isPrefixOf t = true := by
  cases t with
  | nil =>
    simp only [slices, List.cons.injEq] at hs
    exact absurd hs.2.symm hrest
  | cons c t =>
    cases hc : crlf.isPrefixOf (c :: t) with
    | true =>
      obtain ⟨u, rfl, rfl⟩ := crlf_front c t hc
      rw [slices_crlf] at hs
      simp only [List.cons.injEq] at hs
      exact ⟨fun _ => rfl, fun _ => hs.1.symm⟩
    | false =>
      rw [slices_cons c t hc] at hs
      cases ht : slices crlf 0 t with
      | nil => exact absurd ht (slices_ne_nil _ _ _)
      | cons e more =>
        rw [ht, consHead] at hs
        simp only [List.cons.injEq] at hs
        simp [← hs.1]

theorem doubled_isPrefixOf {t : Bytes} (h : crlf.isPrefixOf t = false) : (crlf ++ crlf).isPrefixOf t = false := by
  rw [← Bool.not_eq_true, List.isPrefixOf_iff_prefix] at h ⊢
  exact fun hp => h ((List.prefix_append crlf crlf).trans hp)

/-- The first empty slice starts behind the first doubled separator. -/
theorem find_empty_slice (s it m : Bytes) (done ms : List Bytes)
    (hs : slices crlf 0 s = it :: (done ++ [] :: m :: ms)) (hd : ∀ l ∈ done, l ≠ []) :
    find (crlf ++ crlf) s = some (it.length + (done.map (fun l => l.length + 2)).sum) := by
  induction hn : s.length using Nat.strong_induction_on generalizing s it done with
  | _ n ih =>
    cases s with
    | nil => simp [slices] at hs
    | cons c s =>
      cases hc : crlf.isPrefixOf (c :: s) with
      | false =>
        rw [slices_cons c s hc] at hs
        cases hs' : slices crlf 0 s with
        | nil => exact absurd hs' (slices_ne_nil _ _ _)
        | cons it' rest =>
          rw [hs', consHead] at hs
          simp only [List.cons.injEq] at hs
          obtain ⟨rfl, rfl⟩ := hs
          have hf := ih s.length (by rw [← hn]; exact Nat.lt_succ_self _) s it' done hs' hd rfl
          rw [find, doubled_isPrefixOf hc, hf]
          simp only [Bool.false_eq_true, if_false, Option.map_some, List.length_cons]
          congr 1
          omega
      | true =>
        obtain ⟨t, rfl, rfl⟩ := crlf_front c s hc
        rw [slices_crlf] at hs
        simp only [List.cons.injEq] at hs
        obtain ⟨rfl, hs⟩ := hs
        cases done with
        | nil =>
          have ht := (slices_head_empty hs (by simp)).mp rfl
          cases t with
          | nil => cases ht
          | cons e t =>
            obtain ⟨u, rfl, rfl⟩ := crlf_front e t ht
            simp [find, crlf, List.isPrefixOf]
        | cons d ds =>
          have hf := ih t.length (by simp only [← hn, List.length_cons]; omega) t d ds (by simpa using hs)
            (fun l hl => hd l (List.mem_cons_of_mem d hl)) rfl
          have hne : crlf.isPrefixOf t = false := by
            rw [← Bool.not_eq_true, ← slices_head_empty hs (by simp)]
            exact hd d List.mem_cons_self
          have h1 : (crlf ++ crlf).isPrefixOf (13 :: 10 :: t) = false := by
            simpa [crlf, List.isPrefixOf] using hne
          rw [find, h1]
          simp only [Bool.false_eq_true, if_false]
          rw [find]
          simp only [crlf, List.cons_append, List.nil_append, List.isPrefixOf] at hf ⊢
          simp only [hf, List.map_cons, List.sum_cons]
          simp
          omega

/-- A pattern does not start in front of its first symbol. -/
theorem find_behind [BEq α] [LawfulBEq α] (a : α) (pat pre s : List α) (h : a ∉ pre) :
    find (a :: pat) (pre ++ s) = (find (a :: pat) s).map (· + pre.length) := by
  induction pre with
  | nil => simp
  | cons c pre ih =>
    simp only [List.mem_cons, not_or] at h
    have hc : (a == c) = false := by simpa using h.1
    rw [List.cons_append, find, List.isPrefixOf, hc, ih h.2]
    simp [Option.map_map, Function.comp_def, Nat.add_assoc]

theorem rfind_some [BEq α] [LawfulBEq α] {c : α} {s : List α} {pos : Nat}
    (h : rfind c s = some pos) : s = s.take pos ++ c :: s.drop (pos + 1) := by
  unfold rfind at h
  obtain ⟨i, hi, rfl⟩ := Option.map_eq_some_iff.mp h
  obtain ⟨hlt, hget, -⟩ := List.idxOf?_eq_some_iff.mp hi
  rw [List.length_reverse] at hlt
  rw [List.getElem_reverse] at hget
  have hpos : s.length - 1 - i < s.length := by omega
  conv_lhs => rw [← List.take_append_drop (s.length - 1 - i) s, List.drop_eq_getElem_cons hpos]
  rw [hget]

theorem rfind_eq_none [BEq α] [LawfulBEq α] {c : α} {s : List α} : rfind c s = none ↔ c ∉ s := by
  rw [rfind, Option.map_eq_none_iff, List.idxOf?_eq_none_iff, List.mem_reverse]

theorem rfind_lt [BEq α] [LawfulBEq α] {c : α} {s : List α} {pos : Nat} (h : rfind c s = some pos) :
    pos < s.length := by
  unfold rfind at h
  obtain ⟨i, hi, rfl⟩ := Option.map_eq_some_iff.mp h
  obtain ⟨hlt, -⟩ := List.idxOf?_eq_some_iff.mp hi
  rw [List.length_reverse] at hlt
  omega

theorem rfind_not_mem_drop [BEq α] [LawfulBEq α] {c : α} {s : List α} {pos : Nat}
    (h : rfind c s = some pos) : c ∉ s.drop (pos + 1) := by
  unfold rfind at h
  obtain ⟨i, hi, rfl⟩ := Option.map_eq_some_iff.mp h
  obtain ⟨hlt, -, hfirst⟩ := List.idxOf?_eq_some_iff.mp hi
  rw [List.length_reverse] at hlt
  have hback : s.drop (s.length - 1 - i + 1) = (s.reverse.take i).reverse := by
    rw [List.reverse_take, List.reverse_reverse, List.length_reverse]
    congr 1
    omega
  rw [hback, List.mem_reverse, List.mem_take_iff_getElem]
  rintro ⟨j, hj, heq⟩
  exact hfirst j (by omega) heq

/-- The last place of a symbol does not move when text without it follows. -/
theorem rfind_append [BEq α] [LawfulBEq α] {c : α} {t : List α} (s : List α) (h : c ∉ t) :
    rfind c (s ++ t) = rfind c s := by
  have hnone : t.reverse.idxOf? c = none := by
    rw [List.idxOf?_eq_none_iff, List.mem_reverse]
    exact h
  unfold rfind
  unfold List.idxOf? at hnone ⊢
  rw [List.reverse_append, List.findIdx?_append, hnone, Option.none_or, Option.map_map]
  refine congrArg (Option.map · _) (funext (fun i => ?_))
  simp only [Function.comp_apply, List.length_append, List.length_reverse]
  omega

theorem rfind_behind [BEq α] [LawfulBEq α] {c : α} {t : List α} (s : List α) (h : c ∉ t) :
    rfind c (s ++ c :: t) = some s.length := by
  have hsplit : s ++ c :: t = (s ++ [c]) ++ t := by simp
  rw [hsplit, rfind_append _ h]
  unfold rfind
  rw [List.reverse_append, List.reverse_singleton, List.singleton_append, List.idxOf?_cons, if_pos BEq.rfl]
  simp

theorem trimBack_of_trimBoth (v : Bytes) (h : trimBoth v = v) : trimBack v = v := by
  have hl := (List.rdropWhile_prefix isspace v).length_le
  have hf : (trimBoth v).length ≤ (trimBack v).length := (List.dropWhile_sublist _).length_le
  rw [h] at hf
  exact (List.rdropWhile_prefix isspace v).eq_of_length (Nat.le_antisymm hl hf)

theorem trimFront_of_trimBoth (v : Bytes) (h : trimBoth v = v) : trimFront v = v := by
  have hb := trimBack_of_trimBoth v h
  rwa [trimBoth, hb] at h

/-- What is not trimmed away entirely keeps what is in front of it. -/
theorem trimBack_behind {v : Bytes} (pre : Bytes) (hne : trimBack v ≠ []) :
    trimBack (pre ++ v) = pre ++ trimBack v := by
  unfold trimBack List.rdropWhile at hne ⊢
  rw [List.reverse_append, List.dropWhile_append, if_neg, List.reverse_append, List.reverse_reverse]
  rw [List.isEmpty_iff]
  exact fun hnil => hne (by rw [hnil]; rfl)

theorem trimBack_append (pre v : Bytes) (hne : v ≠ []) (h : trimBack v = v) :
    trimBack (pre ++ v) = pre ++ v := by
  rw [trimBack_behind pre (h.symm ▸ hne), h]

end Acng.Lib
