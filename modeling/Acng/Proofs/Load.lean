import Acng.Header
import Acng.Lib.Scan

namespace Acng.Header
open Lib

theorem isFolded_iff (it : Bytes) :
    isFolded it = true ↔ (∃ w t, it = w :: t ∧ isspace w = true) ∧ ∃ c ∈ it, isspace c = false := by
  have ht : (trimBack it).isEmpty = true ↔ ∀ c ∈ it, isspace c = true := by
    rw [List.isEmpty_iff]
    exact List.rdropWhile_eq_nil_iff
  constructor
  · intro h
    simp only [isFolded, Bool.and_eq_true, Bool.not_eq_true', Bool.eq_false_iff, ne_eq, ht] at h
    refine ⟨?_, by simpa using h.2⟩
    cases it with
    | nil => simp at h
    | cons w t => exact ⟨w, t, rfl, by simpa using h.1⟩
  · rintro ⟨⟨w, t, rfl, hw⟩, c, hc, hs⟩
    simp only [isFolded, Bool.and_eq_true, Bool.not_eq_true', Bool.eq_false_iff, ne_eq, ht]
    refine ⟨by simpa using hw, ?_⟩
    intro hall
    simp [hall c hc] at hs

/-- Text behind an unfinished line takes at most a carriage return away from it. -/
theorem head_slice (z t m : Bytes) (ms : List Bytes) (hz : slices crlf 0 z = [z])
    (hm : slices crlf 0 (z ++ t) = m :: ms) :
    z.dropLast <+: m ∧ (z.getLast? ≠ some 13 → z <+: m) := by
  induction z generalizing m ms with
  | nil => simp
  | cons c z ih =>
    have hp : ¬ crlf.isPrefixOf (c :: z) = true := by
      intro hp
      simp [slices, hp] at hz
    have hz' : slices crlf 0 z = [z] := by
      simp only [slices, hp] at hz
      cases hs : slices crlf 0 z with
      | nil => exact absurd hs (slices_ne_nil _ _ _)
      | cons l ls => simpa [hs, consHead] using hz
    by_cases hp' : crlf.isPrefixOf (c :: (z ++ t)) = true
    · cases z with
      | nil =>
        have hc : c = 13 := by
          have := List.isPrefixOf_iff_prefix.mp hp'
          exact (List.cons_prefix_cons.mp this).1.symm
        simp [hc]
      | cons d z =>
        exfalso
        apply hp
        simpa [crlf, List.isPrefixOf] using hp'
    · cases hs : slices crlf 0 (z ++ t) with
      | nil => exact absurd hs (slices_ne_nil _ _ _)
      | cons m' ms' =>
        obtain ⟨hd, hl⟩ := ih m' ms' hz' hs
        obtain ⟨rfl, rfl⟩ : c :: m' = m ∧ ms' = ms := by
          simpa [slices, hp', hs, consHead] using hm
        cases z with
        | nil => simp
        | cons d z =>
          refine ⟨by simpa using hd, ?_⟩
          intro h
          simpa using hl (by simpa using h)

theorem isFolded_extend (z t m : Bytes) (ms : List Bytes) (hz : slices crlf 0 z = [z])
    (hm : slices crlf 0 (z ++ t) = m :: ms) (hf : isFolded z = true) : isFolded m = true := by
  obtain ⟨hd, hl⟩ := head_slice z t m ms hz hm
  rw [isFolded_iff] at hf ⊢
  obtain ⟨⟨w, u, rfl, hw⟩, c, hc, hs⟩ := hf
  have hu : u ≠ [] := by
    rintro rfl
    obtain rfl : c = w := by simpa using hc
    simp [hw] at hs
  have hdl : (w :: u).dropLast = w :: u.dropLast := List.dropLast_cons_of_ne_nil hu
  constructor
  · obtain ⟨v, hv⟩ := hd
    exact ⟨w, u.dropLast ++ v, by rw [← hv, hdl, List.cons_append], hw⟩
  · by_cases hcr : (w :: u).getLast? = some 13
    · have hsplit := List.dropLast_append_getLast? 13 hcr
      rw [← hsplit] at hc
      rcases List.mem_append.mp hc with hc | hc
      · exact ⟨c, hd.subset hc, hs⟩
      · obtain rfl : c = 13 := by simpa using hc
        simp [isspace] at hs
    · exact ⟨c, (hl hcr).subset hc, hs⟩

/-- A verdict on the lines stands when the last, unfinished line goes on. -/
theorem loadLines_stable (st : LineState) (pos : Nat) (done : List Bytes) (z m : Bytes)
    (ms : List Bytes) (hf : isFolded z = true → isFolded m = true)
    (h : (loadLines st pos (done ++ [z])).1 ≠ 0) :
    loadLines st pos (done ++ m :: ms) = loadLines st pos (done ++ [z]) := by
  induction done generalizing st pos with
  | nil =>
    simp only [List.nil_append, loadLines] at h ⊢
    by_cases he : z.isEmpty = true
    · simp [he] at h
    · by_cases hz : isFolded z = true
      · have hm : m.isEmpty = false := by
          have := (isFolded_iff m).mp (hf hz)
          obtain ⟨⟨w, t, rfl, -⟩, -⟩ := this
          rfl
        simp only [he, hz, hf hz, hm, Bool.false_eq_true, if_false, if_true] at h ⊢
        cases hl : st.lastSetId with
        | unkExport => simp [foldLine, hl] at h
        | max => simp [foldLine, hl]
        | pos p =>
          cases hh : st.hd.h p with
          | none => simp [foldLine, hl, hh]
          | some old => simp [foldLine, hl, hh] at h
      · simp only [he, hz, List.isEmpty_nil, Bool.false_eq_true, if_false, if_true] at h
        split at h <;> exact absurd rfl h
  | cons it done ih =>
    simp only [List.cons_append, loadLines] at h ⊢
    have h1 : (done ++ [z]).isEmpty = false := by simp
    have h2 : (done ++ m :: ms).isEmpty = false := by simp
    rw [h1] at h ⊢
    rw [h2]
    by_cases he : it.isEmpty = true
    · simp [he]
    · by_cases hz : isFolded it = true
      · simp only [he, hz, Bool.false_eq_true, if_false, if_true] at h ⊢
        cases hl : foldLine st (trimBoth it) with
        | error e => rfl
        | ok st' =>
          rw [hl] at h
          exact ih st' _ h
      · simp only [he, hz, Bool.false_eq_true, if_false] at h ⊢
        cases hl : fieldLine st (trimBoth it) with
        | error e => rfl
        | ok st' =>
          rw [hl] at h
          exact ih st' _ h

theorem foldLine_error (st : LineState) (sv : Bytes) (e : Int) (h : foldLine st sv = .error e) :
    e < 0 := by
  simp only [foldLine] at h
  split at h
  · simp at h
  · simp at h; omega
  · split at h
    · simp at h; omega
    · simp at h

theorem fieldLine_error (st : LineState) (sv : Bytes) (e : Int) (h : fieldLine st sv = .error e) :
    e < 0 := by
  simp only [fieldLine] at h
  split at h
  · simp at h; omega
  · split at h
    · simp at h; omega
    · split at h
      · split at h <;> simp at h
      · simp at h

/-- A good end lies in front of another line, so its separator is in the input. -/
theorem loadLines_le (st : LineState) (pos : Nat) (lines : List Bytes) :
    (loadLines st pos lines).1 ≤ 0 ∨
      (loadLines st pos lines).1 + 2 ≤ ((pos + (lines.map (fun l => l.length + 2)).sum : Nat) : Int) := by
  induction lines generalizing st pos with
  | nil => simp [loadLines]
  | cons it rest ih =>
    have hstep : ∀ st', (loadLines st' (pos + it.length + 2) rest).1 ≤ 0 ∨
        (loadLines st' (pos + it.length + 2) rest).1 + 2 ≤
          ((pos + ((it :: rest).map (fun l => l.length + 2)).sum : Nat) : Int) := by
      intro st'
      have := ih st' (pos + it.length + 2)
      simp only [List.map_cons, List.sum_cons]
      omega
    simp only [loadLines]
    split
    · cases rest with
      | nil => simp
      | cons r rest =>
        right
        simp only [List.isEmpty_cons, Bool.false_eq_true, if_false, List.map_cons, List.sum_cons]
        omega
    · split
      · cases hl : foldLine st (trimBoth it) with
        | ok st' => exact hstep st'
        | error e => exact .inl (foldLine_error st _ e hl).le
      · cases hl : fieldLine st (trimBoth it) with
        | ok st' => exact hstep st'
        | error e =>
          left
          have := fieldLine_error st _ e hl
          simp only
          split
          · exact Int.le_refl 0
          · exact this.le

theorem isPrefixOf_append (pat x y : Bytes) (h : pat.length ≤ x.length) :
    pat.isPrefixOf (x ++ y) = pat.isPrefixOf x := by
  rw [Bool.eq_iff_iff, List.isPrefixOf_iff_prefix, List.isPrefixOf_iff_prefix]
  constructor
  · intro hp
    exact List.prefix_of_prefix_length_le hp (List.prefix_append x y) h
  · intro hp
    exact hp.trans (List.prefix_append x y)

theorem frontType_append (x y : Bytes) (h : 9 ≤ x.length) : frontType (x ++ y) = frontType x := by
  have hp : ∀ pat : Bytes, pat.length ≤ 8 → pat.isPrefixOf (x ++ y) = pat.isPrefixOf x :=
    fun pat hl => isPrefixOf_append pat x y (by omega)
  unfold frontType
  rw [hp (lit "HTTP/1.") (by decide), hp (lit "GET ") (by decide), hp (lit "HEAD ") (by decide),
    hp (lit "POST ") (by decide), hp (lit "CONNECT ") (by decide),
    List.getElem?_append_left (by omega)]

theorem frontType_le (x : Bytes) (type : HeadType) (proto : Option UInt8) (n : Nat)
    (h : frontType x = some (type, proto, n)) : n ≤ 8 := by
  unfold frontType at h
  split at h
  · simp at h; omega
  · split at h
    · simp at h; omega
    · split at h
      · simp at h; omega
      · split at h
        · simp at h; omega
        · split at h
          · simp at h; omega
          · simp at h

/-- Once `Load` has a verdict on an input, further input does not change it. -/
theorem load_append (x y : Bytes) (unk : UnkMap) (h : (load x unk).1 ≠ 0) :
    load (x ++ y) unk = load x unk := by
  unfold load at h ⊢
  by_cases hx : x.length < 9
  · simp [hx] at h
  · have hxy : ¬ (x ++ y).length < 9 := by simp; omega
    simp only [hx, hxy, if_false] at h ⊢
    rw [frontType_append x y (by omega)]
    cases hf : frontType x with
    | none => rfl
    | some r =>
      obtain ⟨type, proto, n⟩ := r
      have hn := frontType_le x type proto n hf
      have hd : (x ++ y).drop n = x.drop n ++ y := List.drop_append_of_le_length (by omega)
      simp only [hf] at h ⊢
      rw [hd]
      obtain ⟨done, z, hs, hz, -, ha⟩ := slices_append crlf 0 (x.drop n) (Nat.zero_le _)
      have hlast : slices crlf 0 z = [z] := by
        have := ha []
        simp only [List.append_nil, hs] at this
        exact (List.append_cancel_left this).symm
      rw [ha y]
      rw [hs] at h ⊢
      cases done with
      | nil =>
        exfalso
        simp only [List.nil_append] at h
        cases hfl : firstLine { type, proto := proto.getD 49 } z <;> simp [hfl, loadLines] at h
      | cons it done =>
        simp only [List.cons_append] at h ⊢
        cases hfl : firstLine { type, proto := proto.getD 49 } it with
        | none => simp [hfl] at h
        | some hd =>
          simp only [hfl] at h ⊢
          cases hm : slices crlf 0 (z ++ y) with
          | nil => exact absurd hm (slices_ne_nil _ _ _)
          | cons m ms =>
            exact loadLines_stable _ _ done z m ms (isFolded_extend z y m ms hlast hm) h

theorem load_le (x : Bytes) (unk : UnkMap) : (load x unk).1 ≤ x.length := by
  unfold load
  split
  · simp
  · cases hf : frontType x with
    | none => simp
    | some r =>
      obtain ⟨type, proto, n⟩ := r
      have hn := frontType_le x type proto n hf
      have hl := slices_length crlf (by simp [crlf]) 0 (x.drop n) (Nat.zero_le _)
      simp only
      cases hs : slices crlf 0 (x.drop n) with
      | nil => exact absurd hs (slices_ne_nil _ _ _)
      | cons it rest =>
        simp only
        cases hfl : firstLine { type, proto := proto.getD 49 } it with
        | none => simp
        | some hd =>
          have := loadLines_le { hd := hd, unk := unk } (n + it.length + 2) rest
          rw [hs] at hl
          have hsum : it.length + 2 + (rest.map (fun l : Bytes => l.length + 2)).sum =
              x.length - n + 2 := by
            have h2 : crlf.length = 2 := rfl
            simp only [List.map_cons, List.sum_cons, h2, List.length_drop, Nat.add_zero] at hl
            exact hl
          simp only
          omega

/-- Before its last byte has arrived, an acceptable head is only incomplete. -/
theorem load_partial (head buf unread : Bytes) (unk : UnkMap) (h : buf ++ unread = head)
    (hu : unread ≠ []) (hl : (load head unk).1 = head.length) : (load buf unk).1 = 0 := by
  by_contra hne
  have he := load_append buf unread unk hne
  rw [h] at he
  have hle := load_le buf unk
  rw [← he, hl, ← h] at hle
  have := List.length_pos_iff.mpr hu
  simp only [List.length_append] at hle
  omega

/-- The parser accepts at the first empty line that is terminated. -/
theorem loadLines_end (st : LineState) (pos : Nat) (lines : List Bytes)
    (h : 0 < (loadLines st pos lines).1) :
    ∃ (done : List Bytes) (m : Bytes) (ms : List Bytes),
      lines = done ++ [] :: m :: ms ∧ (∀ l ∈ done, l ≠ []) ∧
      (loadLines st pos lines).1 = ((pos + (done.map (fun l => l.length + 2)).sum + 2 : Nat) : Int) := by
  induction lines generalizing st pos with
  | nil => simp [loadLines] at h
  | cons it rest ih =>
    have hstep : ∀ st', it ≠ [] → 0 < (loadLines st' (pos + it.length + 2) rest).1 →
        ∃ (done : List Bytes) (m : Bytes) (ms : List Bytes),
          it :: rest = done ++ [] :: m :: ms ∧ (∀ l ∈ done, l ≠ []) ∧
          (loadLines st' (pos + it.length + 2) rest).1 =
            ((pos + (done.map (fun l => l.length + 2)).sum + 2 : Nat) : Int) := by
      intro st' hne hpos
      obtain ⟨done, m, ms, hl, hd, hr⟩ := ih st' (pos + it.length + 2) hpos
      refine ⟨it :: done, m, ms, by rw [hl]; rfl, ?_, ?_⟩
      · intro l hl'
        rcases List.mem_cons.mp hl' with rfl | hl'
        · exact hne
        · exact hd l hl'
      · rw [hr]
        simp only [List.map_cons, List.sum_cons]
        omega
    simp only [loadLines] at h ⊢
    split at h
    · rename_i he
      rw [List.isEmpty_iff] at he
      subst he
      cases rest with
      | nil => simp at h
      | cons m ms => exact ⟨[], m, ms, rfl, by simp, by simp⟩
    · rename_i he
      have hne : it ≠ [] := by simpa using he
      rw [if_neg he]
      split at h
      · rename_i hf
        simp only [hf, if_true]
        cases hl : foldLine st (trimBoth it) with
        | ok st' =>
          simp only [hl] at h
          exact hstep st' hne h
        | error e =>
          have := foldLine_error st _ e hl
          simp only [hl] at h
          omega
      · rename_i hf
        simp only [hf]
        cases hl : fieldLine st (trimBoth it) with
        | ok st' =>
          simp only [hl] at h
          exact hstep st' hne h
        | error e =>
          have := fieldLine_error st _ e hl
          simp only [hl] at h
          split at h <;> omega

/-- The prefix that tells the type has no carriage return. That of an answer is
one byte shorter than what is cut off. -/
theorem frontType_split (x : Bytes) (type : HeadType) (proto : Option UInt8) (n : Nat)
    (h : frontType x = some (type, proto, n)) :
    ∃ pre t, x = pre ++ t ∧ 13 ∉ pre ∧ 4 ≤ pre.length ∧
      ((type = .answer ∧ pre = lit "HTTP/1." ∧ n = pre.length + 1) ∨
        (type ≠ .answer ∧ (lit "HTTP/1.").isPrefixOf x = false ∧ n = pre.length)) := by
  unfold frontType at h
  split at h
  · rename_i hp
    obtain ⟨t, ht⟩ := List.isPrefixOf_iff_prefix.mp hp
    simp only [Option.some.injEq, Prod.mk.injEq] at h
    exact ⟨_, t, ht.symm, by decide, by decide, .inl ⟨h.1.symm, rfl, h.2.2.symm⟩⟩
  · rename_i hn
    rw [Bool.not_eq_true] at hn
    -- the types of a request have nothing in common with the one of an answer
    have hrequest : ∀ (pre : Bytes) (found : HeadType), pre.isPrefixOf x = true → found ≠ .answer → 13 ∉ pre →
        4 ≤ pre.length → some (found, (none : Option UInt8), pre.length) = some (type, proto, n) →
        ∃ pre t, x = pre ++ t ∧ 13 ∉ pre ∧ 4 ≤ pre.length ∧
          ((type = .answer ∧ pre = lit "HTTP/1." ∧ n = pre.length + 1) ∨
            (type ≠ .answer ∧ (lit "HTTP/1.").isPrefixOf x = false ∧ n = pre.length)) := by
      intro pre found hp hfound hplain hlong heq
      obtain ⟨t, ht⟩ := List.isPrefixOf_iff_prefix.mp hp
      simp only [Option.some.injEq, Prod.mk.injEq] at heq
      exact ⟨pre, t, ht.symm, hplain, hlong, .inr ⟨heq.1 ▸ hfound, hn, heq.2.2.symm⟩⟩
    split at h
    · rename_i hp
      exact hrequest _ .get hp (by decide) (by decide) (by decide) h
    · split at h
      · rename_i hp
        exact hrequest _ .head hp (by decide) (by decide) (by decide) h
      · split at h
        · rename_i hp
          exact hrequest _ .post hp (by decide) (by decide) (by decide) h
        · split at h
          · rename_i hp
            exact hrequest _ .connect hp (by decide) (by decide) (by decide) h
          · cases h

/-- No doubled newline starts in the part that tells the type, unless it makes the status
line an empty one. -/
theorem frontType_find (x : Bytes) (type : HeadType) (proto : Option UInt8) (n : Nat)
    (h : frontType x = some (type, proto, n)) (hx : 9 ≤ x.length)
    (hok : type = .answer → (lit "\n\r\n").isPrefixOf (x.drop n) = false) :
    find (crlf ++ crlf) x = (find (crlf ++ crlf) (x.drop n)).map (· + n) := by
  obtain ⟨pre, t, rfl, h13, -, hcase⟩ := frontType_split x type proto n h
  have hfind : find (crlf ++ crlf) (pre ++ t) = (find (crlf ++ crlf) t).map (· + pre.length) :=
    find_behind 13 [10, 13, 10] pre t h13
  rcases hcase with ⟨ha, rfl, rfl⟩ | ⟨-, -, rfl⟩
  · cases t with
    | nil =>
      rw [List.append_nil] at hx
      change 9 ≤ 7 at hx
      omega
    | cons c t =>
      have hd : (lit "HTTP/1." ++ c :: t).drop ((lit "HTTP/1.").length + 1) = t := rfl
      rw [hd] at hok ⊢
      have hno : (crlf ++ crlf).isPrefixOf (c :: t) = false := by
        change (((13 : UInt8) == c) && (lit "\n\r\n").isPrefixOf t) = false
        rw [hok ha, Bool.and_false]
      rw [hfind, find, hno]
      simp [Option.map_map, Function.comp_def, Nat.add_assoc]
      rfl
  · rw [List.drop_left, hfind]

/-- An accepted head ends right behind its first empty line. -/
theorem load_end (x : Bytes) (unk : UnkMap) (h : 0 < (load x unk).1) :
    ∃ p, find (crlf ++ crlf) x = some p ∧ (load x unk).1 = ((p + 4 : Nat) : Int) := by
  unfold load at h ⊢
  by_cases hx : x.length < 9
  · simp [hx] at h
  · simp only [hx, if_false] at h ⊢
    cases hf : frontType x with
    | none => simp [hf] at h
    | some r =>
      obtain ⟨type, proto, n⟩ := r
      simp only [hf] at h ⊢
      cases hs : slices crlf 0 (x.drop n) with
      | nil => exact absurd hs (slices_ne_nil _ _ _)
      | cons it rest =>
        simp only [hs] at h ⊢
        cases hfl : firstLine { type, proto := proto.getD 49 } it with
        | none => simp [hfl] at h
        | some hd =>
          simp only [hfl] at h ⊢
          obtain ⟨done, m, ms, hl, hd', hr⟩ := loadLines_end _ _ _ h
          rw [hl] at hs
          have hfind := find_empty_slice _ it m done ms hs hd'
          have hok : type = .answer → (lit "\n\r\n").isPrefixOf (x.drop n) = false := by
            rintro rfl
            rw [← Bool.not_eq_true, List.isPrefixOf_iff_prefix]
            rintro ⟨t, ht⟩
            rw [← ht] at hs
            have hit : it = [10] := by
              change slices crlf 0 (10 :: 13 :: 10 :: t) = _ at hs
              rw [slices_cons 10 _ rfl, slices_crlf, consHead] at hs
              simp only [List.cons.injEq] at hs
              exact hs.1.symm
            rw [hit] at hfl
            cases hfl
          rw [frontType_find x type proto n hf (by omega) hok, hfind]
          refine ⟨_, rfl, ?_⟩
          rw [hr]
          simp only
          omega

/-- What the parser says about a prefix of its input, other than that it wants more, it says
about the whole, and an accepted head ends behind the first empty line. Before its last byte
has arrived such a head is only incomplete. -/
theorem load_stable (x y : Bytes) (unk : UnkMap) :
    ((load x unk).1 ≠ 0 → (load (x ++ y) unk).1 = (load x unk).1 ∧
      (0 < (load x unk).1 → (load (x ++ y) unk).2.hd = (load x unk).2.hd ∧
        (load (x ++ y) unk).2.unk = (load x unk).2.unk ∧
        ∃ p, find (crlf ++ crlf) x = some p ∧ (load x unk).1 = ((p + 4 : Nat) : Int))) ∧
      ((load (x ++ y) unk).1 = (x ++ y).length → y ≠ [] → (load x unk).1 = 0) := by
  refine ⟨fun h => ?_, fun h hy => load_partial (x ++ y) x y unk rfl hy h⟩
  rw [load_append x y unk h]
  exact ⟨rfl, fun hpos => ⟨rfl, rfl, load_end x unk hpos⟩⟩

/-- A request is read the same way if the next one is behind it. -/
theorem load_stable_pipelined :
    (load (lit "GET /a HTTP/1.1\r\n\r\n" ++ lit "GET /b") none).1 =
        (load (lit "GET /a HTTP/1.1\r\n\r\n") none).1 ∧
      (load (lit "GET /a HTTP/1.1\r\n\r") none).1 = 0 :=
  ⟨((load_stable (lit "GET /a HTTP/1.1\r\n\r\n") (lit "GET /b") none).1 (by decide)).1,
    (load_stable (lit "GET /a HTTP/1.1\r\n\r") (lit "\n") none).2 (by decide) (by decide)⟩

end Acng.Header
