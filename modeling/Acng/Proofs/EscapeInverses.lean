import Acng.DirWalk
import Acng.Proofs.RoundTrip

namespace Acng
open Lib

/-- Each percent sign has two hex digits behind it. -/
def wellEscaped : Bytes → Bool
  | c :: a :: b :: t =>
    if c == 37 then
      match hexVal a, hexVal b with
      | some _, some _ => wellEscaped t
      | _, _ => false
    else wellEscaped (a :: b :: t)
  | c :: s => c != 37 && wellEscaped s
  | [] => true
termination_by structural s => s

theorem wellEscaped_nil : wellEscaped [] = true := rfl

theorem wellEscaped_triple (c a b : UInt8) (t : Bytes) :
    wellEscaped (c :: a :: b :: t) =
      if c == 37 then
        match hexVal a, hexVal b with
        | some _, some _ => wellEscaped t
        | _, _ => false
      else wellEscaped (a :: b :: t) :=
  rfl

theorem wellEscaped_other {c : UInt8} (s : Bytes) (h : (c == 37) = false) :
    wellEscaped (c :: s) = wellEscaped s := by
  rcases s with - | ⟨a, - | ⟨b, t⟩⟩
  · change (c != 37 && wellEscaped []) = _
    rw [bne, h]
    rfl
  · change (c != 37 && wellEscaped [a]) = _
    rw [bne, h]
    rfl
  · rw [wellEscaped_triple, h]
    rfl

/-- A percent sign is lost unless there are two hex digits behind it. -/
theorem lost_percent {s : Bytes}
    (hno : ∀ x y, hexVal (charAt s 0) = some x → hexVal (charAt s 1) = some y → False) :
    urlUnescape (37 :: s) = urlUnescape s ∧ wellEscaped (37 :: s) = false := by
  rcases s with - | ⟨a, - | ⟨b, t⟩⟩
  · exact ⟨rfl, rfl⟩
  · exact ⟨rfl, rfl⟩
  · refine ⟨urlUnescape_dropped rfl hno, ?_⟩
    rw [wellEscaped_triple, if_pos (beq_self_eq_true _)]
    split
    · next x y hx hy => exact (hno x y hx hy).elim
    · rfl

theorem charAt_drop (src : Bytes) (i j : Nat) : charAt (src.drop i) j = charAt src (i + j) := by
  rw [charAt, charAt, List.getD_eq_getElem?_getD, List.getElem?_drop, ← List.getD_eq_getElem?_getD]

theorem drop_charAt {src : Bytes} {i : Nat} (hi : i < src.length) :
    src.drop i = charAt src i :: src.drop (i + 1) := by
  rw [charAt, List.getD_eq_getElem?_getD, List.getElem?_eq_getElem hi, Option.getD_some]
  exact List.drop_eq_getElem_cons hi

theorem charAt_lt {src : Bytes} {i x : Nat} (h : hexVal (charAt src i) = some x) : i < src.length := by
  by_contra hi
  rw [charAt, List.getD_eq_getElem?_getD, List.getElem?_eq_none (by omega)] at h
  cases h

theorem urlUnescapeLoop_eq (src : Bytes) (i : Nat) (ret : Bool) (out : Bytes) :
    urlUnescapeLoop src i ret out = (ret && wellEscaped (src.drop i), out ++ urlUnescape (src.drop i)) := by
  induction i, ret, out using urlUnescapeLoop.induct src with
  | case1 i ret out hi hc ih =>
    have hother : (charAt src i == 37) = false := beq_false_of_ne hc
    rw [urlUnescapeLoop, if_pos hi, if_pos hc, ih, drop_charAt hi, wellEscaped_other _ hother,
      urlUnescape_other _ hother, List.append_assoc]
    rfl
  | case2 i ret out hi hc hfar ih =>
    have hno : ∀ x y, hexVal (charAt src (i + 1)) = some x → hexVal (charAt src (i + 2)) = some y → False := by
      intro x y _ hy
      have hlt := charAt_lt hy
      rw [lengthMinus3] at hfar
      split at hfar <;> omega
    obtain ⟨hdecoded, hbad⟩ := lost_percent (s := src.drop (i + 1)) (by simpa [charAt_drop] using hno)
    rw [urlUnescapeLoop, if_pos hi, if_neg hc, if_pos hfar, ih, drop_charAt hi, not_not.mp hc, hdecoded, hbad]
    simp
  | case3 i ret out hi hc hnear x y hy hx ih =>
    have h1 := charAt_lt hx
    have h2 := charAt_lt hy
    rw [urlUnescapeLoop, if_pos hi, if_neg hc, if_neg hnear, hx, hy]
    simp only
    rw [ih, drop_charAt hi, drop_charAt h1, drop_charAt h2, not_not.mp hc, wellEscaped_triple,
      urlUnescape_triple, hx, hy]
    simp
  | case4 i ret out hi hc hnear hno ih =>
    obtain ⟨hdecoded, hbad⟩ := lost_percent (s := src.drop (i + 1)) (by simpa [charAt_drop] using hno)
    rw [urlUnescapeLoop, if_pos hi, if_neg hc, if_neg hnear]
    split
    · next x y hx hy => exact (hno x y hx hy).elim
    · rw [ih, drop_charAt hi, not_not.mp hc, hdecoded, hbad]
      simp
  | case5 i ret out hi =>
    rw [urlUnescapeLoop, if_neg hi, List.drop_eq_nil_of_le (by omega)]
    simp [wellEscaped_nil, urlUnescape_nil]

theorem wellEscaped_pctEncode (allowed : UInt8 → Bool) (hpct : allowed 37 = false) (s : Bytes) :
    wellEscaped (pctEncode allowed s) = true := by
  induction s with
  | nil => rfl
  | cons c s ih =>
    rw [pctEncode, List.flatMap_cons, ← pctEncode]
    cases hc : allowed c with
    | true =>
      have hother : (c == 37) = false := by
        refine beq_false_of_ne (fun h => ?_)
        rw [h, hpct] at hc
        cases hc
      rw [if_pos rfl, List.singleton_append, wellEscaped_other _ hother, ih]
    | false =>
      have hlt := c.toNat_lt
      simp only [Bool.false_eq_true, if_false, List.cons_append, List.nil_append, wellEscaped_triple,
        beq_self_eq_true, if_true, hexVal_hexDigit (by omega : c.toNat / 16 < 16),
        hexVal_hexDigit (by omega : c.toNat % 16 < 16), ih]

/-- An allowed byte, or a percent sign with two hex digits. -/
def EscapePiece (allowed : UInt8 → Bool) (piece : Bytes) : Prop :=
  (∃ c, allowed c = true ∧ piece = [c]) ∨
    ∃ a b, isxdigit a = true ∧ isxdigit b = true ∧ piece = [37, a, b]

/-- It is read back as it was, behind any text, and it is made of such pieces. -/
structure EscapedBack (allowed : UInt8 → Bool) (escape : Bytes → Bytes) (s : Bytes) : Prop where
  back (out : Bytes) : urlUnescapeAppend (escape s) out = (true, out ++ s)
  pieces : ∃ pieces : List Bytes, (∀ piece ∈ pieces, EscapePiece allowed piece) ∧ escape s = pieces.flatten
  percent : allowed 37 = false

theorem escapedBack_pctEncode {allowed : UInt8 → Bool} (hpct : allowed 37 = false) (s : Bytes) :
    EscapedBack allowed (pctEncode allowed) s where
  back out := by
    have hback := urlUnescape_pctEncode allowed hpct s []
    rw [List.append_nil] at hback
    rw [urlUnescapeAppend, urlUnescapeLoop_eq, List.drop_zero, wellEscaped_pctEncode allowed hpct, hback]
    simp [urlUnescape_nil]
  pieces := by
    refine ⟨_, ?_, List.flatMap_def⟩
    intro piece hmem
    obtain ⟨c, -, rfl⟩ := List.mem_map.mp hmem
    have hlt := c.toNat_lt
    cases hc : allowed c with
    | true => exact .inl ⟨c, hc, by rw [if_pos rfl]⟩
    | false =>
      refine .inr ⟨_, _, ?_, ?_, by rw [if_neg Bool.false_ne_true]⟩
      · rw [isxdigit, hexVal_hexDigit (by omega : c.toNat / 16 < 16)]
        rfl
      · rw [isxdigit, hexVal_hexDigit (by omega : c.toNat % 16 < 16)]
        rfl
  percent := hpct

theorem dosEscape_eq (s : Bytes) : dosEscape s = pctEncode isSafeUrlChar s := by
  have hdigit : ∀ n : Fin 16, (lit "0123456789abcdef").getD n 48 = hexDigit n := by decide +kernel
  rw [dosEscape, pctEncode]
  refine List.flatMap_congr (fun c _ => ?_)
  have hlt := c.toNat_lt
  have hhigh := hdigit ⟨c.toNat / 16, by omega⟩
  have hlow := hdigit ⟨c.toNat % 16, by omega⟩
  simp only at hhigh hlow ⊢
  rw [hhigh, hlow]

theorem splitOn_behind {piece : Bytes} (h : 47 ∉ piece) (t : Bytes) :
    (piece ++ t).splitOn 47 = (t.splitOn 47).modifyHead (piece ++ ·) := by
  induction piece with
  | nil =>
    rw [List.nil_append]
    cases t.splitOn 47 <;> rfl
  | cons c piece ih =>
    rw [List.mem_cons, not_or] at h
    have hc : ¬ (c == 47) = true := by simpa using Ne.symm h.1
    rw [List.cons_append, List.splitOn_cons_eq_if_modifyHead, if_neg hc, ih h.2]
    cases t.splitOn 47 <;> rfl

theorem dosEscape_cons (c : UInt8) (s : Bytes) : dosEscape (c :: s) = dosEscape [c] ++ dosEscape s := by
  simp [dosEscape]

/-- A slash comes from a slash only. -/
theorem slash_dosEscape {c : UInt8} (h : c ≠ 47) : 47 ∉ dosEscape [c] := by
  have hdigit : ∀ n : Fin 16, hexDigit n ≠ 47 := by decide
  have hlt := c.toNat_lt
  have hhigh := hdigit ⟨c.toNat / 16, by omega⟩
  have hlow := hdigit ⟨c.toNat % 16, by omega⟩
  rw [dosEscape_eq, pctEncode, List.flatMap_cons, List.flatMap_nil, List.append_nil]
  split
  · simpa using Ne.symm h
  · simp only at hhigh hlow
    simp [Ne.symm hhigh, Ne.symm hlow]

theorem splitOn_dosEscape (s : Bytes) : (dosEscape s).splitOn 47 = (s.splitOn 47).map dosEscape := by
  induction s with
  | nil => rfl
  | cons c s ih =>
    rw [dosEscape_cons, List.splitOn_cons_eq_if_modifyHead]
    by_cases hc : c = 47
    · have hslash : dosEscape [47] = [47] := by decide
      rw [hc, hslash, List.singleton_append, List.splitOn_cons_eq_if_modifyHead, ih]
      rfl
    · have hne : ¬ (c == 47) = true := by simpa using hc
      rw [splitOn_behind (slash_dosEscape hc), ih, if_neg hne]
      cases s.splitOn 47 with
      | nil => rfl
      | cons name names => simp [dosEscape_cons c name]

theorem flatMap_splitOn (s : Bytes) : (s.splitOn 47).flatMap (47 :: ·) = 47 :: s := by
  induction s with
  | nil => rfl
  | cons c s ih =>
    rw [List.splitOn_cons_eq_if_modifyHead]
    by_cases hc : (c == 47) = true
    · rw [if_pos hc, List.flatMap_cons, ih, eq_of_beq hc]
      rfl
    · rw [if_neg hc]
      cases hsplit : s.splitOn 47 with
      | nil => exact absurd hsplit (List.splitOn_ne_nil 47 s)
      | cons name names =>
        rw [hsplit, List.flatMap_cons] at ih
        have htail : name ++ names.flatMap (47 :: ·) = s := (List.cons.inj ih).2
        rw [List.modifyHead_cons, List.flatMap_cons, List.cons_append, List.cons_append, htail]

/-- The paths of the walk go down to the path that was stored. -/
theorem childPath_dosEscape {mode : WalkMode} (hstupid : mode.stupidfs = true) (sRoot s : Bytes) :
    ((dosEscape s).splitOn 47).foldl (childPath mode) sRoot = sRoot ++ lit "/" ++ s := by
  have hfold (names : List Bytes) (sPath : Bytes) :
      (names.map dosEscape).foldl (childPath mode) sPath = sPath ++ names.flatMap (47 :: ·) := by
    induction names generalizing sPath with
    | nil => exact (List.append_nil sPath).symm
    | cons name names ih =>
      have hback := urlUnescape_pctEncode isSafeUrlChar (by decide) name []
      rw [List.append_nil, ← dosEscape_eq, urlUnescape_nil, List.append_nil] at hback
      rw [List.map_cons, List.foldl_cons, ih, childPath, hstupid, if_pos rfl, hback]
      rw [List.flatMap_cons, List.append_assoc, List.append_assoc]
      rfl
  rw [splitOn_dosEscape, hfold, flatMap_splitOn, List.append_assoc]
  rfl

/-- For all three, and for the paths that the walk makes of the names of a stored path. -/
theorem escapes_back (s : Bytes) :
    EscapedBack isSafeUrlChar urlEscape s ∧ EscapedBack isAllowedUnencodedUserinfoChar userinfoEscape s ∧
      EscapedBack isSafeUrlChar dosEscape s ∧
      ∀ (bFilterDoubleDirVisit bFollowSymlinks : Bool) (sRoot : Bytes),
        ((dosEscape s).splitOn 47).foldl (childPath ⟨true, bFilterDoubleDirVisit, bFollowSymlinks⟩) sRoot =
          sRoot ++ lit "/" ++ s := by
  have hdos : dosEscape = pctEncode isSafeUrlChar := funext dosEscape_eq
  refine ⟨escapedBack_pctEncode (by decide) s, escapedBack_pctEncode (by decide) s, ?_, ?_⟩
  · rw [hdos]
    exact escapedBack_pctEncode (by decide) s
  · intro bFilterDoubleDirVisit bFollowSymlinks sRoot
    exact childPath_dosEscape rfl sRoot s

end Acng
