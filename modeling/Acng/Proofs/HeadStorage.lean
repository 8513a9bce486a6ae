import Acng.HeadStorage
import Acng.Proofs.Decimal
import Acng.Proofs.Load

namespace Acng
open Lib

/-- What an item stores is this text with its own origin. -/
theorem headText_eq (fi : FileItem) (contLen : Int) (lastModified : Option HttpDate) :
    StoredItem.headText fi contLen lastModified = formatHead contLen lastModified (some fi.responseOrigin) := rfl

/-- The head fields of a stored head. -/
def headFields (contLen : Int) (d : HttpDate) (o : Bytes) : List (HeadPos × Bytes) :=
  (if 0 ≤ contLen then [(.contentLength, dec contLen)] else []) ++
    (if d.isSet then [(.lastModified, d.buf)] else []) ++
    (if o.isEmpty then [] else [(.xOrig, o)])

def headLine (f : HeadPos × Bytes) : Bytes := mapId2Headname f.1 ++ lit ": " ++ f.2

theorem formatHead_eq (contLen : Int) (d : HttpDate) (o : Bytes) :
    formatHead contLen (some d) (some o) =
      unlines (lit "HTTP/1.1 200 OK" :: (headFields contLen d o).map headLine) ++ crlf := by
  have hs : lit "HTTP/1.1 200 OK\r\n" = lit "HTTP/1.1 200 OK" ++ crlf := rfl
  have hl : lit "Content-Length: " = mapId2Headname .contentLength ++ lit ": " := rfl
  have hd : lit "Last-Modified: " = mapId2Headname .lastModified ++ lit ": " := rfl
  have ho : lit "X-Original-Source: " = mapId2Headname .xOrig ++ lit ": " := rfl
  unfold formatHead headFields
  rw [hs, hl, hd, ho]
  by_cases h1 : 0 ≤ contLen <;> cases h2 : d.isSet <;> cases h3 : o.isEmpty <;>
    simp [h1, h2, h3, unlines, headLine]

/-- The lines of a stored head behind its status line. -/
def storedLines (contLen : Int) (d : HttpDate) (o : Bytes) : List Bytes :=
  ((headFields contLen d o).map headLine).flatMap (slices crlf 0) ++ [[], []]

theorem slices_formatHead (contLen : Int) (d : HttpDate) (o : Bytes) :
    slices crlf 0 (formatHead contLen (some d) (some o)) =
      lit "HTTP/1.1 200 OK" :: storedLines contLen d o := by
  rw [formatHead_eq, slices_unlines, List.flatMap_cons, slices_line (lit "HTTP/1.1 200 OK") (by decide)]
  rfl

/-- The first line of a field in front of the empty line, with what is behind it. -/
def firstField (pfx : Bytes) : List Bytes → Option (List Bytes)
  | [] => none
  | it :: rest =>
    if it.isEmpty then none
    else if pfx.isPrefixOf it then some (it :: rest)
    else firstField pfx rest

def lengthOf (ls : List Bytes) : Int := strtoll ((crlf.intercalate ls).drop 15)

def dateOf (lib : DateLib) (ls : List Bytes) : HttpDate :=
  .ofView lib (trimBoth ((ls.headD []).drop laMoPfx.length))

def originOf (ls : List Bytes) : Bytes := trimBoth ((ls.headD []).drop origSrcPfx.length)

theorem pfx_disjoint (a b : UInt8) (p q it : Bytes) (hab : a ≠ b)
    (h : (a :: p).isPrefixOf it = true) :
    (b :: q).isPrefixOf it = false := by
  cases it with
  | nil => cases h
  | cons c it =>
    simp only [List.isPrefixOf, Bool.and_eq_true, beq_iff_eq] at h ⊢
    rw [← h.1]
    simp [hab.symm]

theorem contLenPfx_disjoint (it : Bytes) (h : contLenPfx.isPrefixOf it = true) :
    laMoPfx.isPrefixOf it = false ∧ origSrcPfx.isPrefixOf it = false :=
  ⟨pfx_disjoint 67 76 _ _ it (by decide) h, pfx_disjoint 67 88 _ _ it (by decide) h⟩

theorem laMoPfx_disjoint (it : Bytes) (h : laMoPfx.isPrefixOf it = true) :
    contLenPfx.isPrefixOf it = false ∧ origSrcPfx.isPrefixOf it = false :=
  ⟨pfx_disjoint 76 67 _ _ it (by decide) h, pfx_disjoint 76 88 _ _ it (by decide) h⟩

/-- The fields are read independently of each other. -/
theorem parseHeadLines_eq (lib : DateLib) (v : HeadValues) (w : HeadWants) (ls : List Bytes) :
    parseHeadLines lib v w ls =
      { contLen := if w.contLen then ((firstField contLenPfx ls).map lengthOf).getD v.contLen else v.contLen
        lastModified := if w.lastModified then
            ((firstField laMoPfx ls).map (dateOf lib)).getD v.lastModified else v.lastModified
        origSrc := if w.origSrc then
            ((firstField origSrcPfx ls).map originOf).getD v.origSrc else v.origSrc } := by
  induction ls generalizing v w with
  | nil => simp [parseHeadLines, firstField]
  | cons it rest ih =>
    unfold parseHeadLines firstField
    by_cases he : it.isEmpty = true
    · simp [he]
    · simp only [he, Bool.false_eq_true, if_false]
      by_cases hc : contLenPfx.isPrefixOf it = true
      · obtain ⟨hl, ho⟩ := contLenPfx_disjoint it hc
        cases hw : w.contLen <;> simp [hc, hl, ho, ih, hw, lengthOf]
      · by_cases hl : laMoPfx.isPrefixOf it = true
        · have ho := (laMoPfx_disjoint it hl).2
          cases hw : w.lastModified <;> simp [hc, hl, ho, ih, hw, dateOf]
        · by_cases ho : origSrcPfx.isPrefixOf it = true
          · cases hw : w.origSrc <;> simp [hc, hl, ho, ih, hw, originOf]
          · simp [hc, hl, ho, ih]

theorem formatHead_ne_nil (contLen : Int) (d : HttpDate) (o : Bytes) :
    formatHead contLen (some d) (some o) ≠ [] := by
  rw [formatHead_eq]
  exact List.cons_ne_nil _ _

theorem parseHead_formatHead (lib : DateLib) (v : HeadValues) (w : HeadWants) (contLen : Int)
    (d : HttpDate) (o : Bytes) :
    parseHead lib v w (formatHead contLen (some d) (some o)) =
      (true, parseHeadLines lib v w (storedLines contLen d o)) := by
  have hne : (formatHead contLen (some d) (some o)).isEmpty = false := by
    simpa using formatHead_ne_nil contLen d o
  have hp : (lit "HTTP/1.1 200").isPrefixOf (lit "HTTP/1.1 200 OK") = true := by decide
  unfold parseHead
  rw [hne, slices_formatHead]
  simp [hp]

/-- A printed number is read back up to a byte that is not a digit. -/
theorem strtoll_dec (n : Nat) (x : Bytes) (hn : n < 2 ^ 63) (hx : x.head?.any isdigit = false) :
    strtoll (dec n ++ x) = n := by
  rw [strtoll_digits (dec_ne n) (dec_digits n) hx, decimal_dec]
  omega

theorem strtoll_blank (s : Bytes) : strtoll (32 :: s) = strtoll s := by
  have hc : cstr (32 :: s) = 32 :: cstr s := by simp [cstr]
  have hs : isspace 32 = true := rfl
  unfold strtoll
  rw [hc, List.dropWhile_cons_of_pos hs]

theorem firstField_skip (pfx it : Bytes) (rest : List Bytes) (hne : it ≠ [])
    (h : pfx.isPrefixOf it = false) : firstField pfx (it :: rest) = firstField pfx rest := by
  have he : it.isEmpty = false := by simpa using hne
  simp [firstField, he, h]

theorem firstField_hit (pfx it : Bytes) (rest : List Bytes) (hne : it ≠ [])
    (h : pfx.isPrefixOf it = true) : firstField pfx (it :: rest) = some (it :: rest) := by
  have he : it.isEmpty = false := by simpa using hne
  simp [firstField, he, h]

theorem headname_plain (p : HeadPos) : 13 ∉ mapId2Headname p ++ lit ": " := by
  cases p <;> decide

/-- What a value has behind its first line end comes behind the line of its field. -/
theorem slices_headLine (p : HeadPos) (v l : Bytes) (ls : List Bytes)
    (h : slices crlf 0 v = l :: ls) : slices crlf 0 (headLine (p, v)) = headLine (p, l) :: ls :=
  slices_behind _ v l ls (headname_plain p) h

theorem headLine_ne_nil (f : HeadPos × Bytes) : headLine f ≠ [] := by
  unfold headLine
  simp [lit]

theorem isPrefixOf_headLine (pfx : Bytes) (p : HeadPos) (v : Bytes)
    (h : pfx.length ≤ (mapId2Headname p ++ lit ": ").length) :
    pfx.isPrefixOf (headLine (p, v)) = pfx.isPrefixOf (mapId2Headname p ++ lit ": ") :=
  Header.isPrefixOf_append pfx _ v h

/-- The lines that an origin puts behind its own. -/
def injected (o : Bytes) : List Bytes := (slices crlf 0 o).tail

/-- The length that a reader finds in the origin if the head has none. -/
def forgedLength (o : Bytes) : Option Int :=
  (firstField contLenPfx (injected o ++ [[], []])).map lengthOf

def forgedDate (lib : DateLib) (o : Bytes) : Option HttpDate :=
  (firstField laMoPfx (injected o ++ [[], []])).map (dateOf lib)

/-- The part of a stored head that comes from the origin. -/
def originLines (o : Bytes) : List Bytes :=
  ((if o.isEmpty then [] else [(HeadPos.xOrig, o)]).map headLine).flatMap (slices crlf 0) ++ [[], []]

theorem firstField_originLines (pfx o : Bytes)
    (h : ∀ x, pfx.isPrefixOf (headLine (.xOrig, x)) = false) :
    firstField pfx (originLines o) = firstField pfx (injected o ++ [[], []]) := by
  cases o with
  | nil => rfl
  | cons c o =>
    cases hs : slices crlf 0 (c :: o) with
    | nil => exact absurd hs (slices_ne_nil _ _ _)
    | cons l ls =>
      simp only [originLines, List.isEmpty_cons, Bool.false_eq_true, if_false, List.map_cons,
        List.map_nil, List.flatMap_cons, List.flatMap_nil, List.append_nil,
        slices_headLine _ _ l ls hs, injected, hs, List.tail_cons]
      exact firstField_skip pfx _ _ (headLine_ne_nil _) (h l)

/-- A known length has the first line for itself. -/
theorem storedLines_known (n : Nat) (d : HttpDate) (o : Bytes) :
    storedLines n d o = headLine (.contentLength, dec n) :: storedLines (-1) d o := by
  have h10 : 10 ∉ headLine (.contentLength, dec n) := by
    simp only [headLine, List.mem_append, not_or]
    exact ⟨by decide, fun h => (isdigit_graph 10 (dec_digits n 10 h)).2.2.2.2.2 rfl⟩
  have hn : (0 : Int) ≤ n := Int.natCast_nonneg n
  simp [storedLines, headFields, hn, slices_line _ h10]

theorem storedLines_unknown (contLen : Int) (d : HttpDate) (o : Bytes) (h : contLen < 0) :
    storedLines contLen d o = storedLines (-1) d o := by
  have hn : ¬ 0 ≤ contLen := by omega
  simp [storedLines, headFields, hn]

theorem storedLines_unset (d : HttpDate) (o : Bytes) (h : d.isSet = false) :
    storedLines (-1) d o = originLines o := by
  simp [storedLines, headFields, originLines, h]

theorem storedLines_set (d : HttpDate) (o l : Bytes) (ls : List Bytes) (h : d.isSet = true)
    (hb : slices crlf 0 d.buf = l :: ls) :
    storedLines (-1) d o = headLine (.lastModified, l) :: (ls ++ originLines o) := by
  simp [storedLines, headFields, originLines, h, slices_headLine _ _ l ls hb]

theorem lengthOf_headLine (n : Nat) (rest : List Bytes) (hn : n < 2 ^ 63) (hr : rest ≠ []) :
    lengthOf (headLine (.contentLength, dec n) :: rest) = n := by
  obtain ⟨r, rs, rfl⟩ := List.exists_cons_of_ne_nil hr
  have hd : (crlf.intercalate (headLine (.contentLength, dec n) :: r :: rs)).drop 15 =
      32 :: (dec n ++ 13 :: (10 :: crlf.intercalate (r :: rs))) := by
    have ha : headLine (.contentLength, dec n) = lit "Content-Length:" ++ (32 :: dec n) := rfl
    rw [List.intercalate_cons_cons, ha, List.append_assoc, List.append_assoc,
      List.drop_left' (by decide)]
    rfl
  rw [lengthOf, hd, strtoll_blank, strtoll_dec n _ hn rfl]

/-- The length that is read from a stored head. -/
theorem firstField_length (contLen : Int) (d : HttpDate) (o : Bytes) (hlen : contLen < 2 ^ 63)
    (hd : d.isSet = true → slices crlf 0 d.buf = [d.buf]) :
    ((firstField contLenPfx (storedLines contLen d o)).map lengthOf).getD (-1) =
      if 0 ≤ contLen then contLen else (forgedLength o).getD (-1) := by
  by_cases hc : 0 ≤ contLen
  · obtain ⟨n, rfl⟩ := Int.eq_ofNat_of_zero_le hc
    have hp : contLenPfx.isPrefixOf (headLine (.contentLength, dec n)) = true :=
      isPrefixOf_headLine _ .contentLength _ (by decide)
    rw [if_pos hc, storedLines_known, firstField_hit _ _ _ (headLine_ne_nil _) hp, Option.map_some,
      Option.getD_some]
    exact lengthOf_headLine n _ (by omega) (by simp [storedLines])
  · have ho := firstField_originLines contLenPfx o
      (fun x => isPrefixOf_headLine _ .xOrig x (by decide))
    rw [if_neg hc, storedLines_unknown _ _ _ (by omega), forgedLength, ← ho]
    cases hs : d.isSet with
    | false => rw [storedLines_unset d o hs]
    | true =>
      have hm : contLenPfx.isPrefixOf (headLine (.lastModified, d.buf)) = false :=
        isPrefixOf_headLine _ .lastModified _ (by decide)
      rw [storedLines_set d o _ _ hs (hd hs), firstField_skip _ _ _ (headLine_ne_nil _) hm]
      rfl

/-- The date that is read from a stored head. -/
theorem firstField_date (lib : DateLib) (contLen : Int) (d : HttpDate) (o : Bytes) :
    ((firstField laMoPfx (storedLines contLen d o)).map (dateOf lib)).getD {} =
      if d.isSet then .ofView lib (trimBoth ((slices crlf 0 d.buf).headD []))
      else (forgedDate lib o).getD {} := by
  have hskip : firstField laMoPfx (storedLines contLen d o) =
      firstField laMoPfx (storedLines (-1) d o) := by
    rcases Int.lt_or_le contLen 0 with hc | hc
    · rw [storedLines_unknown _ _ _ hc]
    · obtain ⟨n, rfl⟩ := Int.eq_ofNat_of_zero_le hc
      have hl : laMoPfx.isPrefixOf (headLine (.contentLength, dec n)) = false :=
        isPrefixOf_headLine _ .contentLength _ (by decide)
      rw [storedLines_known, firstField_skip _ _ _ (headLine_ne_nil _) hl]
  rw [hskip]
  cases hs : d.isSet with
  | false =>
    have ho := firstField_originLines laMoPfx o
      (fun x => isPrefixOf_headLine _ .xOrig x (by decide))
    rw [storedLines_unset d o hs, ho]
    rfl
  | true =>
    cases hb : slices crlf 0 d.buf with
    | nil => exact absurd hb (slices_ne_nil _ _ _)
    | cons l ls =>
      have hm : laMoPfx.isPrefixOf (headLine (.lastModified, l)) = true :=
        isPrefixOf_headLine _ .lastModified _ (by decide)
      have ha : headLine (.lastModified, l) = laMoPfx ++ l := rfl
      rw [storedLines_set d o l ls hs hb, firstField_hit _ _ _ (headLine_ne_nil _) hm,
        Option.map_some, Option.getD_some, dateOf, List.headD_cons, ha, List.drop_left]
      rfl

theorem trimBoth_length (b : Bytes) : (trimBoth b).length ≤ b.length := by
  refine Nat.le_trans (List.dropWhile_sublist _).length_le ?_
  exact (List.rdropWhile_prefix _ b).length_le

/-- The bytes of a date object: they fit its buffer, and a date that is not set has none. -/
structure HttpDate.WellFormed (d : HttpDate) : Prop where
  fits : d.buf.length < 30
  set : d.buf.head? ≠ some 0

/-- A date is read back as it was if it is one line without blanks around it. -/
theorem date_kept_iff (lib : DateLib) (d : HttpDate) (hd : d.WellFormed) (hs : d.isSet = true) :
    HttpDate.ofView lib (trimBoth ((slices crlf 0 d.buf).headD [])) = d ↔
      slices crlf 0 d.buf = [d.buf] ∧ trimBoth d.buf = d.buf := by
  have hfits := hd.fits
  constructor
  · intro h
    cases hb : slices crlf 0 d.buf with
    | nil => exact absurd hb (slices_ne_nil _ _ _)
    | cons l ls =>
      have hlen := slices_length crlf (by decide) 0 d.buf (Nat.zero_le _)
      rw [hb] at h hlen
      have h2 : crlf.length = 2 := rfl
      simp only [List.map_cons, List.sum_cons, h2] at hlen
      have htl := trimBoth_length l
      rw [List.headD_cons, HttpDate.ofView] at h
      by_cases h0 : (trimBoth l).head? = some 0
      · rw [if_pos h0] at h
        rw [← h] at hs
        cases hs
      · rw [if_neg h0, if_pos (by omega)] at h
        have he : trimBoth l = d.buf := congrArg HttpDate.buf h
        have hle := congrArg List.length he
        have hls : ls = [] := by
          cases ls with
          | nil => rfl
          | cons m ms =>
            simp only [List.map_cons, List.sum_cons] at hlen
            omega
        have hl : l = d.buf := by
          have := intercalate_slices d.buf
          rwa [hb, hls, List.intercalate_singleton] at this
        exact ⟨by rw [hls, hl], by rw [← hl, he, hl]⟩
  · rintro ⟨hb, ht⟩
    rw [hb, List.headD_cons, ht, HttpDate.ofView, if_neg hd.set, if_pos hfits]

/-- Nothing fails: the head is written and cut off, and the file is read to its end. -/
structure HeadRun.Clean (run : HeadRun) (text : Bytes) : Prop where
  path : run.path ≠ []
  fits : text.length < 2 ^ 31
  create : run.dump.opened = true
  written : (dumpLoop text.length 0 run.dump.writes).map Prod.fst = some true
  ended : (endLoop false run.dump.ends).map Prod.fst = some true
  opened : run.read.opened = true
  memory : run.read.memory = true
  size : run.read.size = text.length
  complete : (readLoop text.length text.length 0 run.read.reads).map Prod.fst = some true

theorem dumpLoop_all (limit done : Nat) (rs : List DumpResult) (k : Nat)
    (h : dumpLoop limit done rs = some (true, k)) : k = done + limit := by
  induction rs generalizing limit done with
  | nil =>
    simp only [dumpLoop] at h
    split at h
    · simp only [Option.some.injEq, Prod.mk.injEq, true_and] at h
      omega
    · cases h
  | cons r rs ih =>
    simp only [dumpLoop] at h
    split at h
    · simp only [Option.some.injEq, Prod.mk.injEq, true_and] at h
      omega
    · cases r with
      | wrote n =>
        simp only at h
        split at h
        · cases h
        · rename_i hn
          simp only [Bool.or_eq_true, decide_eq_true_eq, not_or] at hn
          have := ih _ _ h
          omega
      | again => exact ih _ _ h
      | failed => cases h

theorem endLoop_ok (truncated : Bool) (es : List EndResult) (t : Bool)
    (h : endLoop truncated es = some (true, t)) : t = true := by
  induction es generalizing truncated with
  | nil => cases h
  | cons e es ih =>
    simp only [endLoop] at h
    split at h
    · cases h
    · split at h
      · simp only [Option.some.injEq, Prod.mk.injEq, true_and] at h
        exact h.symm
      · exact ih _ h
      · cases h

/-- The buffer never has more than its capacity or than the file. -/
theorem readLoop_all (capacity avail w : Nat) (rs : List ReadResult) (k : Nat)
    (hc : w ≤ capacity) (ha : w ≤ avail)
    (h : readLoop capacity avail w rs = some (true, k)) : k = capacity ∧ capacity ≤ avail := by
  induction rs generalizing w with
  | nil =>
    simp only [readLoop] at h
    split at h
    · simp only [Option.some.injEq, Prod.mk.injEq, true_and] at h
      omega
    · cases h
  | cons r rs ih =>
    simp only [readLoop] at h
    split at h
    · simp only [Option.some.injEq, Prod.mk.injEq, true_and] at h
      omega
    · cases r with
      | got n => exact ih _ (by omega) (by omega) h
      | interrupted => exact ih w hc ha h
      | failed => cases h

theorem initFromFile_clean (run : HeadRun) (text : Bytes) (h : run.Clean text) :
    initFromFile (some text) run.read = some (some text) := by
  have hfits := h.fits
  have hmod : text.length % 2 ^ 32 = text.length := Nat.mod_eq_of_lt (by omega)
  obtain ⟨⟨ok, w⟩, hl, ho⟩ := Option.map_eq_some_iff.mp h.complete
  cases ho
  have hw := (readLoop_all _ _ _ _ _ (Nat.zero_le _) (Nat.zero_le _) hl).1
  simp only [initFromFile, h.opened, h.memory, h.size, hmod, hl, hw]
  simp

theorem dumpall_clean (run : HeadRun) (text : Bytes) (h : run.Clean text) :
    dumpall text run.file run.dump = some ((text.length : Int), some text) := by
  have hfits := h.fits
  have hlimit : dumpLimit text = text.length := by
    rw [dumpLimit, Nat.mod_eq_of_lt (by omega)]
    omega
  obtain ⟨⟨ok, k⟩, hk, ho⟩ := Option.map_eq_some_iff.mp h.written
  cases ho
  obtain ⟨⟨ok, t⟩, ht, ho⟩ := Option.map_eq_some_iff.mp h.ended
  cases ho
  have hka := dumpLoop_all _ _ _ _ hk
  have hta := endLoop_ok _ _ _ ht
  rw [Nat.zero_add] at hka
  simp only [dumpall, h.create, hlimit, hk, ht, hta, hka, overwritten]
  simp

/-- A head that is stored and read without a fault. -/
theorem storeThenParse_clean (lib : DateLib) (run : HeadRun) (contLen : Int) (d : HttpDate)
    (o : Bytes) (h : run.Clean (formatHead contLen (some d) (some o))) :
    storeThenParse lib run contLen d o =
      some (true, true, parseHeadLines lib {} {} (storedLines contLen d o)) := by
  have hp : run.path.isEmpty = false := by simpa using h.path
  simp only [storeThenParse, storeHeadToStorage, hp, Bool.false_eq_true, if_false,
    dumpall_clean run _ h, Option.map_some, parseHeadFromStorage, initFromFile_clean run _ h,
    parseHead_formatHead]
  simpa using formatHead_ne_nil contLen d o

/-- What is read of a length: -1 stands for an unknown one. -/
def knownLength (contLen : Int) : Int := if 0 ≤ contLen then contLen else -1

/-- The origin adds no length to a head without one, and no date to a head without one. -/
def NotForged (lib : DateLib) (contLen : Int) (d : HttpDate) (o : Bytes) : Prop :=
  (0 ≤ contLen ∨ (forgedLength o).getD (-1) = -1) ∧
    (d.isSet = false → (forgedDate lib o).getD {} = {})

/-- The date can stand in a line. -/
def HttpDate.OneLine (d : HttpDate) : Prop :=
  d.isSet = true → slices crlf 0 d.buf = [d.buf] ∧ trimBoth d.buf = d.buf

theorem knownLength_iff (contLen x : Int) :
    (if 0 ≤ contLen then contLen else x) = knownLength contLen ↔ 0 ≤ contLen ∨ x = -1 := by
  unfold knownLength
  by_cases hc : 0 ≤ contLen
  · simp [hc]
  · simp [hc]

theorem HttpDate.eq_unset (d : HttpDate) (h : d.isSet = false) : d = {} := by
  cases d with
  | mk buf =>
    simp only [HttpDate.isSet, Bool.not_eq_false', List.isEmpty_iff] at h
    rw [h]

theorem read_back_iff (lib : DateLib) (contLen : Int) (d : HttpDate) (o : Bytes)
    (hlen : contLen < 2 ^ 63) (hd : d.WellFormed) :
    ((parseHeadLines lib {} {} (storedLines contLen d o)).contLen = knownLength contLen ∧
      (parseHeadLines lib {} {} (storedLines contLen d o)).lastModified = d) ↔
      d.OneLine ∧ NotForged lib contLen d o := by
  rw [parseHeadLines_eq]
  simp only [if_true]
  rw [firstField_date]
  cases hs : d.isSet with
  | true =>
    rw [if_pos rfl, date_kept_iff lib d hd hs]
    constructor
    · rintro ⟨hl, ho⟩
      rw [firstField_length contLen d o hlen (fun _ => ho.1), knownLength_iff] at hl
      exact ⟨fun _ => ho, hl, fun h => absurd (hs.symm.trans h) (by decide)⟩
    · rintro ⟨ho, hl, -⟩
      rw [firstField_length contLen d o hlen (fun _ => (ho hs).1), knownLength_iff]
      exact ⟨hl, ho hs⟩
  | false =>
    have hu := d.eq_unset hs
    have hone : d.OneLine := fun h => absurd (hs.symm.trans h) (by decide)
    rw [firstField_length contLen d o hlen (fun h => (hone h).1), knownLength_iff]
    simp only [Bool.false_eq_true, if_false]
    constructor
    · rintro ⟨hl, hm⟩
      exact ⟨hone, hl, fun _ => by rw [hm, hu]⟩
    · rintro ⟨-, hl, hm⟩
      exact ⟨hl, by rw [hm hs, hu]⟩

/-- Two heads that differ in their origin only are read back with the stored length and date if
and only if neither origin has a line of its own for what the head does not tell. -/
theorem origin_forges_nothing_iff (lib : DateLib) (run₁ run₂ : HeadRun) (contLen : Int)
    (d : HttpDate) (o₁ o₂ : Bytes) (hlen : contLen < 2 ^ 63) (hd : d.WellFormed)
    (h₁ : run₁.Clean (formatHead contLen (some d) (some o₁)))
    (h₂ : run₂.Clean (formatHead contLen (some d) (some o₂))) :
    (∃ v₁ v₂, storeThenParse lib run₁ contLen d o₁ = some (true, true, v₁) ∧
      storeThenParse lib run₂ contLen d o₂ = some (true, true, v₂) ∧
      v₁.contLen = v₂.contLen ∧ v₁.lastModified = v₂.lastModified ∧
      v₁.contLen = knownLength contLen ∧ v₁.lastModified = d) ↔
      d.OneLine ∧ NotForged lib contLen d o₁ ∧ NotForged lib contLen d o₂ := by
  have hr₁ := read_back_iff lib contLen d o₁ hlen hd
  have hr₂ := read_back_iff lib contLen d o₂ hlen hd
  rw [storeThenParse_clean lib run₁ contLen d o₁ h₁, storeThenParse_clean lib run₂ contLen d o₂ h₂]
  constructor
  · rintro ⟨v₁, v₂, e₁, e₂, hc, hm, hl, hv⟩
    simp only [Option.some.injEq, Prod.mk.injEq, true_and] at e₁ e₂
    rw [e₁] at hr₁
    rw [e₂] at hr₂
    have hn₁ := hr₁.mp ⟨hl, hv⟩
    have hn₂ := hr₂.mp ⟨hc ▸ hl, hm ▸ hv⟩
    exact ⟨hn₁.1, hn₁.2, hn₂.2⟩
  · rintro ⟨ho, hn₁, hn₂⟩
    obtain ⟨hl₁, hm₁⟩ := hr₁.mpr ⟨ho, hn₁⟩
    obtain ⟨hl₂, hm₂⟩ := hr₂.mpr ⟨ho, hn₂⟩
    exact ⟨_, _, rfl, rfl, hl₁.trans hl₂.symm, hm₁.trans hm₂.symm, hl₁, hm₁⟩

/-- A run in which one write and one read do it. -/
def oneShot (text : Bytes) : HeadRun :=
  { path := lit "a.head", dump := { writes := [.wrote text.length], ends := [{}] }
    read := { size := text.length, reads := [.got text.length] } }

theorem oneShot_clean (contLen : Int) (d : HttpDate) (o : Bytes)
    (h : (formatHead contLen (some d) (some o)).length < 2 ^ 31) :
    (oneShot (formatHead contLen (some d) (some o))).Clean (formatHead contLen (some d) (some o)) := by
  have hpos : formatHead contLen (some d) (some o) ≠ [] := formatHead_ne_nil contLen d o
  refine ⟨List.cons_ne_nil _ _, h, rfl, ?_, rfl, rfl, rfl, rfl, ?_⟩
  · simp [oneShot, dumpLoop, hpos]
  · simp [oneShot, readLoop, hpos]

/-- The heads of one file from two mirrors. -/
theorem origin_forges_nothing_mirrors :
    ∃ v₁ v₂, storeThenParse ⟨fun _ => none, id⟩
        (oneShot (formatHead 7 (some ⟨lit "Thu, 01 Jan 1970"⟩) (some (lit "http://a/x")))) 7
        ⟨lit "Thu, 01 Jan 1970"⟩ (lit "http://a/x") = some (true, true, v₁) ∧
      storeThenParse ⟨fun _ => none, id⟩
        (oneShot (formatHead 7 (some ⟨lit "Thu, 01 Jan 1970"⟩) (some (lit "http://b/x")))) 7
        ⟨lit "Thu, 01 Jan 1970"⟩ (lit "http://b/x") = some (true, true, v₂) ∧
      v₁.contLen = v₂.contLen ∧ v₁.lastModified = v₂.lastModified ∧
      v₁.contLen = knownLength 7 ∧ v₁.lastModified = ⟨lit "Thu, 01 Jan 1970"⟩ :=
  (origin_forges_nothing_iff _ _ _ 7 ⟨lit "Thu, 01 Jan 1970"⟩ (lit "http://a/x") (lit "http://b/x")
    (by decide) ⟨by decide, by decide⟩ (oneShot_clean _ _ _ (by decide))
    (oneShot_clean _ _ _ (by decide))).mpr
    ⟨fun _ => by decide, ⟨.inl (by decide), by decide⟩, ⟨.inl (by decide), by decide⟩⟩

/-- An origin with a line end in it tells the length of a head that has none. -/
theorem origin_forges_length :
    ¬ ∀ (lib : DateLib) (run₁ run₂ : HeadRun) (contLen : Int) (d : HttpDate) (o₁ o₂ : Bytes),
      contLen < 2 ^ 63 → d.WellFormed →
      run₁.Clean (formatHead contLen (some d) (some o₁)) →
      run₂.Clean (formatHead contLen (some d) (some o₂)) →
      ∃ v₁ v₂, storeThenParse lib run₁ contLen d o₁ = some (true, true, v₁) ∧
        storeThenParse lib run₂ contLen d o₂ = some (true, true, v₂) ∧
        v₁.contLen = v₂.contLen ∧ v₁.lastModified = v₂.lastModified ∧
        v₁.contLen = knownLength contLen ∧ v₁.lastModified = d := by
  intro h
  have hclean := oneShot_clean (-1) {} (lit "http://h/a\r\nContent-Length: 5") (by decide)
  obtain ⟨v₁, v₂, -, h₂, hc, -, hl, -⟩ := h ⟨fun _ => none, id⟩ _ _ (-1) {} (lit "http://h/a")
    (lit "http://h/a\r\nContent-Length: 5") (by decide) ⟨by decide, by decide⟩
    (oneShot_clean _ _ _ (by decide)) hclean
  have hv : v₂.contLen = 5 := by
    rw [storeThenParse_clean _ _ _ _ _ hclean] at h₂
    simp only [Option.some.injEq, Prod.mk.injEq, true_and] at h₂
    rw [← h₂]
    decide
  rw [hc, hv] at hl
  cases hl

/-- A value without line ends, NULs or blanks around it. -/
structure PlainValue (v : Bytes) : Prop where
  noCR : 13 ∉ v
  noLF : 10 ∉ v
  noNUL : 0 ∉ v
  trimmed : trimBoth v = v

theorem headname_front (p : HeadPos) :
    (mapId2Headname p).head?.any isspace = false ∧ mapId2Headname p ≠ [] ∧ 58 ∉ mapId2Headname p ∧
      trimBack (mapId2Headname p) = mapId2Headname p ∧
      Header.resolvePos (mapId2Headname p) = some p := by
  cases p <;> decide

theorem headLine_front (p : HeadPos) (v : Bytes) : (headLine (p, v)).head?.any isspace = false := by
  obtain ⟨hh, hne, -⟩ := headname_front p
  cases hn : mapId2Headname p with
  | nil => exact absurd hn hne
  | cons c n =>
    rw [hn] at hh
    simpa [headLine, hn] using hh

theorem trimBoth_headLine (p : HeadPos) (v : Bytes) (hne : v ≠ []) (hv : PlainValue v) :
    trimBoth (headLine (p, v)) = headLine (p, v) := by
  have hb : trimBack (headLine (p, v)) = headLine (p, v) :=
    trimBack_append _ v hne (trimBack_of_trimBoth v hv.trimmed)
  rw [trimBoth, hb]
  have hf := headLine_front p v
  cases hl : headLine (p, v) with
  | nil => rfl
  | cons c l =>
    rw [hl] at hf
    exact List.dropWhile_cons_of_neg (by simpa using hf)

open Header in
/-- A stored field is read by the general parser. -/
theorem fieldLine_headLine (st : LineState) (p : HeadPos) (v : Bytes) (hne : v ≠ [])
    (hv : PlainValue v) :
    fieldLine st (headLine (p, v)) =
      .ok { st with hd := st.hd.set p (some v), lastSetId := .pos p } := by
  obtain ⟨-, hn, h58, hb, hr⟩ := headname_front p
  have hl : headLine (p, v) = mapId2Headname p ++ [58] ++ (32 :: v) := by
    simp [headLine, lit]
  have hf : find [58] (headLine (p, v)) = some (mapId2Headname p).length := by
    rw [hl]
    exact find_of_notMem 58 [] _ _ h58
  have ht : (headLine (p, v)).take (mapId2Headname p).length = mapId2Headname p := by
    rw [hl, List.append_assoc, List.take_left]
  have hd : (headLine (p, v)).drop ((mapId2Headname p).length + 1) = 32 :: v := by
    rw [hl, List.drop_left' (by simp)]
  have hs : trimFront (32 :: v) = v := by
    have h32 : isspace 32 = true := rfl
    rw [trimFront, List.dropWhile_cons_of_pos h32]
    exact trimFront_of_trimBoth v hv.trimmed
  simp only [fieldLine, hf, ht, hd, hb, hs, hr]
  simp [hne, hn]

open Header in
theorem loadLines_headLine (st : LineState) (pos : Nat) (p : HeadPos) (v : Bytes)
    (rest : List Bytes) (hne : v ≠ []) (hv : PlainValue v) :
    loadLines st pos (headLine (p, v) :: rest) =
      loadLines { st with hd := st.hd.set p (some v), lastSetId := .pos p }
        (pos + (headLine (p, v)).length + 2) rest := by
  have he : (headLine (p, v)).isEmpty = false := by simpa using headLine_ne_nil (p, v)
  have hf : isFolded (headLine (p, v)) = false := by
    rw [isFolded, headLine_front]
    rfl
  rw [loadLines, he, hf, trimBoth_headLine p v hne hv, fieldLine_headLine st p v hne hv]
  rfl

open Header in
/-- All fields of a stored head are read, up to the empty line. -/
theorem loadLines_headLines (fs : List (HeadPos × Bytes)) (st : LineState) (pos : Nat)
    (h : ∀ f ∈ fs, f.2 ≠ [] ∧ PlainValue f.2) :
    (loadLines st pos (fs.map headLine ++ [[], []])).1 =
        ((pos + (unlines (fs.map headLine)).length + 2 : Nat) : Int) ∧
      (loadLines st pos (fs.map headLine ++ [[], []])).2.hd =
        fs.foldl (fun hd f => hd.set f.1 (some f.2)) st.hd := by
  induction fs generalizing st pos with
  | nil => simp [loadLines]
  | cons f fs ih =>
    obtain ⟨hne, hv⟩ := h f List.mem_cons_self
    have hi := ih { st with hd := st.hd.set f.1 (some f.2), lastSetId := .pos f.1 }
      (pos + (headLine f).length + 2) (fun g hg => h g (List.mem_cons_of_mem f hg))
    rw [List.map_cons, List.cons_append, loadLines_headLine st pos f.1 f.2 _ hne hv]
    refine ⟨hi.1.trans ?_, hi.2⟩
    rw [unlines_cons]
    simp only [List.length_append, crlf, List.length_cons, List.length_nil]
    omega

theorem plainValue_dec (n : Nat) : PlainValue (dec n) := by
  have hg : ∀ c ∈ dec n, isspace c = false ∧ c ≠ 0 ∧ c ≠ 13 ∧ c ≠ 10 := by
    intro c hc
    obtain ⟨h1, -, -, h2⟩ := isdigit_graph c (dec_digits n c hc)
    exact ⟨h1, h2⟩
  refine ⟨fun h => (hg 13 h).2.2.1 rfl, fun h => (hg 10 h).2.2.2 rfl, fun h => (hg 0 h).2.1 rfl, ?_⟩
  have hb : trimBack (dec n) = dec n := by
    rw [trimBack, List.rdropWhile_eq_self_iff]
    intro hl
    rw [(hg _ (List.getLast_mem hl)).1]
    decide
  rw [trimBoth, hb, trimFront]
  cases hd : dec n with
  | nil => rfl
  | cons c ds =>
    refine List.dropWhile_cons_of_neg ?_
    rw [(hg c (by rw [hd]; exact List.mem_cons_self)).1]
    decide

theorem headFields_plain (contLen : Int) (d : HttpDate) (o : Bytes) (hd : PlainValue d.buf)
    (ho : PlainValue o) : ∀ f ∈ headFields contLen d o, f.2 ≠ [] ∧ PlainValue f.2 := by
  intro f hf
  simp only [headFields, List.mem_append] at hf
  rcases hf with (hf | hf) | hf
  · split at hf
    · rename_i hc
      obtain ⟨n, rfl⟩ := Int.eq_ofNat_of_zero_le hc
      rw [List.mem_singleton.mp hf]
      exact ⟨dec_ne n, plainValue_dec n⟩
    · cases hf
  · split at hf
    · rename_i hs
      rw [List.mem_singleton.mp hf]
      exact ⟨by simpa [HttpDate.isSet] using hs, hd⟩
    · cases hf
  · split at hf
    · cases hf
    · rename_i hs
      rw [List.mem_singleton.mp hf]
      exact ⟨by simpa using hs, ho⟩

/-- Plain values have a line each. -/
theorem storedLines_plain (contLen : Int) (d : HttpDate) (o : Bytes) (hd : PlainValue d.buf)
    (ho : PlainValue o) :
    storedLines contLen d o = (headFields contLen d o).map headLine ++ [[], []] := by
  have hp := headFields_plain contLen d o hd ho
  unfold storedLines
  congr 1
  generalize headFields contLen d o = fs at hp ⊢
  induction fs with
  | nil => rfl
  | cons f fs ih =>
    have hs : slices crlf 0 (headLine f) = [headLine f] :=
      slices_headLine f.1 f.2 _ _ (slices_line f.2 (hp f List.mem_cons_self).2.noLF)
    rw [List.map_cons, List.flatMap_cons, hs, ih (fun g hg => hp g (List.mem_cons_of_mem f hg))]
    rfl

/-- The origin that is read from a stored head. -/
theorem firstField_origSrc (contLen : Int) (d : HttpDate) (o : Bytes) (hd : PlainValue d.buf)
    (ho : PlainValue o) :
    ((firstField origSrcPfx (storedLines contLen d o)).map originOf).getD [] = o := by
  have hlen : firstField origSrcPfx (storedLines contLen d o) =
      firstField origSrcPfx (storedLines (-1) d o) := by
    rcases Int.lt_or_le contLen 0 with hc | hc
    · rw [storedLines_unknown _ _ _ hc]
    · obtain ⟨n, rfl⟩ := Int.eq_ofNat_of_zero_le hc
      have hl : contLenPfx.isPrefixOf (headLine (.contentLength, dec n)) = true :=
        isPrefixOf_headLine _ .contentLength _ (by decide)
      rw [storedLines_known, firstField_skip _ _ _ (headLine_ne_nil _) (contLenPfx_disjoint _ hl).2]
  have hdate : firstField origSrcPfx (storedLines (-1) d o) = firstField origSrcPfx (originLines o) := by
    cases hs : d.isSet with
    | false => rw [storedLines_unset d o hs]
    | true =>
      have hm : laMoPfx.isPrefixOf (headLine (.lastModified, d.buf)) = true :=
        isPrefixOf_headLine _ .lastModified _ (by decide)
      rw [storedLines_set d o _ _ hs (slices_line _ hd.noLF),
        firstField_skip _ _ _ (headLine_ne_nil _) (laMoPfx_disjoint _ hm).2]
      rfl
  rw [hlen, hdate]
  cases o with
  | nil => rfl
  | cons c o =>
    have hx : origSrcPfx.isPrefixOf (headLine (.xOrig, c :: o)) = true :=
      isPrefixOf_headLine _ .xOrig _ (by decide)
    have hs := slices_headLine .xOrig _ _ _ (slices_line _ ho.noLF)
    have ha : headLine (.xOrig, c :: o) = origSrcPfx ++ (c :: o) := rfl
    have hl : originLines (c :: o) = headLine (.xOrig, c :: o) :: [[], []] := by
      simp [originLines, hs]
    rw [hl, firstField_hit _ _ _ (headLine_ne_nil _) hx, Option.map_some, Option.getD_some, originOf,
      List.headD_cons, ha, List.drop_left, ho.trimmed]

theorem injected_plain (o : Bytes) (ho : PlainValue o) : injected o = [] := by
  rw [injected, slices_line o ho.noLF]
  rfl

theorem notForged_plain (lib : DateLib) (contLen : Int) (d : HttpDate) (o : Bytes)
    (ho : PlainValue o) :
    NotForged lib contLen d o := by
  refine ⟨.inr ?_, fun _ => ?_⟩
  · rw [forgedLength, injected_plain o ho]
    rfl
  · rw [forgedDate, injected_plain o ho]
    rfl

theorem wellFormed_plain (d : HttpDate) (hl : d.buf.length ≤ 29) (hd : PlainValue d.buf) :
    d.WellFormed := by
  refine ⟨by omega, fun h => hd.noNUL ?_⟩
  exact List.mem_of_mem_head? h

/-- The fields of a header that was filled in the order of a stored head. -/
theorem headFields_set (contLen : Int) (d : HttpDate) (o : Bytes) (hd : PlainValue d.buf)
    (ho : PlainValue o) (hdr : Header) (h : hdr.h = fun _ => none) :
    let hdr' := (headFields contLen d o).foldl (fun hd f => hd.set f.1 (some f.2)) hdr
    hdr'.type = hdr.type ∧ hdr'.status = hdr.status ∧
      hdr'.h .contentLength = (if 0 ≤ contLen then some (dec contLen) else none) ∧
      hdr'.h .lastModified = (if d.isSet then some d.buf else none) ∧
      hdr'.h .xOrig = (if o.isEmpty then none else some o) := by
  have hcstr : ∀ v : Bytes, 0 ∉ v → cstr v = v := by
    intro v hv
    have := cstr_append v [] hv
    rwa [List.append_nil, show cstr [] = [] from rfl, List.append_nil] at this
  have hc : 0 ≤ contLen → cstr (dec contLen) = dec contLen := by
    intro hc
    obtain ⟨n, rfl⟩ := Int.eq_ofNat_of_zero_le hc
    exact hcstr _ (plainValue_dec n).noNUL
  have hd := hcstr _ hd.noNUL
  have ho := hcstr _ ho.noNUL
  unfold headFields
  by_cases h1 : 0 ≤ contLen <;> cases h2 : d.isSet <;> cases h3 : o.isEmpty <;>
    simp [h1, h, hc, hd, ho, Header.set]

open Header in
/-- The general parser reads all of a stored head. -/
theorem load_formatHead (contLen : Int) (d : HttpDate) (o : Bytes) (hd : PlainValue d.buf)
    (ho : PlainValue o) :
    let text := formatHead contLen (some d) (some o)
    (load text).1 = text.length ∧
      (load text).2.hd = (headFields contLen d o).foldl (fun hd f => hd.set f.1 (some f.2))
        { type := .answer, proto := 49, status := { code := 200, msg := lit "OK" } } := by
  intro text
  have hfront : text = lit "HTTP/1.1" ++ (lit " 200 OK" ++ crlf ++
      (unlines ((headFields contLen d o).map headLine) ++ crlf)) := by
    change formatHead contLen (some d) (some o) = _
    rw [formatHead_eq, unlines_cons]
    rfl
  have hlen : ¬ text.length < 9 := by
    rw [hfront]
    simp [lit]
  have htype : frontType text = some (.answer, some 49, 8) := by
    rw [hfront]
    rfl
  have hdrop : text.drop 8 = lit " 200 OK" ++ crlf ++
      (unlines ((headFields contLen d o).map headLine) ++ crlf) := by
    rw [hfront]
    exact List.drop_left' (by decide)
  have hslices : slices crlf 0 (text.drop 8) =
      lit " 200 OK" :: ((headFields contLen d o).map headLine ++ [[], []]) := by
    rw [hdrop, slices_append_crlf, slices_line (lit " 200 OK") (by decide), slices_unlines,
      ← storedLines_plain contLen d o hd ho]
    rfl
  have hline : firstLine { type := .answer, proto := 49 } (lit " 200 OK") =
      some { type := .answer, proto := 49, status := { code := 200, msg := lit "OK" } } := by
    have hs : RemoteStatus.parse (lit " 200 OK") (-1) = { code := 200, msg := lit "OK" } := by decide
    simp [firstLine, hs]
  obtain ⟨h1, h2⟩ := loadLines_headLines (headFields contLen d o)
    { hd := { type := .answer, proto := 49, status := { code := 200, msg := lit "OK" } } } 17
    (headFields_plain contLen d o hd ho)
  have hload : load text = loadLines
      { hd := { type := .answer, proto := 49, status := { code := 200, msg := lit "OK" } } } 17
      ((headFields contLen d o).map headLine ++ [[], []]) := by
    unfold load
    rw [if_neg hlen, htype]
    simp only [hslices, Option.getD_some, hline]
    rfl
  rw [hload]
  refine ⟨h1.trans ?_, h2⟩
  rw [hfront]
  have hl1 : (lit "HTTP/1.1").length = 8 := rfl
  have hl2 : (lit " 200 OK").length = 7 := rfl
  have hl3 : crlf.length = 2 := rfl
  simp only [List.length_append, hl1, hl2, hl3]
  omega

/-- A head with plain values is read back as it was stored, and both readers agree on it. -/
theorem head_round_trip (lib : DateLib) (run : HeadRun) (contLen : Int) (d : HttpDate) (o : Bytes)
    (hlen : contLen < 2 ^ 63) (hdl : d.buf.length ≤ 29) (hd : PlainValue d.buf) (ho : PlainValue o)
    (h : run.Clean (formatHead contLen (some d) (some o))) :
    storeThenParse lib run contLen d o = some (true, true, ⟨knownLength contLen, d, o⟩) ∧
      (Header.load (formatHead contLen (some d) (some o))).1 =
        (formatHead contLen (some d) (some o)).length ∧
      (let hdr := (Header.load (formatHead contLen (some d) (some o))).2.hd
      hdr.type = .answer ∧ hdr.status.code = 200 ∧
        ((hdr.h .contentLength).map strtoll).getD (-1) = knownLength contLen ∧
        HttpDate.ofCStr lib (hdr.h .lastModified) = d ∧
        (hdr.h .xOrig).getD [] = o) := by
  have hone : d.OneLine := fun _ => ⟨slices_line _ hd.noLF, hd.trimmed⟩
  have hwf := wellFormed_plain d hdl hd
  obtain ⟨hl, hm⟩ := (read_back_iff lib contLen d o hlen hwf).mpr ⟨hone, notForged_plain lib contLen d o ho⟩
  have horig : (parseHeadLines lib {} {} (storedLines contLen d o)).origSrc = o := by
    rw [parseHeadLines_eq]
    exact firstField_origSrc contLen d o hd ho
  have hread : parseHeadLines lib {} {} (storedLines contLen d o) = ⟨knownLength contLen, d, o⟩ := by
    cases hv : parseHeadLines lib {} {} (storedLines contLen d o) with
    | mk c m r =>
      rw [hv] at hl hm horig
      rw [← hl, ← hm, ← horig]
  obtain ⟨hload, hhd⟩ := load_formatHead contLen d o hd ho
  obtain ⟨htype, hstatus, hc, hlm, hx⟩ := headFields_set contLen d o hd ho
    { type := .answer, proto := 49, status := { code := 200, msg := lit "OK" } } rfl
  refine ⟨by rw [storeThenParse_clean lib run contLen d o h, hread], hload, ?_⟩
  rw [hhd]
  refine ⟨htype, by rw [hstatus], ?_, ?_, ?_⟩
  · rw [hc, knownLength]
    split
    · rename_i h0
      obtain ⟨n, rfl⟩ := Int.eq_ofNat_of_zero_le h0
      have := strtoll_dec n [] (by omega) rfl
      rw [List.append_nil] at this
      exact this
    · rfl
  · rw [hlm]
    cases hs : d.isSet with
    | false => exact (d.eq_unset hs).symm
    | true => exact if_pos hwf.fits
  · rw [hx]
    cases o with
    | nil => rfl
    | cons c o => rfl

/-- The name of a field in the origin is no field. -/
theorem head_round_trip_named :
    storeThenParse ⟨fun _ => none, id⟩
        (oneShot (formatHead 7 (some ⟨lit "Thu, 01 Jan 1970"⟩) (some (lit "http://h:80/Content-Length: 3")))) 7
        ⟨lit "Thu, 01 Jan 1970"⟩ (lit "http://h:80/Content-Length: 3") =
      some (true, true, ⟨7, ⟨lit "Thu, 01 Jan 1970"⟩, lit "http://h:80/Content-Length: 3"⟩) :=
  (head_round_trip _ _ 7 ⟨lit "Thu, 01 Jan 1970"⟩ (lit "http://h:80/Content-Length: 3") (by decide)
    (by decide) ⟨by decide, by decide, by decide, by decide⟩
    ⟨by decide, by decide, by decide, by decide⟩ (oneShot_clean _ _ _ (by decide))).1

theorem dumpLimit_le (text : Bytes) : text.length ≤ dumpLimit text ↔ text.length < 2 ^ 31 := by
  unfold dumpLimit
  constructor <;> intro h <;> omega

theorem dumpLimit_zero (text : Bytes) : dumpLimit text = 0 ↔ text.length % 2 ^ 32 = 0 := by
  unfold dumpLimit
  constructor <;> intro h <;> omega

theorem overwritten_iff (text old : Bytes) (k : Nat) :
    overwritten text old k false = text ↔ old.drop k = text.drop k := by
  have h : text.take k ++ text.drop k = text := List.take_append_drop k text
  unfold overwritten
  constructor
  · intro he
    exact List.append_cancel_left (he.trans h.symm)
  · intro he
    rw [if_neg (by decide), he, h]

theorem truncated_iff (text old : Bytes) :
    overwritten text old (dumpLimit text) true = text ↔ text.length < 2 ^ 31 := by
  rw [overwritten, if_pos rfl, List.append_nil, ← dumpLimit_le text]
  constructor
  · intro h
    have := congrArg List.length h
    rw [List.length_take] at this
    omega
  · exact List.take_of_length_le

/-- When a head that is said to be stored really is. A step that fails goes unnoticed, so the old
file must have had the rest of the text already. -/
def StoreHonest (path : Bytes) (file : Option Bytes) (io : DumpIo) (text : Bytes) : Prop :=
  path = [] ∨ (io.opened = false ∧ file = some text) ∨ io.opened = true ∧
    match dumpLoop (dumpLimit text) 0 io.writes with
    | none => True
    | some (false, k) => (file.getD []).drop k = text.drop k
    | some (true, k) =>
      match endLoop false io.ends with
      | none => True
      | some (true, _) => text.length < 2 ^ 31 ∨ text.length % 2 ^ 32 = 0
      | some (false, true) => text.length < 2 ^ 31
      | some (false, false) => (file.getD []).drop k = text.drop k

theorem storeHeadToStorage_iff (path : Bytes) (file : Option Bytes) (io : DumpIo) (contLen : Int)
    (d : Option HttpDate) (o : Option Bytes) :
    (∀ res file', storeHeadToStorage path file io contLen d o = some (res, file') → res = true →
      file' = some (formatHead contLen d o)) ↔
      StoreHonest path file io (formatHead contLen d o) := by
  unfold storeHeadToStorage StoreHonest
  generalize formatHead contLen d o = text
  cases path with
  | nil => simp
  | cons c path =>
    simp only [List.isEmpty_cons, Bool.false_eq_true, if_false, reduceCtorEq, false_or]
    cases hopen : io.opened with
    | false => simp [dumpall, hopen]
    | true =>
      simp only [dumpall, hopen, Bool.not_true, Bool.false_eq_true, if_false, true_and]
      cases hw : dumpLoop (dumpLimit text) 0 io.writes with
      | none => simp
      | some r =>
        obtain ⟨ok, k⟩ := r
        cases ok with
        | false => simp [overwritten_iff]
        | true =>
          have hk := dumpLoop_all _ _ _ _ hw
          rw [Nat.zero_add] at hk
          subst hk
          cases he : endLoop false io.ends with
          | none => simp
          | some r =>
            obtain ⟨ok, t⟩ := r
            cases ok with
            | true =>
              obtain rfl := endLoop_ok _ _ _ he
              simp [truncated_iff, dumpLimit_zero, or_iff_not_imp_right]
            | false =>
              cases t with
              | false => simp [overwritten_iff]
              | true => simp [truncated_iff]

theorem parseHead_refused_iff (lib : DateLib) (v : HeadValues) (w : HeadWants) (buf : Bytes) :
    parseHead lib v w buf = (false, v) ↔ (lit "HTTP/1.1 200").isPrefixOf buf = false := by
  unfold parseHead
  cases buf with
  | nil =>
    have hp : (lit "HTTP/1.1 200").isPrefixOf [] = false := rfl
    simp [hp]
  | cons c buf =>
    cases hs : slices crlf 0 (c :: buf) with
    | nil => exact absurd hs (slices_ne_nil _ _ _)
    | cons l ls =>
      have hp : (lit "HTTP/1.1 200").isPrefixOf l = (lit "HTTP/1.1 200").isPrefixOf (c :: buf) := by
        rw [Bool.eq_iff_iff, List.isPrefixOf_iff_prefix, List.isPrefixOf_iff_prefix]
        constructor
        · exact fun h => h.trans (slices_front _ l ls hs)
        · rintro ⟨t, ht⟩
          cases hst : slices crlf 0 t with
          | nil => exact absurd hst (slices_ne_nil _ _ _)
          | cons m ms =>
            have := slices_behind (lit "HTTP/1.1 200") t m ms (by decide) hst
            rw [ht, hs] at this
            simp only [List.cons.injEq] at this
            rw [this.1]
            exact List.prefix_append _ _
      rw [← hp]
      simp only [List.isEmpty_cons, Bool.false_eq_true, if_false]
      cases (lit "HTTP/1.1 200").isPrefixOf l with
      | false => exact ⟨fun _ => rfl, fun _ => rfl⟩
      | true =>
        refine ⟨fun h => ?_, fun h => absurd h (by decide)⟩
        have := congrArg Prod.fst h
        cases this

/-- All of a file that is there has come into the buffer. -/
def ReadCompletely (file : Option Bytes) (io : ReadIo) : Prop :=
  ∃ text, file = some text ∧ initFromFile file io = some (some text)

/-- When a head file that was not read to its end is reported: the reading did not fail, and what
it took for the whole file does not look like a head. -/
def ParseHonest (file : Option Bytes) (io : ReadIo) : Prop :=
  ∃ text, file = some text ∧ io.opened = true ∧ io.memory = true ∧
    readLoop (io.size % 2 ^ 32) text.length 0 io.reads = some (true, io.size) ∧
    (io.size = text.length ∨ (lit "HTTP/1.1 200").isPrefixOf (text.take io.size) = false)

theorem initFromFile_iff (file : Option Bytes) (io : ReadIo) (buf : Bytes) :
    initFromFile file io = some (some buf) ↔
      ∃ text, file = some text ∧ io.opened = true ∧ io.memory = true ∧
        readLoop (io.size % 2 ^ 32) text.length 0 io.reads = some (true, io.size) ∧
        buf = text.take io.size := by
  cases file with
  | none => simp [initFromFile]
  | some text =>
    cases ho : io.opened with
    | false => simp [initFromFile, ho]
    | true =>
      cases hm : io.memory with
      | false => simp [initFromFile, ho, hm]
      | true =>
        simp only [initFromFile, ho, hm, Bool.not_true, Bool.or_self, Bool.false_eq_true, if_false,
          Option.some.injEq, exists_eq_left', true_and]
        generalize readLoop (io.size % 2 ^ 32) text.length 0 io.reads = r
        cases r with
        | none => simp
        | some r =>
          obtain ⟨ok, k⟩ := r
          cases ok with
          | false => simp
          | true =>
            simp only [Option.some.injEq, Prod.mk.injEq, true_and]
            split
            · rename_i hk
              rw [hk]
              simp [eq_comm]
            · rename_i hk
              simp [hk]

/-- A reading that fails is taken for a head without values. -/
theorem parseHeadFromStorage_failed (lib : DateLib) (v : HeadValues) (w : HeadWants)
    (file : Option Bytes) (io : ReadIo) (h : ∀ buf, initFromFile file io ≠ some (some buf)) :
    parseHeadFromStorage lib v w file io ≠ some (false, v) := by
  intro hp
  unfold parseHeadFromStorage at hp
  generalize initFromFile file io = x at h hp
  cases x with
  | none => cases hp
  | some y =>
    cases y with
    | none => simp at hp
    | some buf => exact h buf rfl

theorem parseHeadFromStorage_iff (lib : DateLib) (v : HeadValues) (w : HeadWants)
    (file : Option Bytes) (io : ReadIo) :
    (¬ ReadCompletely file io → parseHeadFromStorage lib v w file io = some (false, v)) ↔
      ParseHonest file io := by
  by_cases hb : ∃ buf, initFromFile file io = some (some buf)
  · obtain ⟨buf, hi⟩ := hb
    obtain ⟨text, rfl, ho, hm, hr, rfl⟩ := (initFromFile_iff file io buf).mp hi
    have hle := readLoop_all _ _ _ _ _ (Nat.zero_le _) (Nat.zero_le _) hr
    have hc : ReadCompletely (some text) io ↔ io.size = text.length := by
      constructor
      · rintro ⟨t, ht, h⟩
        cases ht
        rw [hi] at h
        have := congrArg List.length (Option.some.inj (Option.some.inj h))
        rw [List.length_take] at this
        omega
      · intro h
        refine ⟨text, rfl, ?_⟩
        rw [hi, h, List.take_length]
    have hp : ParseHonest (some text) io ↔ (io.size = text.length ∨
        (lit "HTTP/1.1 200").isPrefixOf (text.take io.size) = false) := by
      constructor
      · rintro ⟨t, ht, -, -, -, h⟩
        cases ht
        exact h
      · exact fun h => ⟨text, rfl, ho, hm, hr, h⟩
    rw [hc, hp, parseHeadFromStorage, hi, Option.map_some, Option.some.injEq,
      parseHead_refused_iff, or_iff_not_imp_left]
  · have hi : ∀ buf, initFromFile file io ≠ some (some buf) := fun buf h => hb ⟨buf, h⟩
    refine ⟨fun h => absurd (h ?_) (parseHeadFromStorage_failed lib v w file io hi), ?_⟩
    · rintro ⟨text, -, ht⟩
      exact hi text ht
    · rintro ⟨text, hf, ho, hm, hr, -⟩
      exact absurd ⟨text, hf, ho, hm, hr, rfl⟩ (mt (initFromFile_iff file io _).mpr (hi _))

/-- A failure to store a head is hidden unless the file has the text all the same. A head file
that is missing or cannot be read is hidden, and one that was only read in part is refused only if
the part is no head. -/
theorem head_faults_reported_iff (lib : DateLib) (path : Bytes) (file : Option Bytes)
    (dump : DumpIo) (contLen : Int) (d : Option HttpDate) (o : Option Bytes) (v : HeadValues)
    (w : HeadWants) (stored : Option Bytes) (read : ReadIo) :
    ((∀ res file', storeHeadToStorage path file dump contLen d o = some (res, file') → res = true →
        file' = some (formatHead contLen d o)) ↔
      StoreHonest path file dump (formatHead contLen d o)) ∧
    ((¬ ReadCompletely stored read → parseHeadFromStorage lib v w stored read = some (false, v)) ↔
      ParseHonest stored read) :=
  ⟨storeHeadToStorage_iff path file dump contLen d o, parseHeadFromStorage_iff lib v w stored read⟩

/-- The directory is not writable, and later the file is not there. -/
theorem head_faults_hidden :
    ¬ (∀ res file', storeHeadToStorage (lit "a.head") none { opened := false, writes := [], ends := [] }
        7 none none = some (res, file') → res = true → file' = some (formatHead 7 none none)) ∧
      ¬ (¬ ReadCompletely none { opened := false, size := 0, reads := [] } →
        parseHeadFromStorage ⟨fun _ => none, id⟩ {} {} none { opened := false, size := 0, reads := [] } =
          some (false, {})) := by
  constructor
  · intro h
    cases h true none (by decide) rfl
  · intro h
    refine absurd (h ?_) (by decide)
    rintro ⟨text, ht, -⟩
    cases ht

end Acng
