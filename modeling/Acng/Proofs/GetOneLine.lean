import Acng.Proofs.CutLines

namespace Acng
open Lib

theorem marked_cons (c : UInt8) (t : Bytes) : marked (c :: t) = (c, t.isEmpty) :: marked t := by
  cases t <;> rfl

theorem length_marked (s : Bytes) : (marked s).length = s.length := by
  induction s with
  | nil => rfl
  | cons c t ih => rw [marked_cons, List.length_cons, List.length_cons, ih]

theorem marked_fst (s : Bytes) : (marked s).map Prod.fst = s := by
  induction s with
  | nil => rfl
  | cons c t ih => rw [marked_cons, List.map_cons, ih]

/-- A text in front without a line end, whose mark makes no difference. -/
theorem cutLines_text (s piece : Bytes) (hs : ∀ c ∈ s, lineEnd c = false) (x : List (UInt8 × Bool)) :
    cutLines (marked (s ++ piece) ++ x) = s.foldr consHead (cutLines (marked piece ++ x)) := by
  induction s with
  | nil => rfl
  | cons c t ih =>
    obtain ⟨hc, ht⟩ := List.forall_mem_cons.mp hs
    rw [List.cons_append, marked_cons, List.cons_append, consHead_cutLines c _ hc, ih ht, List.foldr_cons]

/-- The unended line at the end of a text. -/
def openLine (s : Bytes) : Bytes := s.foldl (fun line c => if lineEnd c then [] else line ++ [c]) []

theorem openLine_text {s : Bytes} (hs : ∀ c ∈ s, lineEnd c = false) : openLine s = s := by
  have h : ∀ line, s.foldl (fun line c => if lineEnd c then [] else line ++ [c]) line = line ++ s := by
    induction s with
    | nil => simp
    | cons c t ih =>
      obtain ⟨hc, ht⟩ := List.forall_mem_cons.mp hs
      intro line
      rw [List.foldl_cons, hc, if_neg (by simp), ih ht, List.append_assoc, List.singleton_append]
  exact h []

theorem findNewline_text {c : UInt8} (hc : lineEnd c = false) (t : Bytes) :
    findNewline (c :: t) = (findNewline t).map (fun x => (x.1 + 1, x.2 + 1)) := by
  rw [findNewline, findNewline, List.findIdx?_cons, hc, if_neg (by simp), Option.map_map, Option.map_map]
  congr 1
  funext nLineLen
  simp only [Function.comp_apply, List.drop_succ_cons, Prod.mk.injEq, true_and]
  split <;> rename_i hdrop
  · split <;> rfl
  · rfl

/-- Two line ends whose sum is right are from different kinds. -/
theorem sum_eq_iff {c d : UInt8} (hc : lineEnd c = true) :
    c + d = 13 + 10 ↔ (lineEnd d && c != d) = true := by
  have hc : c = 13 ∨ c = 10 := by simpa [lineEnd] using hc
  obtain rfl | rfl := hc
  · rw [UInt8.add_right_inj]
    exact ⟨fun h => h ▸ rfl, fun h => by simp [lineEnd] at h; exact h.1.resolve_left (Ne.symm h.2)⟩
  · rw [UInt8.add_comm 13 10, UInt8.add_right_inj]
    exact ⟨fun h => h ▸ rfl, fun h => by simp [lineEnd] at h; exact h.1.resolve_right (Ne.symm h.2)⟩

theorem findNewline_end {c : UInt8} (hc : lineEnd c = true) (t : Bytes) :
    findNewline (c :: t) =
      some (0, if t.head?.any (fun d => lineEnd d && c != d) then 2 else 1) := by
  rw [findNewline, List.findIdx?_cons, hc, if_pos rfl, Option.map_some]
  cases t with
  | nil => rfl
  | cons d t =>
    simp only [List.drop_zero, List.head?_cons, Option.any_some]
    exact congrArg (fun n => some (0, n)) (if_congr (sum_eq_iff hc) rfl rfl)

theorem findNewline_none {s : Bytes} : findNewline s = none ↔ ∀ c ∈ s, lineEnd c = false := by
  simp [findNewline]

/-- A line in the window is the first one of all that is to come. -/
theorem cutLines_findNewline {s : Bytes} {nLineLen nDropLen : Nat}
    (h : findNewline s = some (nLineLen, nDropLen)) (x : List (UInt8 × Bool)) :
    cutLines (marked s ++ x) = s.take nLineLen :: cutLines (marked (s.drop nDropLen) ++ x) := by
  induction s generalizing nLineLen nDropLen with
  | nil => simp [findNewline] at h
  | cons c t ih =>
    rw [marked_cons, List.cons_append]
    cases hc : lineEnd c with
    | false =>
      rw [findNewline_text hc, Option.map_eq_some_iff] at h
      obtain ⟨⟨len, drop⟩, hfind, hlen⟩ := h
      obtain ⟨rfl, rfl⟩ := Prod.mk.inj hlen
      rw [consHead_cutLines c _ hc, ih hfind]
      rfl
    | true =>
      rw [findNewline_end hc, Option.some_inj, Prod.mk.injEq] at h
      obtain ⟨rfl, rfl⟩ := h
      cases t with
      | nil => exact cutLines_single c true hc x (.inl rfl)
      | cons d t =>
        rw [marked_cons, List.cons_append]
        cases hpair : lineEnd d && c != d with
        | true =>
          have halt : alternates (c, false) (d, t.isEmpty) = true := by
            rw [alternates, hc, Bool.true_and]
            exact hpair
          simp only [List.head?_cons, Option.any_some, hpair, if_true]
          exact cutLines_pair c d _ halt _
        | false =>
          simp only [List.head?_cons, Option.any_some, hpair, Bool.false_eq_true, if_false]
          rw [List.drop_succ_cons, List.drop_zero, marked_cons]
          refine cutLines_single c _ hc _ (.inr (fun b hb => ?_))
          obtain rfl : (d, t.isEmpty) = b := by simpa using hb
          rw [alternates, hc, Bool.true_and]
          exact hpair

theorem fileLines_findNewline {s : Bytes} {nLineLen nDropLen : Nat}
    (h : findNewline s = some (nLineLen, nDropLen)) :
    fileLines s = s.take nLineLen :: fileLines (s.drop nDropLen) := by
  induction s generalizing nLineLen nDropLen with
  | nil => simp [findNewline] at h
  | cons c t ih =>
    cases hc : lineEnd c with
    | false =>
      rw [findNewline_text hc, Option.map_eq_some_iff] at h
      obtain ⟨⟨len, drop⟩, hfind, hlen⟩ := h
      obtain ⟨rfl, rfl⟩ := Prod.mk.inj hlen
      cases t with
      | nil => simp [findNewline] at hfind
      | cons d t =>
        rw [fileLines, hc, ih hfind]
        rfl
    | true =>
      rw [findNewline_end hc, Option.some_inj, Prod.mk.injEq] at h
      obtain ⟨rfl, rfl⟩ := h
      cases t with
      | nil => simp [fileLines, hc]
      | cons d t =>
        rw [fileLines, hc]
        cases hpair : lineEnd d && c != d <;> simp [hpair]

/-- The last line of a plain file. -/
theorem fileLines_text {s : Bytes} (hne : s ≠ []) (hs : ∀ c ∈ s, lineEnd c = false) :
    fileLines s = [s, []] := by
  induction s with
  | nil => exact absurd rfl hne
  | cons c t ih =>
    obtain ⟨hc, ht⟩ := List.forall_mem_cons.mp hs
    cases t with
    | nil => simp [fileLines, hc]
    | cons d t =>
      rw [fileLines, hc, ih (by simp) ht]
      rfl

/-- A line in the window makes it smaller. -/
theorem findNewline_drop {s : Bytes} {nLineLen nDropLen : Nat}
    (h : findNewline s = some (nLineLen, nDropLen)) : 0 < nDropLen ∧ nDropLen ≤ s.length := by
  rw [findNewline, Option.map_eq_some_iff] at h
  obtain ⟨i, hi, h⟩ := h
  obtain ⟨hlt, -⟩ := List.findIdx?_eq_some_iff_getElem.mp hi
  obtain ⟨rfl, hdrop⟩ := Prod.mk.inj h
  have hlen : (s.drop i).length = s.length - i := List.length_drop
  split at hdrop
  · rename_i heq
    rw [heq, List.length_cons, List.length_cons] at hlen
    split at hdrop <;> omega
  · omega

/-- What is behind the first line has the same line at its end. -/
theorem openLine_findNewline {s : Bytes} {nLineLen nDropLen : Nat}
    (h : findNewline s = some (nLineLen, nDropLen)) : openLine (s.drop nDropLen) = openLine s := by
  have hline : ∀ line, s.foldl (fun line c => if lineEnd c then [] else line ++ [c]) line =
      openLine (s.drop nDropLen) := by
    induction s generalizing nLineLen nDropLen with
    | nil => simp [findNewline] at h
    | cons c t ih =>
      intro line
      cases hc : lineEnd c with
      | false =>
        rw [findNewline_text hc, Option.map_eq_some_iff] at h
        obtain ⟨⟨len, drop⟩, hfind, hlen⟩ := h
        obtain ⟨rfl, rfl⟩ := Prod.mk.inj hlen
        rw [List.foldl_cons, ih hfind]
        rfl
      | true =>
        rw [findNewline_end hc, Option.some_inj, Prod.mk.injEq] at h
        obtain ⟨rfl, rfl⟩ := h
        rw [List.foldl_cons, hc, if_pos rfl]
        cases t with
        | nil => rfl
        | cons d t =>
          cases hpair : lineEnd d && c != d with
          | true =>
            have hd : lineEnd d = true := (Bool.and_eq_true _ _ ▸ hpair).1
            simp only [List.head?_cons, Option.any_some, hpair, if_true, List.foldl_cons]
            rw [hd]
            rfl
          | false =>
            simp only [List.head?_cons, Option.any_some, hpair, Bool.false_eq_true, if_false]
            rfl
  exact (hline []).symm

/-- The pieces of a stream. -/
def Strm.pieces (strm : Strm) : List Bytes := strm.deliveries.map Delivery.piece

/-- Each piece fits into the window, where it is put behind the line that is unended. The window is doubled if it
is full. -/
def Fits : Nat → Bytes → List Bytes → Prop
  | _, _, [] => True
  | totalcapa, line, piece :: pieces =>
    let totalcapa := if line.length = totalcapa then totalcapa * 2 else totalcapa
    line.length + piece.length ≤ totalcapa ∧ Fits totalcapa (openLine (line ++ piece)) pieces

/-- No line is so long that the window cannot hold it. -/
def ShortLines (content : Bytes) : Prop :=
  ∀ s, s <:+: content → (∀ c ∈ s, lineEnd c = false) → s.length < 256 * 1024

namespace FileReader

/-- More calls change nothing. -/
theorem getOneLine_succ {fuel : Nat} {rd : FileReader} {bForceUncompress : Bool}
    {r : Bool × Bytes × FileReader} (h : rd.getOneLine fuel bForceUncompress = some r) :
    rd.getOneLine (fuel + 1) bForceUncompress = some r := by
  induction fuel generalizing rd bForceUncompress with
  | zero => simp [getOneLine] at h
  | succ fuel ih =>
    rw [getOneLine] at h ⊢
    by_cases hlines : (rd.bEof && 0 < rd.nEofLines) = true
    · rwa [if_pos hlines] at h ⊢
    · rw [if_neg hlines] at h ⊢
      by_cases heof : rd.bEof = true
      · rwa [if_pos heof] at h ⊢
      · rw [if_neg heof] at h ⊢
        by_cases herror : rd.bError = true
        · rwa [if_pos herror] at h ⊢
        · rw [if_neg herror] at h ⊢
          cases hdec : rd.dec with
          | none => rwa [hdec] at h
          | some dec =>
            rw [hdec] at h
            dsimp only at h ⊢
            cases hrefill : rd.refill dec bForceUncompress with
            | none => rwa [hrefill] at h
            | some x =>
              rw [hrefill] at h
              dsimp only at h ⊢
              cases hline : x.1.windowLine x.2 with
              | none =>
                rw [hline, Option.none_or] at h
                rw [Option.none_or, ih h]
              | some line =>
                rw [hline, Option.some_or] at h
                rw [Option.some_or, h]

theorem getOneLine_mono {fuel more : Nat} (hle : fuel ≤ more) {rd : FileReader} {bForceUncompress : Bool}
    {r : Bool × Bytes × FileReader} (h : rd.getOneLine fuel bForceUncompress = some r) :
    rd.getOneLine more bForceUncompress = some r := by
  induction hle with
  | refl => exact h
  | step _ ih => exact getOneLine_succ ih

theorem readLines_mono {fuel more calls moreCalls : Nat} (hfuel : fuel ≤ more) (hcalls : calls ≤ moreCalls)
    {rd : FileReader} {r : List Bytes × FileReader} (h : rd.readLines fuel calls = some r) :
    rd.readLines more moreCalls = some r := by
  induction calls generalizing rd moreCalls r with
  | zero => simp [readLines] at h
  | succ calls ih =>
    obtain ⟨moreCalls, rfl⟩ : ∃ n, moreCalls = n + 1 := ⟨moreCalls - 1, by omega⟩
    rw [readLines] at h ⊢
    cases hline : rd.getOneLine fuel false with
    | none => simp [hline] at h
    | some x =>
      obtain ⟨ok, line, rd'⟩ := x
      rw [hline] at h
      rw [getOneLine_mono hfuel hline]
      cases ok with
      | false => exact h
      | true =>
        dsimp only at h ⊢
        rw [Option.map_eq_some_iff] at h
        obtain ⟨rest, hrest, rfl⟩ := h
        rw [ih (by omega) hrest, Option.map_some]

/-- The lines that are read up to the call that fails, and the reader behind it. -/
def ReadsTo (rd : FileReader) (lines : List Bytes) (rd' : FileReader) : Prop :=
  ∃ fuel calls, rd.readLines fuel calls = some (lines, rd')

theorem ReadsTo.stop {rd rd' : FileReader} {fuel : Nat} {line : Bytes}
    (h : rd.getOneLine fuel false = some (false, line, rd')) : rd.ReadsTo [] rd' :=
  ⟨fuel, 1, by simp [readLines, h]⟩

theorem ReadsTo.line {rd rd' rd'' : FileReader} {fuel : Nat} {line : Bytes} {lines : List Bytes}
    (h : rd.getOneLine fuel false = some (true, line, rd')) (h' : rd'.ReadsTo lines rd'') :
    rd.ReadsTo (line :: lines) rd'' := by
  obtain ⟨fuel', calls, hlines⟩ := h'
  refine ⟨max fuel fuel', calls + 1, ?_⟩
  rw [readLines, getOneLine_mono (Nat.le_max_left fuel fuel') h]
  dsimp only
  rw [readLines_mono (Nat.le_max_right fuel fuel') (Nat.le_refl _) hlines, Option.map_some]

theorem ReadsTo.unique {rd rd' rd'' : FileReader} {lines lines' : List Bytes} (h : rd.ReadsTo lines rd')
    (h' : rd.ReadsTo lines' rd'') : lines = lines' ∧ rd' = rd'' := by
  obtain ⟨fuel, calls, h⟩ := h
  obtain ⟨fuel', calls', h'⟩ := h'
  have h := readLines_mono (Nat.le_max_left fuel fuel') (Nat.le_max_left calls calls') h
  rw [readLines_mono (Nat.le_max_right fuel fuel') (Nat.le_max_right calls calls') h', Option.some_inj,
    Prod.mk.injEq] at h
  exact ⟨h.1.symm, h.2.symm⟩

/-- At the end come the empty lines that were asked for. -/
theorem readsTo_eof {rd : FileReader} (heof : rd.bEof = true) :
    ∃ rd', rd.ReadsTo (List.replicate rd.nEofLines.toNat []) rd' ∧ rd'.bError = rd.bError := by
  induction hn : rd.nEofLines.toNat generalizing rd with
  | zero =>
    have hno : ¬ (rd.bEof && 0 < rd.nEofLines) = true := by simp [heof]; omega
    have hline : rd.getOneLine 1 false = some (false, [], { rd with nEofLines := rd.nEofLines - 1 }) := by
      rw [getOneLine, if_neg hno, if_pos heof]
    exact ⟨_, .stop hline, rfl⟩
  | succ n ih =>
    have hyes : (rd.bEof && 0 < rd.nEofLines) = true := by simp [heof]; omega
    have hline : rd.getOneLine 1 false = some (true, [], { rd with nEofLines := rd.nEofLines - 1 }) := by
      rw [getOneLine, if_pos hyes]
    obtain ⟨rd', hlines, herror⟩ := @ih { rd with nEofLines := rd.nEofLines - 1 } heof (by simp only; omega)
    exact ⟨rd', .line hline hlines, herror⟩

/-- `OpenFile` for a file as it is. -/
def openPlain (content : Bytes) (nFakeTrailingNewlines : Nat) : FileReader :=
  { szFileBuf := content, nEofLines := nFakeTrailingNewlines }

/-- `OpenFile` for a compressed file. -/
def openCompressed (type : DecompressorType) (strm : Strm) (nFakeTrailingNewlines : Nat) : FileReader :=
  { nEofLines := nFakeTrailingNewlines, dec := some { type, strm } }

theorem getOneLine_plain {rd : FileReader} (heof : rd.bEof = false) (herror : rd.bError = false)
    (hdec : rd.dec = none) : rd.getOneLine 1 false = some rd.plainLine := by
  simp [getOneLine, heof, herror, hdec]

theorem readsTo_plain {rd : FileReader} (heof : rd.bEof = false) (herror : rd.bError = false)
    (hdec : rd.dec = none) :
    ∃ rd', rd.ReadsTo (fileLines (rd.szFileBuf.drop rd.nBufPos) ++
      List.replicate rd.nEofLines.toNat []) rd' := by
  induction hlen : rd.szFileBuf.length - rd.nBufPos using Nat.strongRecOn generalizing rd with
  | ind n ih =>
    have hline := getOneLine_plain heof herror hdec
    by_cases hend : rd.szFileBuf.length ≤ rd.nBufPos
    · obtain ⟨rd', hlines, -⟩ := @readsTo_eof { rd with bEof := true } rfl
      rw [List.drop_eq_nil_of_le hend]
      have hplain : rd.plainLine = (true, [], { rd with bEof := true }) := by
        simp [plainLine, hend, findNewline]
      rw [hplain] at hline
      exact ⟨rd', .line hline hlines⟩
    · cases hfind : findNewline (rd.szFileBuf.drop rd.nBufPos) with
      | some x =>
        obtain ⟨nLineLen, nDropLen⟩ := x
        obtain ⟨hpos, -⟩ := findNewline_drop hfind
        have hplain : rd.plainLine = (true, (rd.szFileBuf.drop rd.nBufPos).take nLineLen,
            { rd with nBufPos := rd.nBufPos + nDropLen }) := by
          simp [plainLine, hend, heof, hfind]
        rw [hplain] at hline
        obtain ⟨rd', hlines⟩ := @ih _ (by simp only; omega) { rd with nBufPos := rd.nBufPos + nDropLen }
          heof herror hdec rfl
        rw [fileLines_findNewline hfind, List.drop_drop]
        exact ⟨rd', .line hline hlines⟩
      | none =>
        have hne : rd.szFileBuf.drop rd.nBufPos ≠ [] := by simpa using Nat.lt_of_not_le hend
        have hplain : rd.plainLine = (true, rd.szFileBuf.drop rd.nBufPos,
            { rd with nBufPos := rd.nBufPos + (rd.szFileBuf.drop rd.nBufPos).length }) := by
          simp [plainLine, hend, heof, hfind]
        rw [hplain] at hline
        obtain ⟨rd', hlines⟩ := @ih _ (by simp only [List.length_drop]; omega)
          { rd with nBufPos := rd.nBufPos + (rd.szFileBuf.drop rd.nBufPos).length } heof herror hdec rfl
        have hnil : rd.szFileBuf.drop (rd.nBufPos + (rd.szFileBuf.drop rd.nBufPos).length) = [] :=
          List.drop_eq_nil_of_le (by rw [List.length_drop]; omega)
        dsimp only at hlines
        rw [hnil] at hlines
        rw [fileLines_text hne (findNewline_none.mp hfind)]
        exact ⟨rd', .line hline hlines⟩

/-- A reader that goes on: something was used from its file, or there is nothing more to unpack. -/
structure Ready (rd : FileReader) (dec : Decompressor) : Prop where
  dec_eq : rd.dec = some dec
  noEof : rd.bEof = false
  noError : rd.bError = false
  started : rd.nBufPos = 0 → dec.eof = true
  complete : dec.strm.ending = .complete
  eof_iff : dec.eof = dec.strm.deliveries.isEmpty
  room : rd.uncompBuf.data.length ≤ rd.uncompBuf.totalcapa
  fits : Fits rd.uncompBuf.totalcapa (openLine rd.uncompBuf.data) dec.strm.pieces
  short : ShortLines (rd.uncompBuf.data ++ dec.strm.pieces.flatten)

/-- What the window has and what is not unpacked yet. -/
def toCome (rd : FileReader) (dec : Decompressor) : List (UInt8 × Bool) :=
  marked rd.uncompBuf.data ++ dec.strm.pieces.flatMap marked

theorem Ready.data_short {rd : FileReader} {dec : Decompressor} (h : rd.Ready dec)
    (hopen : ∀ c ∈ rd.uncompBuf.data, lineEnd c = false) : rd.uncompBuf.data.length < 256 * 1024 :=
  h.short _ (List.prefix_append _ _).isInfix hopen

theorem length_toCome (rd : FileReader) (dec : Decompressor) :
    (toCome rd dec).length = rd.uncompBuf.data.length + (dec.strm.pieces.flatMap marked).length := by
  rw [toCome, List.length_append, length_marked]

/-- A delivery that fits comes as a whole. -/
theorem uncompMore_fits {dec : Decompressor} {delivery : Delivery} {deliveries : List Delivery}
    (hcomplete : dec.strm.ending = .complete) (hstrm : dec.strm.deliveries = delivery :: deliveries)
    (nBufPos : Nat) (buf : UncompBuf) (hfits : buf.data.length + delivery.piece.length ≤ buf.totalcapa) :
    dec.uncompMore nBufPos buf =
      (true, { dec with strm := { dec.strm with deliveries }, eof := deliveries.isEmpty },
        nBufPos + delivery.used, { buf with data := buf.data ++ delivery.piece }) := by
  have hspace : ¬ buf.freecapa < delivery.piece.length := by
    rw [UncompBuf.freecapa]
    omega
  have hcall : ∀ noInput, Strm.call noInput dec.strm buf.freecapa =
      ⟨if deliveries.isEmpty then .streamEnd else .ok, delivery.used, delivery.piece,
        { dec.strm with deliveries }⟩ := by
    intro noInput
    simp only [Strm.call, hstrm, if_neg hspace, hcomplete, BEq.rfl, Bool.and_true]
  have hlib : dec.type.library dec.strm buf.freecapa =
      ⟨if deliveries.isEmpty then .streamEnd else .ok, delivery.used, delivery.piece,
        { dec.strm with deliveries }⟩ := by
    cases dec.type <;> exact hcall _
  rw [Decompressor.uncompMore, hlib]
  cases deliveries <;> rfl

/-- A forced refill puts the next piece behind the unended line. -/
theorem Ready.refill {rd : FileReader} {dec : Decompressor} (h : rd.Ready dec)
    (hopen : ∀ c ∈ rd.uncompBuf.data, lineEnd c = false) (heof : dec.eof = false) :
    ∃ rd' dec', rd.refill dec true = some (rd', dec') ∧ Ready rd' dec' ∧
      rd'.nEofLines = rd.nEofLines ∧ dec'.strm.deliveries.length < dec.strm.deliveries.length ∧
      (toCome rd' dec').length = (toCome rd dec).length ∧
      cutLines (toCome rd' dec') = cutLines (toCome rd dec) := by
  have hdata := h.data_short hopen
  have hroom := h.room
  have hfits := h.fits
  rw [openLine_text hopen] at hfits
  cases hstrm : dec.strm.deliveries with
  | nil =>
    rw [h.eof_iff, hstrm] at heof
    exact absurd heof (by simp)
  | cons delivery deliveries =>
    rw [Strm.pieces, hstrm, List.map_cons, Fits] at hfits
    let totalcapa := if rd.uncompBuf.data.length = rd.uncompBuf.totalcapa then rd.uncompBuf.totalcapa * 2
      else rd.uncompBuf.totalcapa
    let dec' : Decompressor :=
      { dec with strm := { dec.strm with deliveries }, eof := deliveries.isEmpty }
    let rd' : FileReader :=
      { rd with
        nBufPos := rd.nBufPos + delivery.used
        uncompBuf := { data := rd.uncompBuf.data ++ delivery.piece, totalcapa }
        dec := some dec' }
    have hpieces : dec.strm.pieces = delivery.piece :: dec'.strm.pieces := by
      rw [Strm.pieces, hstrm, List.map_cons]
      rfl
    have hmore : dec.uncompMore rd.nBufPos { data := rd.uncompBuf.data, totalcapa } =
        (true, dec', rd'.nBufPos, rd'.uncompBuf) :=
      uncompMore_fits h.complete hstrm rd.nBufPos _ hfits.1
    have hrefill : rd.refill dec true = some (rd', dec') := by
      by_cases hfull : rd.uncompBuf.data.length = rd.uncompBuf.totalcapa
      · have hcapa : rd.uncompBuf.freecapa = 0 := by
          rw [UncompBuf.freecapa]
          omega
        have hsmall : ¬ 256 * 1024 ≤ rd.uncompBuf.totalcapa := by omega
        simp only [totalcapa, if_pos hfull] at hmore
        simp [FileReader.refill, heof, hcapa, hsmall, hmore, rd', h.noError]
      · have hcapa : rd.uncompBuf.freecapa ≠ 0 := by
          rw [UncompBuf.freecapa]
          omega
        simp only [totalcapa, if_neg hfull] at hmore
        simp [FileReader.refill, heof, hcapa, hmore, rd', h.noError]
    refine ⟨rd', dec', hrefill, ?_, rfl, Nat.lt_succ_self _, ?_, ?_⟩
    · refine ⟨rfl, h.noEof, h.noError, fun hnot => ?_, h.complete, rfl, ?_, hfits.2, ?_⟩
      · have hused : rd.nBufPos = 0 := Nat.eq_zero_of_add_eq_zero_right hnot
        rw [h.started hused] at heof
        exact absurd heof (by simp)
      · have := hfits.1
        dsimp only [rd']
        rwa [List.length_append]
      · have hshort := h.short
        rw [hpieces, List.flatten_cons, ← List.append_assoc] at hshort
        exact hshort
    · rw [length_toCome, length_toCome, hpieces, List.flatMap_cons]
      dsimp only [rd']
      rw [List.length_append, List.length_append, length_marked]
      omega
    · rw [toCome, toCome, hpieces, List.flatMap_cons]
      have hnil := cutLines_text rd.uncompBuf.data [] hopen
        (marked delivery.piece ++ dec'.strm.pieces.flatMap marked)
      rw [List.append_nil] at hnil
      rw [hnil]
      exact cutLines_text rd.uncompBuf.data delivery.piece hopen _

theorem Ready.windowLine {rd : FileReader} {dec : Decompressor} (h : rd.Ready dec) {nLineLen nDropLen : Nat}
    (hfind : findNewline rd.uncompBuf.data = some (nLineLen, nDropLen)) :
    ∃ rd', rd.windowLine dec = some (true, rd.uncompBuf.data.take nLineLen, rd') ∧ rd'.Ready dec ∧
      rd'.nEofLines = rd.nEofLines ∧ (toCome rd' dec).length < (toCome rd dec).length ∧
      cutLines (toCome rd dec) = rd.uncompBuf.data.take nLineLen :: cutLines (toCome rd' dec) := by
  obtain ⟨hpos, hle⟩ := findNewline_drop hfind
  refine ⟨{ rd with uncompBuf := { rd.uncompBuf with data := rd.uncompBuf.data.drop nDropLen } },
    by simp [FileReader.windowLine, hfind], ?_, rfl, ?_, cutLines_findNewline hfind _⟩
  · refine { h with room := ?_, fits := ?_, short := ?_ }
    · have := h.room
      dsimp only
      rw [List.length_drop]
      omega
    · rw [openLine_findNewline hfind]
      exact h.fits
    · intro s hs hopen
      refine h.short s (hs.trans (List.IsSuffix.isInfix ?_)) hopen
      obtain ⟨front, hfront⟩ := List.drop_suffix nDropLen rd.uncompBuf.data
      exact ⟨front, by rw [← List.append_assoc, hfront]⟩
  · rw [length_toCome, length_toCome]
    dsimp only
    rw [List.length_drop]
    omega

theorem foldr_consHead_last (s : Bytes) : s.foldr consHead [[]] = [s] := by
  induction s with
  | nil => rfl
  | cons c t ih =>
    rw [List.foldr_cons, ih]
    rfl

/-- The final buffer without a line end. -/
theorem Ready.last {rd : FileReader} {dec : Decompressor} (h : rd.Ready dec)
    (hopen : ∀ c ∈ rd.uncompBuf.data, lineEnd c = false) (heof : dec.eof = true) :
    cutLines (toCome rd dec) = [rd.uncompBuf.data] := by
  rw [h.eof_iff, List.isEmpty_iff] at heof
  have hnil := cutLines_text rd.uncompBuf.data [] hopen []
  rw [List.append_nil, List.append_nil] at hnil
  rw [toCome, Strm.pieces, heof, List.map_nil, List.flatMap_nil, List.append_nil, hnil]
  exact foldr_consHead_last _

/-- A call gives the first line of those to come. Either it was the last one or the reader goes on. -/
def Takes (rd : FileReader) (bForceUncompress : Bool) (coming : List (UInt8 × Bool)) : Prop :=
  ∃ fuel line rd', rd.getOneLine fuel bForceUncompress = some (true, line, rd') ∧
    rd'.nEofLines = rd.nEofLines ∧
    (rd'.bEof = true ∧ cutLines coming = [line] ∨
      ∃ dec', rd'.Ready dec' ∧ (toCome rd' dec').length < coming.length ∧
        cutLines coming = line :: cutLines (toCome rd' dec'))

theorem getOneLine_dec {rd rd' : FileReader} {dec dec' : Decompressor} (heof : rd.bEof = false)
    (herror : rd.bError = false) (hdec : rd.dec = some dec) {bForceUncompress : Bool}
    (hrefill : rd.refill dec bForceUncompress = some (rd', dec')) (fuel : Nat) :
    rd.getOneLine (fuel + 1) bForceUncompress = (rd'.windowLine dec').or (rd'.getOneLine fuel true) := by
  simp [getOneLine, heof, herror, hdec, hrefill]

/-- Behind its refill a call takes a line of the window, or it calls itself. -/
theorem takes_of_refill {rd rd' : FileReader} {dec dec' : Decompressor} (heof : rd.bEof = false)
    (herror : rd.bError = false) (hdec : rd.dec = some dec) {bForceUncompress : Bool}
    (hrefill : rd.refill dec bForceUncompress = some (rd', dec')) (h : rd'.Ready dec')
    (hlines : rd'.nEofLines = rd.nEofLines)
    (hforced : (∀ c ∈ rd'.uncompBuf.data, lineEnd c = false) → dec'.eof = false →
      rd'.Takes true (toCome rd' dec')) :
    rd.Takes bForceUncompress (toCome rd' dec') := by
  have hcall := getOneLine_dec heof herror hdec hrefill
  cases hfind : findNewline rd'.uncompBuf.data with
  | some x =>
    obtain ⟨rd'', hline, hready, hlines', hless, hcut⟩ := h.windowLine hfind
    refine ⟨1, _, rd'', ?_, hlines'.trans hlines, .inr ⟨dec', hready, hless, hcut⟩⟩
    rw [hcall, hline, Option.some_or]
  | none =>
    have hopen := findNewline_none.mp hfind
    cases hend : dec'.eof with
    | true =>
      let rd'' : FileReader := { rd' with bEof := true, uncompBuf := { rd'.uncompBuf with data := [] } }
      have hline : rd'.windowLine dec' = some (true, rd'.uncompBuf.data, rd'') := by
        simp [FileReader.windowLine, hfind, hend, rd'']
      refine ⟨1, _, rd'', ?_, hlines, .inl ⟨rfl, h.last hopen hend⟩⟩
      rw [hcall, hline, Option.some_or]
    | false =>
      have hline : rd'.windowLine dec' = none := by simp [FileReader.windowLine, hfind, hend]
      obtain ⟨fuel, line, rd'', hforce, hlines', hcut⟩ := hforced hopen hend
      refine ⟨fuel + 1, line, rd'', ?_, hlines'.trans hlines, hcut⟩
      rw [hcall, hline, Option.none_or, hforce]

theorem Ready.takes_forced {rd : FileReader} {dec : Decompressor} (h : rd.Ready dec)
    (hopen : ∀ c ∈ rd.uncompBuf.data, lineEnd c = false) (heof : dec.eof = false) :
    rd.Takes true (toCome rd dec) := by
  induction hn : dec.strm.deliveries.length using Nat.strongRecOn generalizing rd dec with
  | ind n ih =>
    obtain ⟨rd', dec', hrefill, hready, hlines, hless, hlen, hcut⟩ := h.refill hopen heof
    have htakes := takes_of_refill h.noEof h.noError h.dec_eq hrefill hready hlines
      (fun hopen' heof' => ih _ (hn ▸ hless) hready hopen' heof' rfl)
    rwa [Takes, hlen, hcut] at htakes

theorem Ready.takes {rd : FileReader} {dec : Decompressor} (h : rd.Ready dec) :
    rd.Takes false (toCome rd dec) := by
  have hrefill : rd.refill dec false = some (rd, dec) := by
    rw [FileReader.refill, if_neg]
    by_cases hpos : rd.nBufPos = 0
    · simp [h.started hpos]
    · simp [hpos]
  exact takes_of_refill h.noEof h.noError h.dec_eq hrefill h rfl h.takes_forced

/-- A call that takes the first line, and what is read behind it. -/
theorem Takes.readsTo {rd : FileReader} {coming : List (UInt8 × Bool)} (h : rd.Takes false coming)
    (ih : ∀ {rd' dec'}, rd'.Ready dec' → (toCome rd' dec').length < coming.length →
      ∃ rd'', rd'.ReadsTo (cutLines (toCome rd' dec') ++ List.replicate rd'.nEofLines.toNat []) rd'') :
    ∃ rd', rd.ReadsTo (cutLines coming ++ List.replicate rd.nEofLines.toNat []) rd' := by
  obtain ⟨fuel, line, rd', hline, hlines, ⟨heof, hcut⟩ | ⟨dec', hready, hless, hcut⟩⟩ := h
  · obtain ⟨rd'', hrest, -⟩ := readsTo_eof heof
    rw [hlines] at hrest
    rw [hcut]
    exact ⟨rd'', .line hline hrest⟩
  · obtain ⟨rd'', hrest⟩ := ih hready hless
    rw [hlines] at hrest
    rw [hcut]
    exact ⟨rd'', .line hline hrest⟩

theorem Ready.readsTo {rd : FileReader} {dec : Decompressor} (h : rd.Ready dec) :
    ∃ rd', rd.ReadsTo (cutLines (toCome rd dec) ++ List.replicate rd.nEofLines.toNat []) rd' := by
  induction hn : (toCome rd dec).length using Nat.strongRecOn generalizing rd dec with
  | ind n ih => exact h.takes.readsTo (fun hready hless => ih _ (hn ▸ hless) hready rfl)

/-- The first refill, into the empty window. -/
theorem refill_start (type : DecompressorType) (strm : Strm) (nFakeTrailingNewlines : Nat)
    (hcomplete : strm.ending = .complete) (hused : ∀ delivery ∈ strm.deliveries.head?, 0 < delivery.used)
    (hfits : Fits 4095 [] strm.pieces) (hshort : ShortLines strm.pieces.flatten) :
    ∃ rd dec, (openCompressed type strm nFakeTrailingNewlines).refill { type, strm } false = some (rd, dec) ∧
      rd.Ready dec ∧ rd.nEofLines = nFakeTrailingNewlines ∧
      toCome rd dec = strm.pieces.flatMap marked := by
  let rd : FileReader := openCompressed type strm nFakeTrailingNewlines
  have hfirst : ∀ {dec nBufPos uncompBuf},
      Decompressor.uncompMore { type, strm } 0 {} = (true, dec, nBufPos, uncompBuf) →
        rd.refill { type, strm } false = some ({ rd with nBufPos, uncompBuf, dec := some dec }, dec) := by
    intro dec nBufPos uncompBuf hmore
    simp [FileReader.refill, rd, openCompressed, hmore]
  cases hstrm : strm.deliveries with
  | nil =>
    have hmore : Decompressor.uncompMore { type, strm } 0 {} = (true, { type, strm, eof := true }, 0, {}) := by
      cases type <;>
        simp [Decompressor.uncompMore, DecompressorType.library, bzDecompress, inflate, lzmaCode, Strm.call,
          hstrm, hcomplete]
    refine ⟨_, _, hfirst hmore, ?_, rfl, rfl⟩
    exact ⟨rfl, rfl, rfl, fun _ => rfl, hcomplete, by rw [hstrm]; rfl, Nat.zero_le _, hfits, hshort⟩
  | cons delivery deliveries =>
    have hpieces : strm.pieces = delivery.piece :: deliveries.map Delivery.piece := by
      rw [Strm.pieces, hstrm, List.map_cons]
    rw [hpieces] at hfits hshort ⊢
    have hmore := @uncompMore_fits { type, strm } delivery deliveries hcomplete hstrm 0 {} hfits.1
    refine ⟨_, _, hfirst hmore, ?_, rfl, rfl⟩
    refine ⟨rfl, rfl, rfl, fun hnot => ?_, hcomplete, rfl, ?_, hfits.2, hshort⟩
    · have := hused delivery (by rw [hstrm]; rfl)
      simp only at hnot
      omega
    · simpa using hfits.1

/-- The lines of a compressed file. -/
theorem readsTo_compressed (type : DecompressorType) (strm : Strm) (nFakeTrailingNewlines : Nat)
    (hcomplete : strm.ending = .complete) (hused : ∀ delivery ∈ strm.deliveries.head?, 0 < delivery.used)
    (hfits : Fits 4095 [] strm.pieces) (hshort : ShortLines strm.pieces.flatten) :
    ∃ rd, (openCompressed type strm nFakeTrailingNewlines).ReadsTo
      (cutLines (strm.pieces.flatMap marked) ++ List.replicate nFakeTrailingNewlines []) rd := by
  obtain ⟨rd, dec, hrefill, hready, hlines, hcoming⟩ :=
    refill_start type strm nFakeTrailingNewlines hcomplete hused hfits hshort
  have htakes := takes_of_refill rfl rfl rfl hrefill hready hlines hready.takes_forced
  obtain ⟨rd', hreads⟩ := htakes.readsTo (fun hready' _ => hready'.readsTo)
  rw [hcoming] at hreads
  exact ⟨rd', hreads⟩

/-- When a compressed file is read like the same content in a plain file: its last line is ended, and the pieces cut
off at most one part of odd length from each run of alternating line ends. -/
theorem sameLines_iff (type : DecompressorType) (strm : Strm) (nFakeTrailingNewlines : Nat)
    (hcomplete : strm.ending = .complete) (hused : ∀ delivery ∈ strm.deliveries.head?, 0 < delivery.used)
    (hfits : Fits 4095 [] strm.pieces) (hshort : ShortLines strm.pieces.flatten) :
    (∃ lines rd rd', (openCompressed type strm nFakeTrailingNewlines).ReadsTo lines rd ∧
      (openPlain strm.pieces.flatten nFakeTrailingNewlines).ReadsTo lines rd') ↔
    strm.pieces.flatten.getLast?.all lineEnd = true ∧
      ∀ run ∈ (strm.pieces.flatMap marked).splitBy alternates, oddParts run ≤ 1 := by
  obtain ⟨rd, hcompressed⟩ :=
    readsTo_compressed type strm nFakeTrailingNewlines hcomplete hused hfits hshort
  obtain ⟨rd', hplain⟩ := @readsTo_plain (openPlain strm.pieces.flatten nFakeTrailingNewlines) rfl rfl rfl
  have hcontent : (strm.pieces.flatMap marked).map Prod.fst = strm.pieces.flatten := by
    rw [List.map_flatMap]
    simp only [marked_fst]
    exact List.flatMap_id
  have hlast : strm.pieces.flatten.getLast?.all lineEnd =
      (strm.pieces.flatMap marked).getLast?.all (fun a => lineEnd a.1) := by
    rw [← hcontent, List.getLast?_map, Option.all_map]
  have hiff := cutLines_eq_fileLines_iff (strm.pieces.flatMap marked)
  rw [hcontent, ← hlast] at hiff
  rw [← hiff]
  constructor
  · rintro ⟨lines, rd₁, rd₂, h₁, h₂⟩
    have heq := (h₁.unique hcompressed).1.symm.trans (h₂.unique hplain).1
    exact List.append_cancel_right heq
  · intro heq
    rw [heq] at hcompressed
    exact ⟨_, rd, rd', hcompressed, hplain⟩

/-- A mark behind the carriage return and the newline. -/
theorem sameLines_iff_crlf :
    let strm : Strm := ⟨[⟨3, lit "a\r\n"⟩, ⟨2, lit "b\n\r"⟩], .complete⟩
    ∃ lines rd rd', (openCompressed .tGzDec strm 1).ReadsTo lines rd ∧
      (openPlain strm.pieces.flatten 1).ReadsTo lines rd' := by
  refine (sameLines_iff .tGzDec ⟨[⟨3, lit "a\r\n"⟩, ⟨2, lit "b\n\r"⟩], .complete⟩ 1 rfl ?_ ?_ ?_).mpr ?_
  · intro delivery hfirst
    obtain rfl : ⟨3, lit "a\r\n"⟩ = delivery := Option.some.inj hfirst
    exact Nat.zero_lt_succ 2
  · exact ⟨by decide, by decide, trivial⟩
  · intro s hs _
    have hlen := hs.length_le
    have hall : (lit "a\r\nb\n\r").length = 6 := by decide
    have : s.length ≤ 6 := hall ▸ hlen
    omega
  · decide

/-- A mark between them makes an empty line, and without an end of the last line the plain file has one more. -/
theorem sameLines_cut_and_unended :
    ((openCompressed .tBzDec ⟨[⟨2, lit "a\r"⟩, ⟨3, lit "\nb\n"⟩], .complete⟩ 0).readLines 9 9).map Prod.fst =
        some [lit "a", [], lit "b", []] ∧
      ((openPlain (lit "a\r\nb\n") 0).readLines 9 9).map Prod.fst = some [lit "a", lit "b", []] ∧
      ((openCompressed .tBzDec ⟨[⟨1, lit "a"⟩], .complete⟩ 0).readLines 9 9).map Prod.fst = some [lit "a"] ∧
      ((openPlain (lit "a") 0).readLines 9 9).map Prod.fst = some [lit "a", []] := by
  refine ⟨?_, ?_, ?_, ?_⟩ <;> decide

end FileReader

end Acng
