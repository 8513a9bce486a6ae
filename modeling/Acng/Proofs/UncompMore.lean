import Acng.Proofs.GetOneLine

namespace Acng
open Lib

/-- What a stream still gives: its bytes. -/
def Strm.bytes (strm : Strm) : Nat := (strm.deliveries.map (fun delivery => delivery.piece.length)).sum

/-- The bytes and the calls that are left at least. -/
def Strm.left (strm : Strm) : Nat := strm.bytes + strm.deliveries.length

/-- What a call does to a stream. -/
structure Called (noInput : DecRet) (strm : Strm) (availOut : Nat) (call : DecCall) : Prop where
  fits : call.out.length ≤ availOut
  bytes : call.out.length + call.strm.bytes = strm.bytes
  ending : call.strm.ending = strm.ending
  ended : call.ret = .streamEnd → noInput ≠ .streamEnd → strm.ending = .complete
  progress : 0 < availOut → call.ret = .ok → call.strm.left < strm.left ∨
    (strm.ending = .premature ∧ noInput = .ok)

theorem Strm.called (noInput : DecRet) (strm : Strm) (availOut : Nat) :
    Called noInput strm availOut (strm.call noInput availOut) := by
  obtain ⟨deliveries, ending⟩ := strm
  cases deliveries with
  | nil => cases ending <;> constructor <;> simp_all [Strm.call, Strm.bytes]
  | cons delivery deliveries =>
    by_cases hspace : availOut < delivery.piece.length
    · have hlen : (delivery.piece.take availOut).length = availOut := by
        rw [List.length_take]
        omega
      have hcall : Strm.call noInput ⟨delivery :: deliveries, ending⟩ availOut =
          ⟨.ok, delivery.used, delivery.piece.take availOut,
            ⟨⟨0, delivery.piece.drop availOut⟩ :: deliveries, ending⟩⟩ := if_pos hspace
      rw [hcall]
      refine ⟨hlen.le, ?_, rfl, fun h => absurd h (by simp), fun hpos _ => .inl ?_⟩
      · simp only [Strm.bytes, hlen, List.map_cons, List.sum_cons, List.length_drop]
        omega
      · simp only [Strm.left, Strm.bytes, List.map_cons, List.sum_cons, List.length_drop, List.length_cons]
        omega
    · have hcall : Strm.call noInput ⟨delivery :: deliveries, ending⟩ availOut =
          ⟨if deliveries.isEmpty && ending == .complete then .streamEnd else .ok, delivery.used,
            delivery.piece, ⟨deliveries, ending⟩⟩ := if_neg hspace
      rw [hcall]
      refine ⟨Nat.le_of_not_lt hspace, rfl, rfl, fun h _ => ?_, fun _ _ => .inl ?_⟩
      · by_cases hend : (deliveries.isEmpty && ending == .complete) = true
        · exact beq_iff_eq.mp (Bool.and_eq_true_iff.mp hend).2
        · rw [if_neg hend] at h
          exact absurd h (by simp)
      · simp only [Strm.left, Strm.bytes, List.map_cons, List.sum_cons, List.length_cons]
        omega

/-- The streams that the loops do not end on: the library has no error for them. -/
def Endless (dec : Decompressor) : Prop := dec.type = .tBzDec ∧ dec.strm.ending = .premature

/-- What `UncompMore` does. -/
structure Uncompressed (dec : Decompressor) (buf : UncompBuf)
    (r : Bool × Decompressor × Nat × UncompBuf) : Prop where
  type : r.2.1.type = dec.type
  ending : r.2.1.strm.ending = dec.strm.ending
  totalcapa : r.2.2.2.totalcapa = buf.totalcapa
  room : buf.data.length ≤ buf.totalcapa → r.2.2.2.data.length ≤ buf.totalcapa
  bytes : r.2.2.2.data.length + r.2.1.strm.bytes ≤ buf.data.length + dec.strm.bytes
  failed : r.1 = false → r.2.1.eof = true
  ended : r.1 = true → r.2.1.eof = true → dec.strm.ending = .complete
  progress : 0 < buf.freecapa → r.2.1.eof = false → r.2.1.strm.left < dec.strm.left ∨ Endless dec

theorem uncompressed (dec : Decompressor) (nBufPos : Nat) (buf : UncompBuf) :
    Uncompressed dec buf (dec.uncompMore nBufPos buf) := by
  obtain ⟨noInput, hlib, hno, hok⟩ : ∃ noInput, dec.type.library = Strm.call noInput ∧
      noInput ≠ .streamEnd ∧ (noInput = .ok → dec.type = .tBzDec) := by
    cases dec.type with
    | tBzDec => exact ⟨.ok, rfl, by simp, fun _ => rfl⟩
    | tGzDec => exact ⟨.error, rfl, by simp, fun h => absurd h (by simp)⟩
    | tXzDec => exact ⟨.error, rfl, by simp, fun h => absurd h (by simp)⟩
  have hcalled := Strm.called noInput dec.strm buf.freecapa
  have hbytes := hcalled.bytes
  have hfits := hcalled.fits
  have hfree : buf.freecapa = buf.totalcapa - buf.data.length := rfl
  rw [Decompressor.uncompMore, hlib]
  generalize Strm.call noInput dec.strm buf.freecapa = call at hcalled hbytes hfits
  cases hret : call.ret with
  | error =>
    exact ⟨rfl, hcalled.ending, rfl, id, by simp only; omega, fun _ => rfl, fun h => absurd h (by simp),
      fun _ h => absurd h (by simp)⟩
  | ok =>
    refine ⟨rfl, hcalled.ending, rfl, fun _ => ?_, ?_, fun h => absurd h (by simp),
      fun _ h => absurd h (by simp), fun hpos _ => ?_⟩
    · simp only [List.length_append]
      omega
    · simp only [List.length_append]
      omega
    · exact (hcalled.progress hpos hret).imp_right (fun h => ⟨hok h.2, h.1⟩)
  | streamEnd =>
    refine ⟨rfl, hcalled.ending, rfl, fun _ => ?_, ?_, fun h => absurd h (by simp),
      fun _ _ => hcalled.ended hret hno, fun _ h => absurd h (by simp)⟩
    · simp only [List.length_append]
      omega
    · simp only [List.length_append]
      omega

namespace FileReader

/-- A reader of a compressed file that is not at its end. -/
structure Running (rd : FileReader) (dec : Decompressor) : Prop where
  dec_eq : rd.dec = some dec
  noEof : rd.bEof = false
  capa : 0 < rd.uncompBuf.totalcapa
  room : rd.uncompBuf.data.length ≤ rd.uncompBuf.totalcapa
  told : dec.eof = true → dec.strm.ending = .premature → rd.bError = true
  usual : ¬ Endless dec

/-- The bytes that a reader has and may get. -/
def size (rd : FileReader) (dec : Decompressor) : Nat := rd.uncompBuf.data.length + dec.strm.bytes

/-- What the part of `GetOneLine` that uncompresses does. -/
structure Refilled (rd : FileReader) (dec : Decompressor) (bForceUncompress : Bool) (rd' : FileReader)
    (dec' : Decompressor) : Prop where
  running : rd'.Running dec'
  ending : dec'.strm.ending = dec.strm.ending
  size_le : size rd' dec' ≤ size rd dec
  progress : bForceUncompress = true → dec'.eof = false → dec'.strm.left < dec.strm.left

theorem Running.uncompMore {rd : FileReader} {dec : Decompressor} (h : rd.Running dec) {buf : UncompBuf}
    (hdata : buf.data = rd.uncompBuf.data) (hcapa : rd.uncompBuf.totalcapa ≤ buf.totalcapa)
    {bForceUncompress : Bool} (hfree : bForceUncompress = true → 0 < buf.freecapa)
    {ok : Bool} {dec' : Decompressor} {nBufPos : Nat} {buf' : UncompBuf}
    (hmore : dec.uncompMore rd.nBufPos buf = (ok, dec', nBufPos, buf')) :
    Refilled rd dec bForceUncompress
      { rd with nBufPos, uncompBuf := buf', dec := some dec', bError := !ok } dec' := by
  have hun := uncompressed dec rd.nBufPos buf
  rw [hmore] at hun
  have hroom : buf.data.length ≤ buf.totalcapa := by
    have := h.room
    rw [hdata]
    omega
  have htotal : buf'.totalcapa = buf.totalcapa := hun.totalcapa
  have hend : dec'.strm.ending = dec.strm.ending := hun.ending
  have hpos := h.capa
  refine ⟨⟨rfl, h.noEof, ?_, ?_, ?_, ?_⟩, hend, ?_, ?_⟩
  · simp only
    omega
  · have := hun.room hroom
    simp only at this ⊢
    omega
  · intro heof hpremature
    cases ok with
    | false => rfl
    | true =>
      have hcomplete := hun.ended rfl heof
      rw [← hend, hpremature] at hcomplete
      exact absurd hcomplete (by simp)
  · have htype : dec'.type = dec.type := hun.type
    rw [Endless, htype, hend]
    exact h.usual
  · have := hun.bytes
    rw [hdata] at this
    exact this
  · intro hforce heof
    exact (hun.progress (hfree hforce) heof).resolve_right h.usual

theorem Running.refill {rd : FileReader} {dec : Decompressor} (h : rd.Running dec) {bForceUncompress : Bool}
    {rd' : FileReader} {dec' : Decompressor} (hrefill : rd.refill dec bForceUncompress = some (rd', dec')) :
    Refilled rd dec bForceUncompress rd' dec' := by
  rw [FileReader.refill] at hrefill
  by_cases hneeded : ((rd.nBufPos = 0 || bForceUncompress) && !dec.eof) = true
  · rw [if_pos hneeded] at hrefill
    have hroom := h.room
    have hcapa := h.capa
    cases hfull : bForceUncompress && decide (rd.uncompBuf.freecapa = 0) with
    | true =>
      simp only [hfull, Bool.true_and, if_true] at hrefill
      split at hrefill
      · exact absurd hrefill (by simp)
      · let buf : UncompBuf := { rd.uncompBuf with totalcapa := rd.uncompBuf.totalcapa * 2 }
        have hfree : bForceUncompress = true → 0 < buf.freecapa := by
          intro _
          change 0 < rd.uncompBuf.totalcapa * 2 - rd.uncompBuf.data.length
          omega
        have hless : rd.uncompBuf.totalcapa ≤ buf.totalcapa := by
          change _ ≤ rd.uncompBuf.totalcapa * 2
          omega
        obtain ⟨rfl, rfl⟩ := Prod.mk.inj (Option.some.inj hrefill)
        exact @Running.uncompMore rd dec h buf rfl hless _ hfree _ _ _ _ rfl
    | false =>
      simp only [hfull, Bool.false_and, Bool.false_eq_true, if_false] at hrefill
      have hfree : bForceUncompress = true → 0 < rd.uncompBuf.freecapa := by
        intro hforce
        simpa [hforce, Nat.pos_iff_ne_zero] using hfull
      obtain ⟨rfl, rfl⟩ := Prod.mk.inj (Option.some.inj hrefill)
      exact h.uncompMore rfl (Nat.le_refl _) hfree rfl
  · rw [if_neg hneeded, Option.some_inj, Prod.mk.injEq] at hrefill
    obtain ⟨rfl, rfl⟩ := hrefill
    refine ⟨h, rfl, Nat.le_refl _, fun hforce heof => ?_⟩
    simp [hforce, heof] at hneeded

/-- A call that comes back. If it fails at a premature end, there is an error. -/
def Returns (rd : FileReader) (dec : Decompressor) (bForceUncompress : Bool) : Prop :=
  ∃ fuel ok line rd', rd.getOneLine fuel bForceUncompress = some (ok, line, rd') ∧
    ((ok = false ∨ rd'.bEof = true) ∧ (dec.strm.ending = .premature → rd'.bError = true) ∨
      ok = true ∧ ∃ dec', rd'.Running dec' ∧ dec'.strm.ending = dec.strm.ending ∧ size rd' dec' < size rd dec)

theorem Running.windowLine {rd : FileReader} {dec : Decompressor} (h : rd.Running dec)
    {r : Bool × Bytes × FileReader} (hline : rd.windowLine dec = some r) :
    r.1 = true ∧ (r.2.2.bEof = true ∧ (dec.strm.ending = .premature → r.2.2.bError = true) ∨
      r.2.2.Running dec ∧ size r.2.2 dec < size rd dec) := by
  rw [FileReader.windowLine] at hline
  cases hfind : findNewline rd.uncompBuf.data with
  | some x =>
    obtain ⟨nLineLen, nDropLen⟩ := x
    simp only [hfind, Option.some_inj] at hline
    obtain ⟨hpos, hle⟩ := findNewline_drop hfind
    subst hline
    refine ⟨rfl, .inr ⟨{ h with room := ?_ }, ?_⟩⟩
    · have := h.room
      simp only [List.length_drop]
      omega
    · simp only [size, List.length_drop]
      omega
  | none =>
    cases heof : dec.eof with
    | false => simp [hfind, heof] at hline
    | true =>
      simp only [hfind, heof, if_true, Option.some_inj] at hline
      subst hline
      exact ⟨rfl, .inl ⟨rfl, h.told heof⟩⟩

theorem windowLine_none {rd : FileReader} {dec : Decompressor} (h : rd.windowLine dec = none) :
    dec.eof = false := by
  rw [FileReader.windowLine] at h
  cases hfind : findNewline rd.uncompBuf.data with
  | some x => simp [hfind] at h
  | none =>
    cases heof : dec.eof with
    | true => simp [hfind, heof] at h
    | false => rfl

/-- A call comes back if the one of itself does. -/
theorem Running.returns_of_forced {rd : FileReader} {dec : Decompressor} (h : rd.Running dec)
    (bForceUncompress : Bool)
    (hforced : ∀ {rd' dec'}, Refilled rd dec bForceUncompress rd' dec' → dec'.eof = false →
      rd'.Returns dec' true) :
    rd.Returns dec bForceUncompress := by
  cases herror : rd.bError with
  | true =>
    refine ⟨1, false, [], rd, ?_, .inl ⟨.inl rfl, fun _ => herror⟩⟩
    simp [getOneLine, h.noEof, herror]
  | false =>
    cases hrefill : rd.refill dec bForceUncompress with
    | none =>
      refine ⟨1, false, [], { rd with bError := true }, ?_, .inl ⟨.inl rfl, fun _ => rfl⟩⟩
      simp [getOneLine, h.noEof, herror, h.dec_eq, hrefill]
    | some x =>
      obtain ⟨rd', dec'⟩ := x
      have hre := h.refill hrefill
      have hcall := getOneLine_dec h.noEof herror h.dec_eq hrefill
      have hsize := hre.size_le
      cases hline : rd'.windowLine dec' with
      | some r =>
        obtain ⟨ok, line, rd''⟩ := r
        obtain ⟨hok, hbehind⟩ := hre.running.windowLine hline
        refine ⟨1, ok, line, rd'', by rw [hcall, hline, Option.some_or], ?_⟩
        obtain ⟨heof, htold⟩ | ⟨hrunning, hless⟩ := hbehind
        · rw [hre.ending] at htold
          exact .inl ⟨.inr heof, htold⟩
        · exact .inr ⟨hok, dec', hrunning, hre.ending, Nat.lt_of_lt_of_le hless hsize⟩
      | none =>
        obtain ⟨fuel, ok, line, rd'', hforce, hbehind⟩ := hforced hre (windowLine_none hline)
        refine ⟨fuel + 1, ok, line, rd'', by rw [hcall, hline, Option.none_or, hforce], ?_⟩
        rw [hre.ending] at hbehind
        refine hbehind.imp_right ?_
        rintro ⟨hok, dec'', hrunning, hend, hless⟩
        exact ⟨hok, dec'', hrunning, hend, Nat.lt_of_lt_of_le hless hsize⟩

/-- Each forced call brings the stream nearer to its end. -/
theorem Running.returns_forced {rd : FileReader} {dec : Decompressor} (h : rd.Running dec) :
    rd.Returns dec true := by
  induction hn : dec.strm.left using Nat.strongRecOn generalizing rd dec with
  | ind n ih =>
    exact h.returns_of_forced true
      (fun hre heof => ih _ (hn ▸ hre.progress rfl heof) hre.running rfl)

theorem Running.returns {rd : FileReader} {dec : Decompressor} (h : rd.Running dec) :
    rd.Returns dec false :=
  h.returns_of_forced false (fun hre _ => hre.running.returns_forced)

theorem Running.readsTo {rd : FileReader} {dec : Decompressor} (h : rd.Running dec) :
    ∃ lines rd', rd.ReadsTo lines rd' ∧ (dec.strm.ending = .premature → rd'.bError = true) := by
  induction hn : size rd dec using Nat.strongRecOn generalizing rd dec with
  | ind n ih =>
    obtain ⟨fuel, ok, line, rd', hline, ⟨hend, htold⟩ | ⟨rfl, dec', hrunning, hend, hless⟩⟩ := h.returns
    · cases ok with
      | false => exact ⟨[], rd', .stop hline, htold⟩
      | true =>
        obtain ⟨rd'', hreads, herror⟩ := readsTo_eof (hend.resolve_left (by simp))
        exact ⟨_, rd'', .line hline hreads, fun hpremature => herror.trans (htold hpremature)⟩
    · obtain ⟨lines, rd'', hreads, htold⟩ := ih _ (hn ▸ hless) hrunning rfl
      rw [hend] at htold
      exact ⟨line :: lines, rd'', .line hline hreads, htold⟩

/-- The loop of `GetChecksum`, whose buffer is empty each time. -/
theorem getChecksumLoop_ends (rd : FileReader) (dec : Decompressor) (data : Bytes)
    (hempty : rd.uncompBuf.data = []) (hcapa : 0 < rd.uncompBuf.totalcapa) (husual : ¬ Endless dec) :
    ∃ fuel ok sum rd', rd.getChecksumLoop fuel dec data = some (ok, sum, rd') ∧
      (dec.strm.ending = .premature → ok = false ∧ rd'.bError = true) := by
  induction hn : dec.strm.left using Nat.strongRecOn generalizing rd dec data with
  | ind n ih =>
    have hun := uncompressed dec rd.nBufPos rd.uncompBuf
    cases hmore : dec.uncompMore rd.nBufPos rd.uncompBuf with
    | mk ok more =>
      obtain ⟨dec', nBufPos, uncompBuf⟩ := more
      rw [hmore] at hun
      have hfree : 0 < rd.uncompBuf.freecapa := by
        rw [UncompBuf.freecapa, hempty, List.length_nil]
        omega
      cases ok with
      | false =>
        refine ⟨1, false, data, { rd with nBufPos, dec := some dec', uncompBuf, bError := true }, ?_,
          fun _ => ⟨rfl, rfl⟩⟩
        simp [getChecksumLoop, hmore]
      | true =>
        let rd' : FileReader := { rd with nBufPos, dec := some dec', uncompBuf := { uncompBuf with data := [] } }
        cases heof : dec'.eof with
        | true =>
          refine ⟨1, !rd.bError, data ++ uncompBuf.data, { rd' with bEof := true }, ?_, fun hpremature => ?_⟩
          · simp [getChecksumLoop, hmore, heof, rd']
          · rw [hun.ended rfl heof] at hpremature
            exact absurd hpremature (by simp)
        | false =>
          have hless := (hun.progress hfree heof).resolve_right husual
          have husual' : ¬ Endless dec' := by
            have htype : dec'.type = dec.type := hun.type
            have hend : dec'.strm.ending = dec.strm.ending := hun.ending
            rwa [Endless, htype, hend]
          have hcapa' : 0 < rd'.uncompBuf.totalcapa := by
            rw [← hun.totalcapa] at hcapa
            exact hcapa
          obtain ⟨fuel, ok, sum, rd'', hloop, hends⟩ :=
            ih _ (hn ▸ hless) rd' dec' (data ++ uncompBuf.data) rfl hcapa' husual' rfl
          rw [show dec'.strm.ending = dec.strm.ending from hun.ending] at hends
          refine ⟨fuel + 1, ok, sum, rd'', ?_, hends⟩
          rw [getChecksumLoop, hmore]
          simp only [Bool.not_true, Bool.false_eq_true, if_false, heof]
          exact hloop

/-- Without input the library of bzip2 has nothing to say. -/
theorem uncompMore_endless {dec : Decompressor} (h : Endless dec) (nBufPos : Nat) (buf : UncompBuf) :
    (dec.uncompMore nBufPos buf).1 = true ∧ (dec.uncompMore nBufPos buf).2.1.eof = false ∧
      Endless (dec.uncompMore nBufPos buf).2.1 := by
  obtain ⟨htype, hend⟩ := h
  have hlib : dec.type.library dec.strm buf.freecapa = Strm.call .ok dec.strm buf.freecapa := by rw [htype]; rfl
  have hret : (Strm.call .ok dec.strm buf.freecapa).ret = .ok := by
    rw [Strm.call]
    split
    · simp [hend]
    · split
      · rfl
      · simp [hend]
  have hending := (Strm.called .ok dec.strm buf.freecapa).ending
  rw [Decompressor.uncompMore, hlib]
  simp only [hret]
  exact ⟨trivial, rfl, htype, hending.trans hend⟩

theorem getChecksumLoop_endless (fuel : Nat) (rd : FileReader) (dec : Decompressor) (data : Bytes)
    (h : Endless dec) : rd.getChecksumLoop fuel dec data = none := by
  induction fuel generalizing rd dec data with
  | zero => rfl
  | succ fuel ih =>
    obtain ⟨hok, heof, hagain⟩ := uncompMore_endless h rd.nBufPos rd.uncompBuf
    rw [getChecksumLoop]
    cases hmore : dec.uncompMore rd.nBufPos rd.uncompBuf with
    | mk ok more =>
      obtain ⟨dec', nBufPos, uncompBuf⟩ := more
      rw [hmore] at hok heof hagain
      simp only at hok heof hagain
      simp only [hok, Bool.not_true, Bool.false_eq_true, if_false, heof]
      exact ih _ dec' _ hagain

theorem getChecksum_endless {type : DecompressorType} {strm : Strm} (h : Endless { type, strm })
    (nFakeTrailingNewlines fuel : Nat) :
    (openCompressed type strm nFakeTrailingNewlines).getChecksum fuel = none :=
  getChecksumLoop_endless fuel _ _ _ h

/-- Reading ends, with an error if the stream does prematurely, except for a truncated file of bzip2. -/
theorem reading_ends_iff (type : DecompressorType) (strm : Strm) (nFakeTrailingNewlines : Nat) :
    (∃ lines rd, (openCompressed type strm nFakeTrailingNewlines).ReadsTo lines rd ∧
        (strm.ending = .premature → rd.bError = true)) ∧
      (∃ fuel ok sum rd, (openCompressed type strm nFakeTrailingNewlines).getChecksum fuel = some (ok, sum, rd) ∧
        (strm.ending = .premature → ok = false ∧ rd.bError = true)) ↔
    ¬ (type = .tBzDec ∧ strm.ending = .premature) := by
  let dec : Decompressor := { type, strm }
  constructor
  · rintro ⟨-, fuel, ok, sum, rd, hsum, -⟩ hendless
    rw [getChecksum_endless hendless] at hsum
    exact absurd hsum (by simp)
  · intro husual
    have hrunning : (openCompressed type strm nFakeTrailingNewlines).Running dec :=
      ⟨rfl, rfl, Nat.zero_lt_succ _, Nat.zero_le _, fun heof => absurd heof (by simp [dec]), husual⟩
    exact ⟨hrunning.readsTo, getChecksumLoop_ends _ dec [] rfl (Nat.zero_lt_succ _) husual⟩

/-- A truncated file of bzip2 with the text `ab`: no number of calls is enough. -/
theorem reading_ends_bzip2 :
    ¬ ∃ fuel ok sum rd, (openCompressed .tBzDec ⟨[⟨9, lit "ab"⟩], .premature⟩ 0).getChecksum fuel =
      some (ok, sum, rd) := by
  rintro ⟨fuel, ok, sum, rd, h⟩
  rw [getChecksum_endless ⟨rfl, rfl⟩] at h
  exact absurd h (by simp)

end FileReader

end Acng
