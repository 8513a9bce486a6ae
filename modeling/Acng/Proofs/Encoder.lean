import Acng.Proofs.Chunked
import Acng.Proofs.Delivery

namespace Acng
open Lib

theorem hexVal_hexChar (n : Nat) (h : n < 16) : hexVal (hexChar n) = some n := by
  have hall : ∀ m : Fin 16, hexVal (hexChar m) = some m.val := by decide
  exact hall ⟨n, h⟩

/-- The digits of a number are read back as this number. -/
theorem hexAux_value (fuel n : Nat) (acc : Bytes) (h : n < fuel) :
    hexadecimal (hexAux fuel n acc) = acc.foldl (fun n d => 16 * n + (hexVal d).getD 0) n := by
  induction fuel generalizing n acc with
  | zero => omega
  | succ fuel ih =>
    have hmod : n % 16 < 16 := Nat.mod_lt n (by decide)
    unfold hexAux
    split
    · rename_i hz
      have hn : n % 16 = n := by omega
      rw [hexadecimal, List.foldl_cons, hexVal_hexChar _ hmod, Option.getD_some, hn, Nat.mul_zero,
        Nat.zero_add]
    · rw [ih (n / 16) _ (by omega)]
      simp only [List.foldl_cons, hexVal_hexChar _ hmod, Option.getD_some]
      congr 1
      omega

theorem hexAux_digits (fuel n : Nat) (acc : Bytes) (h : ∀ c ∈ acc, isxdigit c = true) :
    ∀ c ∈ hexAux fuel n acc, isxdigit c = true := by
  induction fuel generalizing n acc with
  | zero => exact h
  | succ fuel ih =>
    have hd : ∀ c ∈ hexChar (n % 16) :: acc, isxdigit c = true := by
      intro c hc
      rcases List.mem_cons.mp hc with rfl | hc
      · rw [isxdigit, hexVal_hexChar _ (Nat.mod_lt n (by decide))]
        rfl
      · exact h c hc
    unfold hexAux
    split
    · exact hd
    · exact ih _ _ hd

theorem hexAux_length (fuel n k : Nat) (acc : Bytes) (h : n < 16 ^ (k + 1)) :
    (hexAux fuel n acc).length ≤ acc.length + k + 1 := by
  induction fuel generalizing n k acc with
  | zero =>
    unfold hexAux
    omega
  | succ fuel ih =>
    unfold hexAux
    split
    · simp only [List.length_cons]
      omega
    · rename_i hz
      cases k with
      | zero => omega
      | succ k =>
        have hdiv : n / 16 < 16 ^ (k + 1) := by
          rw [Nat.div_lt_iff_lt_mul (by decide)]
          rw [Nat.pow_succ] at h
          exact h
        have := ih (n / 16) k (hexChar (n % 16) :: acc) hdiv
        simp only [List.length_cons] at this
        omega

theorem hexAux_ne (fuel n : Nat) (acc : Bytes) (h : 0 < fuel ∨ acc ≠ []) : hexAux fuel n acc ≠ [] := by
  induction fuel generalizing n acc with
  | zero =>
    rcases h with h | h
    · omega
    · exact h
  | succ fuel ih =>
    unfold hexAux
    split
    · simp
    · exact ih _ _ (.inr (by simp))

theorem hex_natCast (n : Nat) (h : n < 2 ^ 64) : hex n = hexAux (n + 1) n [] := by
  have he : ((n : Int) % 2 ^ 64).toNat = n := by omega
  rw [hex, he]

theorem hexadecimal_hex (n : Nat) (h : n < 2 ^ 64) : hexadecimal (hex n) = n := by
  rw [hex_natCast n h, hexAux_value _ _ _ (Nat.lt_succ_self n)]
  rfl

theorem hex_size (n : Nat) (h : n < 2 ^ 32) :
    hex n ≠ [] ∧ (∀ c ∈ hex n, isxdigit c = true) ∧ hexadecimal (hex n) < 2 ^ 63 := by
  rw [hexadecimal_hex n (by omega), hex_natCast n (by omega)]
  exact ⟨hexAux_ne _ _ _ (.inl (Nat.succ_pos n)), hexAux_digits _ _ _ (by simp), by omega⟩

/-- The size line for a piece of the file. -/
def sizeLineOf (n : Nat) (h : n < 2 ^ 32) : SizeLine := .plain (hex n) (hex_size n h)

theorem sizeLineOf_value (n : Nat) (h : n < 2 ^ 32) : (sizeLineOf n h).value = n :=
  hexadecimal_hex n (by omega)

/-- A piece of the file as one chunk. -/
def pieceChunk (p : Bytes) (hne : p ≠ []) (h : p.length < 2 ^ 32) : Chunk where
  toSizeLine := sizeLineOf p.length h
  data := p
  data_length := (sizeLineOf_value p.length h).symm
  data_ne := hne

def encodePiece (p : Bytes) : Bytes := hex p.length ++ crlf ++ p ++ crlf

theorem pieceChunk_encode (p : Bytes) (hne : p ≠ []) (h : p.length < 2 ^ 32) :
    (pieceChunk p hne h).encode = encodePiece p := by
  simp [Chunk.encode, SizeLine.encode, SizeLine.plain, pieceChunk, sizeLineOf, encodePiece]

/-- Pieces that make chunks the decoder can read. -/
def Pieces (ps : List Bytes) : Prop := ∀ p ∈ ps, p ≠ [] ∧ p.length < 2 ^ 32

theorem pieces_chunks (ps : List Bytes) (h : Pieces ps) :
    ∃ cs : List Chunk, cs.flatMap Chunk.encode = ps.flatMap encodePiece ∧
      cs.flatMap Chunk.data = ps.flatten ∧ ∀ c ∈ cs, c.toSizeLine.Readable := by
  induction ps with
  | nil => exact ⟨[], rfl, rfl, by simp⟩
  | cons p ps ih =>
    obtain ⟨hne, hlt⟩ := h p List.mem_cons_self
    obtain ⟨cs, he, hd, hr⟩ := ih (fun q hq => h q (List.mem_cons_of_mem p hq))
    refine ⟨pieceChunk p hne hlt :: cs, ?_, ?_, ?_⟩
    · rw [List.flatMap_cons, List.flatMap_cons, he, pieceChunk_encode]
    · rw [List.flatMap_cons, List.flatten_cons, hd]
      rfl
    · intro c hc
      rcases List.mem_cons.mp hc with rfl | hc
      · refine ⟨?_, by simp [pieceChunk, sizeLineOf, SizeLine.plain]⟩
        change (sizeLineOf p.length hlt).value < 2 ^ 32
        rw [sizeLineOf_value]
        exact hlt
      · exact hr c hc

/-- The pieces and the last chunk make a body that is decoded to the pieces. -/
theorem pieces_decoded (env : Env) (ps : List Bytes) (h : Pieces ps) :
    ∃ b : ChunkedBody, b.encode = ps.flatMap encodePiece ++ lit "0\r\n\r\n" ∧ b.data = ps.flatten ∧
      Decodes env b := by
  obtain ⟨cs, he, hd, hr⟩ := pieces_chunks ps h
  let b : ChunkedBody :=
    { chunks := cs, last := sizeLineOf 0 (by decide), trailers := []
      last_zero := sizeLineOf_value 0 (by decide), trailers_line := by simp }
  refine ⟨b, ?_, hd, decodes_of_readable env b ⟨hr, ⟨?_, by simp [b, sizeLineOf, SizeLine.plain]⟩, by simp [b]⟩⟩
  · change cs.flatMap Chunk.encode ++ (sizeLineOf 0 (by decide)).encode ++ ChunkedBody.encodeTrailers [] = _
    rw [he, List.append_assoc]
    rfl
  · change (sizeLineOf 0 (by decide)).value < 2 ^ 32
    rw [sizeLineOf_value]
    decide

namespace ClientJob

/-- Nothing fails in this call, and the size that is seen in front of a chunk has grown by less
than 2^32, or it is that of the whole file. -/
structure Grows (file : Bytes) (j : ClientJob) (io : SendIo) : Prop where
  sent : ∃ r, io.sent = some r
  data : ∃ n, io.data = some n
  opened : io.opened = true
  seen : j.activity = .sendChunkHeader → ∃ fistate size, j.awaitSendableState io.seen = some (fistate, size) ∧
    ((fistate = .complete ∧ size = file.length) ∨
      (fistate ≠ .complete ∧ j.nSendPos < size ∧ size ≤ file.length)) ∧
    size < j.nSendPos + 2 ^ 32

/-- Where a job stands in a chunked answer: what was sent and what is in its buffer are the
chunks for the pieces of the file that are complete, and a part of the next one. -/
inductive Chunking (file front : Bytes) (j : ClientJob) (out : Bytes) : Prop
  | header (ps : List Bytes) (pos : Nat) (ha : j.activity = .sendChunkHeader) (hp : Pieces ps)
      (hpos : j.nSendPos = pos) (hle : pos ≤ file.length) (hps : ps.flatten = file.take pos)
      (hout : out ++ j.sendbuf = front ++ ps.flatMap encodePiece)
  | data (ps : List Bytes) (start pos stop : Nat) (ha : j.activity = .sendChunkData) (hp : Pieces ps)
      (hfd : j.filefd = true) (hpos : j.nSendPos = pos) (hstop : j.nChunkEnd = stop)
      (hstart : start ≤ pos) (hlt : pos < stop) (hle : stop ≤ file.length)
      (hsmall : stop - start < 2 ^ 32) (hps : ps.flatten = file.take start)
      (hout : out ++ j.sendbuf = front ++ ps.flatMap encodePiece ++ hex (stop - start : Nat) ++ crlf ++
        (file.drop start).take (pos - start))
  | done (ps : List Bytes) (ha : j.activity = .done) (hp : Pieces ps) (hps : ps.flatten = file)
      (hout : out ++ j.sendbuf = front ++ ps.flatMap encodePiece ++ lit "0\r\n\r\n")

/-- Bounds the calls that are left with an empty buffer if the socket always takes something. -/
def callsLeft (file : Bytes) (j : ClientJob) : Nat :=
  12 * match j.activity with
    | .sendChunkHeader => 2 * (file.length - j.nSendPos.toNat) + 2
    | .sendChunkData => 2 * (file.length - j.nSendPos.toNat) + 1
    | _ => 0

/-- The end of a chunk closes a piece. -/
theorem close_piece (file front out : Bytes) (ps : List Bytes) (start stop : Nat) (hlt : start < stop)
    (hle : stop ≤ file.length) (hsmall : stop - start < 2 ^ 32) (hp : Pieces ps)
    (hps : ps.flatten = file.take start)
    (hout : out = front ++ ps.flatMap encodePiece ++ hex (stop - start : Nat) ++ crlf ++
      (file.drop start).take (stop - start)) :
    ∃ qs, Pieces qs ∧ qs.flatten = file.take stop ∧ out ++ crlf = front ++ qs.flatMap encodePiece := by
  have hlen : ((file.drop start).take (stop - start)).length = stop - start := by
    rw [List.length_take, List.length_drop]
    omega
  refine ⟨ps ++ [(file.drop start).take (stop - start)], ?_, ?_, ?_⟩
  · intro p hmem
    rcases List.mem_append.mp hmem with hmem | hmem
    · exact hp p hmem
    · rw [List.mem_singleton.mp hmem]
      refine ⟨List.ne_nil_of_length_pos (by omega), by omega⟩
  · rw [List.flatten_append, hps, List.flatten_singleton]
    have := take_append_next file 0 start (stop - start) (Nat.zero_le _)
    simp only [List.drop_zero, Nat.sub_zero] at this
    rw [this]
    congr 1
    omega
  · rw [List.flatMap_append, List.flatMap_singleton, encodePiece, hlen, hout]
    simp [List.append_assoc]

theorem hex_length (n : Nat) (h : n < 2 ^ 32) : (hex n).length ≤ 8 := by
  rw [hex_natCast n (by omega)]
  exact hexAux_length (n + 1) n 7 [] (by norm_num; omega)

/-- Everything was sent: the chunks of all pieces and the last chunk. -/
def AllSent (file front out : Bytes) : Prop :=
  ∃ ps, Pieces ps ∧ ps.flatten = file ∧ out = front ++ ps.flatMap encodePiece ++ lit "0\r\n\r\n"

/-- A call with an empty buffer goes on with the chunks, and comes nearer to their end. -/
def GoesOn (env : CookEnv) (file front : Bytes) (j : ClientJob) (out : Bytes) (io : SendIo) : Prop :=
  ∃ j' out', j.perform env file io = (j', .again, out') ∧ Chunking file front j' (out ++ out') ∧
    (Moves io → j'.sendbuf.length + j'.callsLeft file < j.callsLeft file)

/-- In front of a chunk the file is at its end, or a further part of it has become known. -/
theorem Grows.next {file : Bytes} {j : ClientJob} {io : SendIo} {pos : Nat} (hg : j.Grows file io)
    (ha : j.activity = .sendChunkHeader) (hpos : j.nSendPos = pos) (hle : pos ≤ file.length) :
    (j.awaitSendableState io.seen = some (.complete, j.nSendPos) ∧ pos = file.length) ∨
      ∃ (fistate : FiStatus) (stop : Nat), j.awaitSendableState io.seen = some (fistate, (stop : Int)) ∧
        pos < stop ∧ stop ≤ file.length ∧ stop - pos < 2 ^ 32 := by
  obtain ⟨fistate, size, hs, hcase, hsmall⟩ := hg.seen ha
  rcases hcase with ⟨rfl, hsz⟩ | ⟨-, hlt, hle'⟩
  · rcases Nat.lt_or_eq_of_le hle with hlt | heq
    · exact .inr ⟨.complete, file.length, hsz ▸ hs, hlt, le_refl _, by omega⟩
    · refine .inl ⟨?_, heq⟩
      rw [hs, hsz, hpos, heq]
  · obtain ⟨stop, rfl⟩ := Int.eq_ofNat_of_zero_le (by omega : 0 ≤ size)
    exact .inr ⟨fistate, stop, hs, by omega, by omega, by omega⟩

theorem perform_chunkHeader (env : CookEnv) (file front : Bytes) (j : ClientJob) (out : Bytes) (io : SendIo)
    (ps : List Bytes) (pos : Nat) (ha : j.activity = .sendChunkHeader) (hp : Pieces ps)
    (hpos : j.nSendPos = pos) (hle : pos ≤ file.length) (hps : ps.flatten = file.take pos)
    (hout : out = front ++ ps.flatMap encodePiece) (hg : j.Grows file io) : j.GoesOn env file front out io := by
  have hcalls : j.callsLeft file = 12 * (2 * (file.length - pos) + 2) := by
    simp only [callsLeft, ha, hpos, Int.toNat_natCast]
  rcases hg.next ha hpos hle with ⟨hs, hfull⟩ | ⟨fistate, stop, hs, hlt, hstop, hsmall⟩
  · refine ⟨{ j with sendbuf := lit "0\r\n\r\n", activity := .done }, [], ?_, ?_, ?_⟩
    · simp [perform, ha, sendChunkHeader, hs]
    · refine .done ps rfl hp (by rw [hps, hfull, List.take_length]) ?_
      simp [hout]
    · intro _
      rw [hcalls]
      simp only [callsLeft]
      have : (lit "0\r\n\r\n").length = 5 := by decide
      omega
  · have hdiff : (stop : Int) - j.nSendPos = ((stop - pos : Nat) : Int) := by omega
    have hno : decide (j.nSendPos = (stop : Int)) = false := by
      rw [decide_eq_false_iff_not]
      omega
    refine ⟨{ j with
      filefd := true, nChunkEnd := stop, activity := .sendChunkData
      sendbuf := hex ((stop : Int) - j.nSendPos) ++ crlf }, [], ?_, ?_, ?_⟩
    · simp only [perform, ha, sendChunkHeader, hs, hno, hg.opened, Bool.and_false]
      rfl
    · refine .data ps pos pos stop rfl hp rfl hpos rfl (le_refl _) hlt hstop hsmall hps ?_
      simp [hout, hdiff]
    · intro _
      have hlen := hex_length (stop - pos) hsmall
      rw [hcalls, hdiff]
      simp only [callsLeft, List.length_append, hpos, Int.toNat_natCast]
      have : crlf.length = 2 := rfl
      omega

theorem perform_chunkData (env : CookEnv) (file front : Bytes) (j : ClientJob) (out : Bytes) (io : SendIo)
    (ps : List Bytes) (start pos stop : Nat) (ha : j.activity = .sendChunkData) (hb : j.sendbuf = [])
    (hp : Pieces ps) (hfd : j.filefd = true) (hpos : j.nSendPos = pos) (hstop : j.nChunkEnd = stop)
    (hstart : start ≤ pos) (hlt : pos < stop) (hle : stop ≤ file.length) (hsmall : stop - start < 2 ^ 32)
    (hps : ps.flatten = file.take start)
    (hout : out = front ++ ps.flatMap encodePiece ++ hex (stop - start : Nat) ++ crlf ++
      (file.drop start).take (pos - start)) (hg : j.Grows file io) : j.GoesOn env file front out io := by
  obtain ⟨n, hn⟩ := hg.data
  have hsend := sendFile_out file j n pos stop hpos (by omega) hle
  have hcalls : j.callsLeft file = 12 * (2 * (file.length - pos) + 1) := by
    simp only [callsLeft, ha, hpos, Int.toNat_natCast]
  have hmore : out ++ (file.drop pos).take (min n (stop - pos)) =
      front ++ ps.flatMap encodePiece ++ hex (stop - start : Nat) ++ crlf ++
        (file.drop start).take (pos + min n (stop - pos) - start) := by
    rw [hout, List.append_assoc, take_append_next file start pos _ hstart]
  have hper : j.perform env file io = j.sendChunkData env file io := by simp [perform, ha]
  unfold GoesOn
  simp only [hper, sendChunkData, hfd, if_true, hn, hstop, hsend]
  by_cases hfin : pos + min n (stop - pos) = stop
  · rw [if_pos (by rw [hfin])]
    refine ⟨_, _, rfl, ?_, ?_⟩
    · rw [hfin] at hmore
      obtain ⟨qs, hq, hqs, hqo⟩ :=
        close_piece file front _ ps start stop (by omega) hle hsmall hp hps hmore
      exact .header qs stop rfl hq (by rw [hfin]) hle hqs hqo
    · intro hm
      rw [hcalls]
      simp only [callsLeft, hfin, Int.toNat_natCast]
      have : crlf.length = 2 := rfl
      omega
  · rw [if_neg (by omega)]
    refine ⟨_, _, rfl, ?_, ?_⟩
    · refine .data ps start (pos + min n (stop - pos)) stop ha hp rfl rfl rfl (by omega) (by omega) hle
        hsmall hps ?_
      simpa [hb] using hmore
    · intro hm
      have hpos' : n ≠ 0 := by
        rintro rfl
        exact hm.2 hn
      rw [hcalls]
      simp only [callsLeft, hb, ha, List.length_nil, Int.toNat_natCast]
      omega

/-- What a call does with an empty buffer: it goes on with the chunks, or all was sent. -/
theorem perform_chunking (env : CookEnv) (file front : Bytes) (j : ClientJob) (out : Bytes) (io : SendIo)
    (h : Chunking file front j out) (hb : j.sendbuf = []) (hg : j.Grows file io) :
    j.GoesOn env file front out io ∨
    ((j.perform env file io).2.1 ≠ .again ∧ AllSent file front (out ++ (j.perform env file io).2.2)) := by
  cases h with
  | header ps pos ha hp hpos hle hps hout =>
    rw [hb, List.append_nil] at hout
    exact .inl (perform_chunkHeader env file front j out io ps pos ha hp hpos hle hps hout hg)
  | data ps start pos stop ha hp hfd hpos hstop hstart hlt hle hsmall hps hout =>
    rw [hb, List.append_nil] at hout
    exact .inl (perform_chunkData env file front j out io ps start pos stop ha hb hp hfd hpos hstop hstart
      hlt hle hsmall hps hout hg)
  | done ps ha hp hps hout =>
    right
    have hper : j.perform env file io = (j.returnStreamOk.1, j.returnStreamOk.2, []) := by
      simp only [perform, ha]
    rw [hper]
    refine ⟨returnStreamOk_ends j, ps, hp, hps, ?_⟩
    simpa [hb] using hout

/-- A part of the buffer that was sent is still the same output. -/
theorem Chunking.flush {file front out : Bytes} {j : ClientJob} (h : Chunking file front j out) (r : Nat) :
    Chunking file front (j.flushed r) (out ++ j.sendbuf.take r) := by
  have hsame : out ++ j.sendbuf.take r ++ (j.flushed r).sendbuf = out ++ j.sendbuf := by
    rw [flushed, List.append_assoc, List.take_append_drop]
  cases h with
  | header ps pos ha hp hpos hle hps hout =>
    exact .header ps pos ha hp hpos hle hps (hsame.trans hout)
  | data ps start pos stop ha hp hfd hpos hstop hstart hlt hle hsmall hps hout =>
    exact .data ps start pos stop ha hp hfd hpos hstop hstart hlt hle hsmall hps (hsame.trans hout)
  | done ps ha hp hps hout => exact .done ps ha hp hps (hsame.trans hout)

theorem chunking_delivery (env : CookEnv) (file front : Bytes) :
    Delivery env file (Grows file) (Chunking file front) (AllSent file front) (callsLeft file) where
  sent := fun hg => hg.sent
  given := fun r hg => ⟨hg.sent, hg.data, hg.opened, fun ha => by
    rw [await_flushed]
    exact hg.seen ha⟩
  flush := fun r h => h.flush r
  rank_flushed := fun _ _ => rfl
  perform := fun h hb hg => perform_chunking env file front _ _ _ h hb hg

/-- Only the branch for unknown lengths selects chunks, and it starts at the beginning. -/
theorem cook_chunked (env : CookEnv) (j : ClientJob) (fi : FileItem)
    (h : (j.cookResponseHeader env (some (fi, []))).activity = .sendChunkHeader) :
    (j.cookResponseHeader env (some (fi, []))).nSendPos = j.nSendPos := by
  simp only [cookResponseHeader, List.isEmpty_nil, Bool.not_true, Bool.false_eq_true, if_false] at h ⊢
  split at h
  · cases h
  · split at h
    · cases h
    · split at h
      · cases h
      · split at h
        · rename_i h1 h2 h3 h4
          simp [h1, h2, h3, h4]
        · split at h
          · cases h
          · split at h <;> cases h

/-- For every content and growth of the file and all partial sends, the bytes behind the head
are decoded to exactly the file, in whatever pieces they arrive. -/
theorem own_chunks_decoded (env : Env) (cenv : CookEnv) (file : Bytes) (j0 : ClientJob) (fi : FileItem)
    (h0 : j0.nSendPos = 0)
    (hc : (j0.cookResponseHeader cenv (some (fi, []))).activity = .sendChunkHeader) (ios : List SendIo)
    (hg : (j0.cookResponseHeader cenv (some (fi, []))).Along cenv file (Grows file) ios) :
    (((j0.cookResponseHeader cenv (some (fi, []))).deliver cenv file ios).2.1 ≠ .again →
      ∃ body, ((j0.cookResponseHeader cenv (some (fi, []))).deliver cenv file ios).2.2 =
          (j0.cookResponseHeader cenv (some (fi, []))).sendbuf ++ body ∧
        ∀ (d : Dl) (reads : List Bytes), d.job.dlState = .getChunkHead →
          d.job.bAllowStoreData = true → d.fi.Ready → d.buf = [] → reads.flatten = body →
          ∃ d' unread, d.feed env {} reads = (d', some HINT_DONE, unread) ∧
            d'.fi = (d.fi.receive true file).dlFinish false ∧ d'.buf = [] ∧ unread.flatten = []) ∧
      ((∀ io ∈ ios, Moves io) →
        (j0.cookResponseHeader cenv (some (fi, []))).sendbuf.length +
          (j0.cookResponseHeader cenv (some (fi, []))).callsLeft file < ios.length →
        ((j0.cookResponseHeader cenv (some (fi, []))).deliver cenv file ios).2.1 ≠ .again) := by
  have hpos := (cook_chunked cenv j0 fi hc).trans h0
  generalize j0.cookResponseHeader cenv (some (fi, [])) = j at hc hg hpos
  have hstart : Chunking file j.sendbuf j [] :=
    .header [] 0 hc (by simp [Pieces]) hpos (Nat.zero_le _) rfl (by simp)
  obtain ⟨-, hall, hend⟩ := (chunking_delivery cenv file j.sendbuf).run ios hstart hg
  refine ⟨fun hres => ?_, hend⟩
  obtain ⟨ps, hp, hps, hout⟩ := hall hres
  obtain ⟨b, hb, hdata, hdec⟩ := pieces_decoded env ps hp
  refine ⟨b.encode, by rw [hb, ← List.append_assoc]; exact hout, ?_⟩
  intro d reads hst ha hready hbuf hreads
  obtain ⟨d', unread, hf, hfi, hrest⟩ := hdec d [] reads hst ha hready hbuf (by simpa using hreads)
  rw [hdata, hps] at hfi
  obtain ⟨h1, h2⟩ := List.append_eq_nil_iff.mp hrest
  exact ⟨d', unread, hf, hfi, h1, h2⟩

/-- Three bytes that become known in two steps, sent one or two at a time. -/
def growing : List SendIo :=
  [{ sent := some 1000, data := some 0, seen := [(.dlReceiving, 0), (.dlReceiving, 2)] },
    { sent := some 1000, data := some 1 }, { sent := some 1000, data := some 9 },
    { sent := some 1000, data := some 1, seen := [(.complete, 3)] },
    { sent := some 1000, data := some 1 },
    { sent := some 1000, data := some 1, seen := [(.complete, 3)] },
    { sent := some 1000, data := some 1 }]

theorem own_chunks_decoded_abc :
    let j := ({} : ClientJob).cookResponseHeader { dates := plainEnv.dates }
      (some ({ status := .dlReceiving, responseStatus := ⟨200, lit "OK"⟩ }, []))
    ∃ body, (j.deliver { dates := plainEnv.dates } (lit "abc") growing).2.2 = j.sendbuf ++ body ∧
      ∀ (d : Dl) (reads : List Bytes), d.job.dlState = .getChunkHead →
        d.job.bAllowStoreData = true → d.fi.Ready → d.buf = [] → reads.flatten = body →
        ∃ d' unread, d.feed plainEnv {} reads = (d', some HINT_DONE, unread) ∧
          d'.fi = (d.fi.receive true (lit "abc")).dlFinish false ∧ d'.buf = [] ∧ unread.flatten = [] := by
  refine (own_chunks_decoded plainEnv { dates := plainEnv.dates } (lit "abc") {}
    { status := .dlReceiving, responseStatus := ⟨200, lit "OK"⟩ } rfl (by decide) growing ?_).1
    (by decide)
  refine ⟨⟨⟨_, rfl⟩, ⟨_, rfl⟩, rfl, fun _ => ⟨.dlReceiving, 2, by decide, .inr (by decide),
    by decide⟩⟩, fun _ => ?_⟩
  refine ⟨⟨⟨_, rfl⟩, ⟨_, rfl⟩, rfl, fun h => absurd h (by decide)⟩, fun _ => ?_⟩
  refine ⟨⟨⟨_, rfl⟩, ⟨_, rfl⟩, rfl, fun h => absurd h (by decide)⟩, fun _ => ?_⟩
  refine ⟨⟨⟨_, rfl⟩, ⟨_, rfl⟩, rfl, fun _ => ⟨.complete, 3, by decide, .inl (by decide),
    by decide⟩⟩, fun _ => ?_⟩
  refine ⟨⟨⟨_, rfl⟩, ⟨_, rfl⟩, rfl, fun h => absurd h (by decide)⟩, fun _ => ?_⟩
  refine ⟨⟨⟨_, rfl⟩, ⟨_, rfl⟩, rfl, fun _ => ⟨.complete, 3, by decide, .inl (by decide),
    by decide⟩⟩, fun _ => ?_⟩
  refine ⟨⟨⟨_, rfl⟩, ⟨_, rfl⟩, rfl, fun h => absurd h (by decide)⟩, fun _ => ?_⟩
  trivial

end ClientJob

end Acng
