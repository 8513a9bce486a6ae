import Acng.Proofs.Framing

namespace Acng
open Lib

/-- The decoder takes this body as the grammar means it: whatever follows and in
whatever pieces it arrives, the item gets exactly the chunk data, the job is
finished, and exactly what follows is left over. -/
def Decodes (env : Env) (b : ChunkedBody) : Prop :=
  ∀ (d : Dl) (rest : Bytes) (reads : List Bytes),
    d.job.dlState = .getChunkHead → d.job.bAllowStoreData = true → d.fi.Ready → d.buf = [] →
    reads.flatten = b.encode ++ rest →
    ∃ d' unread, d.feed env {} reads = (d', some HINT_DONE, unread) ∧
      d'.fi = (d.fi.receive true b.data).dlFinish false ∧ d'.buf ++ unread.flatten = rest

/-- Two bodies that differ in their data octets only. -/
def SameLines (b b' : ChunkedBody) : Prop :=
  b'.chunks.map Chunk.toSizeLine = b.chunks.map Chunk.toSizeLine ∧ b'.last = b.last ∧
    b'.trailers = b.trailers

theorem ChunkedBody.readable_iff (b : ChunkedBody) :
    b.Readable ↔ (∀ l ∈ b.chunks.map Chunk.toSizeLine, l.Readable) ∧ b.last.Readable ∧
      ∀ t ∈ b.trailers, 0 ∉ t := by
  simp [ChunkedBody.Readable]

theorem SameLines.readable (b b' : ChunkedBody) (h : SameLines b b') (hb : b.Readable) :
    b'.Readable := by
  rw [ChunkedBody.readable_iff] at hb ⊢
  rw [h.1, h.2.1, h.2.2]
  exact hb

theorem ChunkedBody.encode_ne (b : ChunkedBody) : b.encode ≠ [] := by
  simp [ChunkedBody.encode, ChunkedBody.encodeTrailers, crlf]

theorem decodes_of_readable (env : Env) (b : ChunkedBody) (hb : b.Readable) : Decodes env b := by
  intro d rest reads hst ha hfi hbuf hreads
  have hr : Dl.Remaining d.job.dlState d.job.nRest (d.buf ++ reads.flatten) b.data rest := by
    rw [hst, hbuf, hreads]
    exact .chunkHead d.job.nRest [] b rest (.inl rfl) hb
  have hne : reads ≠ [] := by
    rintro rfl
    exact b.encode_ne (List.append_eq_nil_iff.mp hreads.symm).1
  obtain ⟨d', unread, hf, -, hrest, hfin⟩ :=
    Dl.feed_follows env d d b.data rest reads (fun _ => hfi) (Dl.Midway.start d _ _ _ hr) hne
  rw [ha] at hfin
  exact ⟨d', unread, hf, hfin, hrest⟩

namespace Dl

/-- The call does not finish the job with this amount of data stored. -/
def Misses (env : Env) (d : Dl) (total : Nat) : Prop :=
  (d.processIncomming env {} false).2 = HINT_DONE →
    (d.processIncomming env {} false).1.fi.nIncommingCount ≠ d.fi.nIncommingCount + total

theorem misses_return (env : Env) (d d' : Dl) (res total : Nat)
    (hs : d.procStep env {} false = (d', some res)) (hne : res ≠ HINT_DONE) : Misses env d total := by
  intro h
  rw [processIncomming_eq, hs] at h
  exact absurd h hne

theorem misses_step (env : Env) (d d' : Dl) (total total' : Nat)
    (hs : d.procStep env {} false = (d', none))
    (hk : d'.fi.nIncommingCount + total' = d.fi.nIncommingCount + total)
    (h : Misses env d' total') : Misses env d total := by
  intro hres
  rw [processIncomming_eq, hs] at hres ⊢
  rw [← hk]
  exact h hres

theorem procStep_chunkHead (env : Env) (d : Dl) (hst : d.job.dlState = .getChunkHead) :
    d.procStep env {} false = d.procChunkHead := by
  simp only [procStep, hst]

/-- No data is stored any more once the last chunk was seen. -/
theorem trailer_incomming (env : Env) (d : Dl)
    (hst : d.job.dlState = .getChunkTrailer) :
    (d.processIncomming env {} false).1.fi.nIncommingCount = d.fi.nIncommingCount := by
  refine processIncomming_rule env {} false
    (fun e => (e.job.dlState = .getChunkTrailer ∨ e.job.dlState = .finishJob) ∧
      e.fi.nIncommingCount = d.fi.nIncommingCount)
    (fun e _ => e.fi.nIncommingCount = d.fi.nIncommingCount) ?_ ?_ d ⟨.inl hst, rfl⟩
  · rintro e e' res ⟨hs | hs, hn⟩ hstep
    · simp only [procStep, hs, procTrailer] at hstep
      split at hstep
      · cases hstep; exact hn
      · split at hstep <;> cases hstep
        exact hn
    · simp only [procStep, hs] at hstep
      cases hstep
      obtain ⟨status, len, head, hf⟩ := FileItem.dlFinish_frame e.fi false .stored
      simp only [hf, hn]
  · rintro e e' ⟨hs | hs, hn⟩ hstep
    · simp only [procStep, hs, procTrailer] at hstep
      split at hstep
      · cases hstep
      · split at hstep <;> cases hstep
        · exact ⟨.inr rfl, hn⟩
        · exact ⟨.inl hs, hn⟩
    · simp [procStep, hs] at hstep

theorem find_nul (line t : Bytes) (h0 : 0 ∈ line) (h10 : 10 ∉ line) :
    find crlf (cstr (line ++ t)) = none := by
  rw [cstr_append_nul line t h0]
  refine find_none_of_notMem 10 crlf _ (by simp [crlf]) ?_
  intro h
  exact h10 ((cstr_take line).subset h)

theorem dropWhile_sizeLine (sep : Bytes) (l : SizeLine) (t : Bytes) (hs : IsSep sep) :
    (sep ++ (l.encode ++ t)).dropWhile (fun c => c == 13 || c == 10) = l.encode ++ t := by
  obtain ⟨x, u, hxu, hx⟩ := l.first_digit t
  rw [hxu, List.dropWhile_append_of_pos (IsSep.newlines sep hs)]
  simp only [List.dropWhile_cons, hx, Bool.false_eq_true, if_false]

theorem misses_nul_line (env : Env) (d : Dl) (sep : Bytes) (l : SizeLine) (t : Bytes) (total : Nat)
    (hst : d.job.dlState = .getChunkHead) (hs : IsSep sep) (h0 : 0 ∈ l.ext)
    (hb : d.buf = sep ++ (l.encode ++ t)) : Misses env d total := by
  have hd := dropWhile_sizeLine sep l t hs
  rw [← hb] at hd
  have hf : find crlf (cstr (l.encode ++ t)) = none := by
    have h10 : 10 ∉ l.size ++ l.ext := by
      have hx : (10 : UInt8) ∉ l.size := fun hc =>
        (isxdigit_graph 10 (l.size_hex 10 hc)).2.2.2.2.2.1 rfl
      simp [hx, l.ext_line.2]
    have := find_nul (l.size ++ l.ext) (crlf ++ t) (List.mem_append_right _ h0) h10
    simpa [SizeLine.encode] using this
  refine misses_return env d { d with buf := l.encode ++ t } HINT_MORE total ?_ (by decide)
  rw [procStep_chunkHead env d hst]
  exact procChunkHead_more d _ hd hf

theorem misses_nul_trailer (env : Env) (d : Dl) (ts : List Bytes) (total : Nat)
    (hst : d.job.dlState = .getChunkTrailer) (h0 : ∃ t ∈ ts, 0 ∈ t)
    (hl : ∀ t ∈ ts, t ≠ [] ∧ 13 ∉ t ∧ 10 ∉ t)
    (hb : d.buf = ChunkedBody.encodeTrailers ts) : Misses env d total := by
  induction ts generalizing d with
  | nil => simp at h0
  | cons t ts ih =>
    obtain ⟨hne, h13, h10⟩ := hl t (by simp)
    have hbuf : d.buf = t ++ (crlf ++ ChunkedBody.encodeTrailers ts) := by
      simpa [ChunkedBody.encodeTrailers] using hb
    have hlen : ¬ d.buf.length < 2 := by
      simp [hbuf, crlf]
      omega
    by_cases hz : 0 ∈ t
    · have hf : find crlf (cstr d.buf) = none := by
        rw [hbuf]
        exact find_nul t _ hz h10
      refine misses_return env d d HINT_MORE total ?_ (by decide)
      simp [procStep, hst, procTrailer, hlen, hf]
    · have ht : d.buf ++ [] = t ++ crlf ++ ChunkedBody.encodeTrailers ts := by simp [hbuf]
      rcases find_line t d.buf [] _ hz h13 h10 ht with ⟨-, hu⟩ | ⟨hf, more, hm, hr⟩
      · exact absurd rfl hu
      · obtain ⟨k, hk⟩ := Nat.exists_eq_succ_of_ne_zero
          (Nat.ne_of_gt (List.length_pos_iff.mpr hne))
        have hd : d.buf.drop (k + 1 + 2) = more := hm ▸ drop_line more hk
        refine misses_step env d { d with buf := more } total total ?_ rfl ?_
        · simp [procStep, hst, procTrailer, hlen, hf, hk, hd]
        · refine ih { d with buf := more } hst ?_ (fun s hs => hl s (List.mem_cons_of_mem _ hs))
            (by simpa using hr)
          obtain ⟨s, hs, hs0⟩ := h0
          rcases List.mem_cons.mp hs with rfl | hs
          · exact absurd hs0 hz
          · exact ⟨s, hs, hs0⟩

/-- Data in which no chunk-size line can be found. -/
def fill (n : Nat) : Bytes := List.replicate n 122

theorem receive_incomming (fi : FileItem) (data : Bytes) (h : fi.Ready) :
    (fi.receive true data).nIncommingCount = fi.nIncommingCount + data.length := by
  unfold FileItem.receive
  by_cases hn : data = []
  · simp [hn]
  · obtain ⟨f, pos, -, hp, -⟩ := FileItem.ensureOpen_file fi h
    rw [if_pos ⟨rfl, hn⟩, FileItem.dlAddData_ready fi data h pos hp]

theorem scanHex_fill (n : Nat) (t : Bytes) (hn : 0 < n) : scanHex (fill n ++ t) = none := by
  obtain ⟨n, rfl⟩ := Nat.exists_eq_succ_of_ne_zero (Nat.ne_of_gt hn)
  have hc : cstr (fill (n + 1) ++ t) = 122 :: cstr (fill n ++ t) := by
    simp [fill, List.replicate_succ, cstr]
  unfold scanHex
  rw [Nat.succ_eq_add_one, hc]
  rfl

/-- The first bytes of a block of filler data. -/
theorem toStore_fill (d : Dl) (n : Nat) (t : Bytes) (hn : d.job.nRest ≤ n)
    (hb : d.buf = fill n ++ t) :
    d.toStore = fill d.job.nRest ∧ d.buf.drop d.toStore.length = fill (n - d.job.nRest) ++ t := by
  have hmin : min d.buf.length d.job.nRest = d.job.nRest := by
    simp [hb, fill]
    omega
  have hs : d.toStore = fill d.job.nRest := by
    rw [toStore, hmin, hb]
    simp [fill, List.take_append, Nat.min_eq_left hn, Nat.sub_eq_zero_of_le hn]
  refine ⟨hs, ?_⟩
  rw [hs, hb]
  simp [fill, List.drop_append, Nat.sub_eq_zero_of_le hn]

/-- A chunk that is in the buffer is stored as a whole, and the next size line is expected. -/
theorem misses_data (env : Env) (d : Dl) (total : Nat) (hst : d.job.dlState = .processChunkData)
    (ha : d.job.bAllowStoreData = true) (hfi : d.fi.Ready) (hlen : d.toStore.length = d.job.nRest)
    (h : ∀ d', d'.job.dlState = .getChunkHead → d'.job.bAllowStoreData = true → d'.fi.Ready →
      d'.buf = d.buf.drop d.toStore.length → Misses env d' total) : Misses env d (d.job.nRest + total) := by
  have hho := handOver_ready d (fun _ => hfi)
  rw [ha] at hho
  rcases procData_cases {} d with ⟨hf, -⟩ | ⟨-, hlt, -⟩ | ⟨-, -, hdata⟩
  · simp [hho] at hf
  · exact absurd hlen (Nat.ne_of_lt hlt)
  · have hstep : d.procStep env {} false = d.procData {} := by simp only [procStep, hst]
    have hnext : (if d.job.dlState = .processData then .finishJob else .getChunkHead) = StreamState.getChunkHead := by
      simp [hst]
    refine misses_step env d _ _ total (hstep.trans hdata) ?_ (h _ hnext ha ?_ rfl)
    · simp only [hho]
      rw [receive_incomming d.fi _ hfi, hlen]
      omega
    · simp only [hho]
      exact FileItem.receive_ready _ d.fi _ (fun _ => hfi) rfl

/-- Filler data is no size line. -/
theorem misses_fill (env : Env) (d : Dl) (n : Nat) (t : Bytes) (total : Nat) (hst : d.job.dlState = .getChunkHead)
    (hn : 0 < n) (hb : d.buf = fill n ++ (crlf ++ t)) : Misses env d total := by
  have hdw : d.buf.dropWhile (fun c => c == 13 || c == 10) = d.buf := by
    obtain ⟨n, rfl⟩ := Nat.exists_eq_succ_of_ne_zero (Nat.ne_of_gt hn)
    rw [hb]
    simp [fill, List.replicate_succ]
  have hf : find crlf (cstr d.buf) = some (fill n).length := by
    have hnul : 0 ∉ fill n ++ crlf := by simp [fill, crlf]
    rw [hb, ← List.append_assoc, cstr_append _ _ hnul]
    exact find_of_notMem 13 [10] _ (cstr t) (by simp [fill])
  have hsc : scanHex d.buf = none := by
    rw [hb]
    exact scanHex_fill n _ hn
  exact misses_return env d _ _ total
    ((procStep_chunkHead env d hst).trans (procChunkHead_bad d _ hdw hf hsc)) (by decide)

/-- A size cut down to 32 bits leaves data behind, which is no size line. -/
theorem misses_big_chunk (env : Env) (d : Dl) (sep : Bytes) (l : SizeLine) (t : Bytes) (total : Nat)
    (hst : d.job.dlState = .getChunkHead) (ha : d.job.bAllowStoreData = true) (hfi : d.fi.Ready)
    (hs : IsSep sep) (h0 : 0 ∉ l.ext) (hbig : 2 ^ 32 ≤ l.value) (htot : l.value ≤ total)
    (hb : d.buf = sep ++ (l.encode ++ (fill l.value ++ crlf ++ t))) : Misses env d total := by
  rcases procChunkHead_line d [] sep l _ hs h0 (by simpa using hb) with ⟨hu, -⟩ | ⟨buf', hb', heq⟩
  · exact absurd rfl hu
  · rw [List.append_nil] at hb'
    have hlt : l.value % 2 ^ 32 < 2 ^ 32 := Nat.mod_lt _ (by decide)
    by_cases hz : 0 < l.value % 2 ^ 32
    · rw [if_pos hz] at heq
      let d1 : Dl := { d with
        buf := buf', job := { d.job with nRest := l.value % 2 ^ 32, dlState := .processChunkData } }
      have hd1 : d.procStep env {} false = (d1, none) := (procStep_chunkHead env d hst).trans heq
      obtain ⟨hts, hdrop⟩ := toStore_fill d1 l.value (crlf ++ t) (by simp only [d1]; omega)
        (by simp [d1, hb'])
      have hlen : d1.toStore.length = d1.job.nRest := by simp [hts, fill]
      have hsum : total = d1.job.nRest + (total - l.value % 2 ^ 32) := by
        simp only [d1]
        omega
      refine misses_step env d d1 total total hd1 rfl ?_
      rw [hsum]
      refine misses_data env d1 _ rfl ha hfi hlen (fun d2 hst2 _ _ hbuf2 => ?_)
      refine misses_fill env d2 (l.value - l.value % 2 ^ 32) t _ hst2 (by omega) ?_
      rw [hbuf2, hdrop]
    · rw [if_neg hz] at heq
      refine misses_step env d _ total total ((procStep_chunkHead env d hst).trans heq) rfl ?_
      intro _
      rw [trailer_incomming _ _ rfl]
      have : 0 < total := by omega
      omega

/-- A body with filler data that has an unreadable line is not decoded. -/
theorem misses_body (env : Env) (d : Dl) (sep : Bytes) (b : ChunkedBody)
    (hfill : ∀ c ∈ b.chunks, c.data = fill c.toSizeLine.value) (hb : ¬ b.Readable)
    (hst : d.job.dlState = .getChunkHead) (ha : d.job.bAllowStoreData = true) (hfi : d.fi.Ready)
    (hs : IsSep sep) (hbuf : d.buf = sep ++ b.encode) : Misses env d b.data.length := by
  obtain ⟨chunks, last, trailers, hz, htr⟩ := b
  induction chunks generalizing d sep with
  | nil =>
    have he : d.buf = sep ++ (last.encode ++ ChunkedBody.encodeTrailers trailers) := by
      simpa [ChunkedBody.encode] using hbuf
    by_cases h0 : 0 ∈ last.ext
    · exact misses_nul_line env d sep last _ _ hst hs h0 he
    · rcases procChunkHead_line d [] sep last _ hs h0 (by simpa using he) with
        ⟨hu, -⟩ | ⟨buf', hb', heq⟩
      · exact absurd rfl hu
      · simp only [hz, Nat.zero_mod, Nat.lt_irrefl, if_false] at heq
        refine misses_step env d _ _ _ ((procStep_chunkHead env d hst).trans heq) rfl ?_
        refine misses_nul_trailer env _ trailers _ rfl ?_ htr (by simpa using hb')
        by_contra hno
        apply hb
        refine ⟨by simp, ⟨by rw [hz]; decide, h0⟩, ?_⟩
        intro t ht h0t
        exact hno ⟨t, ht, h0t⟩
  | cons c cs ih =>
    let b' : ChunkedBody := ⟨cs, last, trailers, hz, htr⟩
    have hc : c.data = fill c.toSizeLine.value := hfill c (by simp)
    have he : d.buf = sep ++ (c.toSizeLine.encode ++ (c.data ++ crlf ++ b'.encode)) := by
      simpa [ChunkedBody.encode, Chunk.encode, b'] using hbuf
    have hdata : (ChunkedBody.data ⟨c :: cs, last, trailers, hz, htr⟩).length =
        c.toSizeLine.value + b'.data.length := by
      simp [ChunkedBody.data, b', c.data_length]
    rw [hdata]
    by_cases h0 : 0 ∈ c.ext
    · exact misses_nul_line env d sep c.toSizeLine _ _ hst hs h0 he
    · by_cases hbig : 2 ^ 32 ≤ c.toSizeLine.value
      · rw [hc] at he
        exact misses_big_chunk env d sep c.toSizeLine _ _ hst ha hfi hs h0 hbig (by omega) he
      · have hlt : c.toSizeLine.value < 2 ^ 32 := by omega
        have hpos : 0 < c.toSizeLine.value := by
          rw [← c.data_length]
          exact List.length_pos_iff.mpr c.data_ne
        rcases procChunkHead_line d [] sep c.toSizeLine _ hs h0 (by simpa using he) with
          ⟨hu, -⟩ | ⟨buf', hb', heq⟩
        · exact absurd rfl hu
        · rw [List.append_nil] at hb'
          rw [Nat.mod_eq_of_lt hlt, if_pos hpos] at heq
          let d1 : Dl := { d with
            buf := buf'
            job := { d.job with nRest := c.toSizeLine.value, dlState := .processChunkData } }
          have hsplit := toStore_split d1 [] c.data (crlf ++ b'.encode) c.data_length.symm
            (by simp [d1, hb'])
          rcases hsplit with ⟨hts, hdrop⟩ | ⟨p', hp', -, -, hu⟩
          · rw [List.append_nil] at hdrop
            have hlen : d1.toStore.length = d1.job.nRest := by rw [hts, c.data_length]
            have hrest : ¬ b'.Readable := by
              intro hr
              refine hb ⟨fun x hx => ?_, hr.2⟩
              rcases List.mem_cons.mp hx with rfl | hx
              · exact ⟨hlt, h0⟩
              · exact hr.1 x hx
            refine misses_step env d d1 _ _ ((procStep_chunkHead env d hst).trans heq) rfl ?_
            refine misses_data env d1 b'.data.length rfl ha hfi hlen (fun d2 hst2 ha2 hfi2 hbuf2 => ?_)
            exact ih d2 crlf hst2 ha2 hfi2 (.inr (.inr rfl))
              (fun x hx => hfill x (List.mem_cons_of_mem _ hx)) hrest (hbuf2.trans hdrop)
          · simp [crlf] at hu

end Dl

def Chunk.filled (c : Chunk) : Chunk :=
  { c with
    data := Dl.fill c.toSizeLine.value
    data_length := by simp [Dl.fill]
    data_ne := by
      have := c.data_length ▸ List.length_pos_iff.mpr c.data_ne
      simp only [Dl.fill, ne_eq, List.replicate_eq_nil_iff]
      omega }

/-- The decoder at work: a job that stores into a new item. -/
def decoding : Dl :=
  { job := { dlState := .getChunkHead }, fi := { status := .dlGotHead, nSizeChecked := 0 } }

theorem decoding_ready : decoding.fi.Ready :=
  ⟨by decide, by decide, rfl, by decide⟩

theorem not_decodes (env : Env) (b : ChunkedBody)
    (hfill : ∀ c ∈ b.chunks, c.data = Dl.fill c.toSizeLine.value) (hb : ¬ b.Readable) :
    ¬ Decodes env b := by
  intro h
  obtain ⟨d', unread, hf, hfi, -⟩ :=
    h decoding [] [b.encode] rfl rfl decoding_ready rfl (by simp)
  let d : Dl := { decoding with buf := b.encode }
  have hm := Dl.misses_body env d [] b hfill hb rfl rfl decoding_ready (.inl rfl) rfl
  have hn : d'.fi.nIncommingCount = d.fi.nIncommingCount + b.data.length := by
    obtain ⟨status, len, head, he⟩ := FileItem.dlFinish_frame (decoding.fi.receive true b.data) false .stored
    rw [hfi, he]
    exact Dl.receive_incomming decoding.fi b.data decoding_ready
  have hd : ({ decoding with buf := decoding.buf ++ b.encode } : Dl) = d := rfl
  unfold Dl.feed at hf
  rw [hd] at hf
  simp only at hf
  split at hf
  · simp [Dl.feed] at hf
  · simp only [Prod.mk.injEq, Option.some.injEq] at hf
    refine hm hf.2.1 ?_
    rw [hf.1]
    exact hn

/-- Exactly the bodies with 32-bit sizes and without NUL in a line are decoded
whatever their data octets are. -/
theorem decodes_all_data_iff (env : Env) (b : ChunkedBody) :
    (∀ b', SameLines b b' → Decodes env b') ↔ b.Readable := by
  constructor
  · intro h
    by_contra hb
    let b' : ChunkedBody := { b with chunks := b.chunks.map Chunk.filled }
    have hsame : SameLines b b' := by
      refine ⟨?_, rfl, rfl⟩
      simp only [b', List.map_map]
      rfl
    refine not_decodes env b' ?_ ?_ (h b' hsame)
    · intro c hc
      obtain ⟨c0, -, rfl⟩ := List.mem_map.mp hc
      rfl
    · intro hr
      exact hb (SameLines.readable b' b ⟨hsame.1.symm, rfl, rfl⟩ hr)
  · intro hb b' hsame
    exact decodes_of_readable env b' (SameLines.readable b b' hsame hb)

theorem huge_size : lit "100000001" ≠ [] ∧ (∀ c ∈ lit "100000001", isxdigit c = true) ∧
    hexadecimal (lit "100000001") < 2 ^ 63 := by
  decide +kernel

theorem zero_size : lit "0" ≠ [] ∧ (∀ c ∈ lit "0", isxdigit c = true) ∧ hexadecimal (lit "0") < 2 ^ 63 := by
  decide +kernel

theorem huge_length : (Dl.fill (2 ^ 32 + 1)).length = (SizeLine.plain (lit "100000001") huge_size).value := by
  rw [Dl.fill, List.length_replicate]
  decide +kernel

theorem huge_ne : Dl.fill (2 ^ 32 + 1) ≠ [] :=
  List.ne_nil_of_length_pos (by rw [Dl.fill, List.length_replicate]; exact Nat.succ_pos _)

theorem zero_value : (SizeLine.plain (lit "0") zero_size).value = 0 := by
  decide +kernel

/-- One chunk of 2^32 + 1 octets. -/
def hugeBody : ChunkedBody where
  chunks := [
    { toSizeLine := .plain (lit "100000001") huge_size
      data := Dl.fill (2 ^ 32 + 1)
      data_length := huge_length
      data_ne := huge_ne }]
  last := .plain (lit "0") zero_size
  trailers := []
  last_zero := zero_value
  trailers_line := ChunkedBody.no_trailers

theorem hugeBody_not_decoded : ¬ Decodes plainEnv hugeBody := by
  refine not_decodes plainEnv hugeBody ?_ ?_
  · intro c hc
    obtain rfl := List.mem_singleton.mp hc
    rfl
  · intro hr
    have hsmall := (hr.1 _ (List.mem_singleton.mpr rfl)).1
    exact absurd hsmall (by decide)

end Acng
