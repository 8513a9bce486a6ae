import Acng.Proofs.Stream

namespace Acng

/-- The item after the given data, if the job may store any. -/
def FileItem.receive (allow : Bool) (fi : FileItem) (data : Lib.Bytes) : FileItem :=
  if allow = true ∧ data ≠ [] then (fi.dlAddData data).2 else fi

@[simp] theorem FileItem.receive_nil (allow : Bool) (fi : FileItem) : fi.receive allow [] = fi := by
  simp [FileItem.receive]

theorem FileItem.receive_ready (allow : Bool) (fi : FileItem) (data : Lib.Bytes)
    (h : allow = true → fi.Ready) (ha : allow = true) : (fi.receive allow data).Ready := by
  unfold receive
  split
  · exact dlAddData_keeps_ready fi data (h ha)
  · exact h ha

theorem FileItem.receive_append (allow : Bool) (fi : FileItem) (a b : Lib.Bytes)
    (h : allow = true → fi.Ready) :
    (fi.receive allow a).receive allow b = fi.receive allow (a ++ b) := by
  cases allow with
  | false => simp [receive]
  | true =>
    by_cases ha : a = []
    · simp [ha]
    · by_cases hb : b = []
      · simp [hb]
      · simp [receive, ha, hb, dlAddData_append fi a b (h rfl)]

namespace Dl
open Lib

/-- What may be left of a line end in front of a chunk-size line. -/
def IsSep (s : Bytes) : Prop := s = [] ∨ s = [10] ∨ s = crlf

/-- The text still to come, in the buffer or not yet read, seen from a state of
the job: the data it still carries and what follows the response. -/
inductive Remaining : StreamState → Nat → Bytes → Bytes → Bytes → Prop
  | plain (b rest : Bytes) : Remaining .processData b.length (b ++ rest) b rest
  | chunkHead (n : Nat) (sep : Bytes) (b : ChunkedBody) (rest : Bytes) (hs : IsSep sep)
      (hb : b.Readable) : Remaining .getChunkHead n (sep ++ b.encode ++ rest) b.data rest
  | chunkData (p : Bytes) (b : ChunkedBody) (rest : Bytes) (hb : b.Readable) :
      Remaining .processChunkData p.length (p ++ (crlf ++ b.encode ++ rest)) (p ++ b.data) rest
  | trailer (n : Nat) (ts : List Bytes) (rest : Bytes)
      (ht : ∀ t ∈ ts, t ≠ [] ∧ 13 ∉ t ∧ 10 ∉ t ∧ 0 ∉ t) :
      Remaining .getChunkTrailer n (ChunkedBody.encodeTrailers ts ++ rest) [] rest
  | finish (n : Nat) (rest : Bytes) : Remaining .finishJob n rest [] rest

/-- One pass over a well-framed response: it ends the response, or it goes on in
a state that still agrees with the text; it asks for more only if there is more. -/
def Follows (d : Dl) (unread out rest : Bytes) (d' : Dl) (res : Option Nat) : Prop :=
  d'.job = { d.job with dlState := d'.job.dlState, nRest := d'.job.nRest } ∧
  ((res = some HINT_DONE ∧ out = [] ∧ d'.job.dlState = .getHeader ∧ d'.buf ++ unread = rest ∧
      d'.fi = d.fi.dlFinish false) ∨
    ∃ now out', out = now ++ out' ∧ d'.fi = d.fi.receive d.job.bAllowStoreData now ∧
      Remaining d'.job.dlState d'.job.nRest (d'.buf ++ unread) out' rest ∧
      (res = none ∨ (res = some HINT_MORE ∧ unread ≠ [])))

theorem handOver_ready (d : Dl) (h : d.job.bAllowStoreData = true → d.fi.Ready) :
    d.handOver {} = (true, d.fi.receive d.job.bAllowStoreData d.toStore) := by
  unfold handOver FileItem.receive
  by_cases hn : d.toStore = []
  · simp [hn]
  · by_cases ha : d.job.bAllowStoreData = true
    · rw [if_neg hn, if_pos ha, if_pos ⟨ha, hn⟩]
      exact Prod.ext (FileItem.dlAddData_ok _ _ (h ha)) rfl
    · simp [hn, ha]

/-- The piece of a data block that is at hand: all of it, or all that was read. -/
theorem toStore_split (d : Dl) (unread p tail : Bytes) (hn : d.job.nRest = p.length)
    (h : d.buf ++ unread = p ++ tail) :
    (d.toStore = p ∧ d.buf.drop d.toStore.length ++ unread = tail) ∨
      ∃ p', p' ≠ [] ∧ p = d.toStore ++ p' ∧ d.buf.drop d.toStore.length = [] ∧
        unread = p' ++ tail := by
  by_cases hl : p.length ≤ d.buf.length
  · left
    have hp : p <+: d.buf ++ unread := h ▸ List.prefix_append _ _
    obtain ⟨more, hm⟩ := List.prefix_of_prefix_length_le hp (List.prefix_append _ _) hl
    have ht : d.toStore = p := by
      simp [toStore, hn, ← hm]
    refine ⟨ht, ?_⟩
    rw [ht, ← hm, List.drop_left]
    rw [← hm, List.append_assoc] at h
    exact List.append_cancel_left h
  · right
    have hb : d.buf <+: p ++ tail := h ▸ List.prefix_append _ _
    obtain ⟨p', hp'⟩ := List.prefix_of_prefix_length_le hb (List.prefix_append _ _) (by omega)
    have ht : d.toStore = d.buf := by
      simp [toStore, hn, Nat.min_eq_left (Nat.le_of_lt (Nat.lt_of_not_le hl))]
    refine ⟨p', ?_, by rw [ht, hp'], by simp [ht], ?_⟩
    · rintro rfl
      rw [List.append_nil] at hp'
      simp [hp'] at hl
    · rw [← hp', List.append_assoc] at h
      exact List.append_cancel_left h

theorem procData_plain (d : Dl) (unread b rest : Bytes)
    (hst : d.job.dlState = .processData) (hn : d.job.nRest = b.length)
    (ht : d.buf ++ unread = b ++ rest) (h : d.job.bAllowStoreData = true → d.fi.Ready) :
    ∃ d' res, d.procData {} = (d', res) ∧ d.Follows unread b rest d' res := by
  have hh := handOver_ready d h
  rcases procData_cases {} d with ⟨hf, -⟩ | ⟨-, hlt, he⟩ | ⟨-, heq, he⟩
  · simp [hh] at hf
  · refine ⟨_, _, he, rfl, .inr ?_⟩
    rcases toStore_split d unread b rest hn ht with ⟨hs, -⟩ | ⟨p', hp', hb, hd, hu⟩
    · simp [hs, hn] at hlt
    · refine ⟨d.toStore, p', hb, by rw [hh], ?_, .inr ⟨rfl, ?_⟩⟩
      · have hlen : d.job.nRest - d.toStore.length = p'.length := by
          rw [hn, hb, List.length_append]
          omega
        simp only [hst, hlen, hd, List.nil_append, hu]
        exact .plain p' rest
      · simp [hu, hp']
  · refine ⟨_, _, he, rfl, .inr ?_⟩
    rcases toStore_split d unread b rest hn ht with ⟨hs, hd⟩ | ⟨p', hp', hb, hd, hu⟩
    · refine ⟨d.toStore, [], by simp [hs], by rw [hh], ?_, .inl rfl⟩
      simp only [hst, if_true, hd]
      exact .finish 0 rest
    · have := List.length_pos_iff.mpr hp'
      rw [hn, hb, List.length_append] at heq
      omega

theorem procData_chunk (d : Dl) (unread p : Bytes) (b : ChunkedBody) (rest : Bytes)
    (hb : b.Readable) (hst : d.job.dlState = .processChunkData) (hn : d.job.nRest = p.length)
    (ht : d.buf ++ unread = p ++ (crlf ++ b.encode ++ rest))
    (h : d.job.bAllowStoreData = true → d.fi.Ready) :
    ∃ d' res, d.procData {} = (d', res) ∧ d.Follows unread (p ++ b.data) rest d' res := by
  have hh := handOver_ready d h
  rcases procData_cases {} d with ⟨hf, -⟩ | ⟨-, hlt, he⟩ | ⟨-, heq, he⟩
  · simp [hh] at hf
  · refine ⟨_, _, he, rfl, .inr ?_⟩
    rcases toStore_split d unread p _ hn ht with ⟨hs, -⟩ | ⟨p', hp', hp, hd, hu⟩
    · simp [hs, hn] at hlt
    · refine ⟨d.toStore, p' ++ b.data, by rw [← List.append_assoc, ← hp], by rw [hh], ?_,
        .inr ⟨rfl, ?_⟩⟩
      · have hlen : d.job.nRest - d.toStore.length = p'.length := by
          rw [hn, hp, List.length_append]
          omega
        simp only [hst, hlen, hd, List.nil_append, hu]
        exact .chunkData p' b rest hb
      · simp [hu, hp']
  · refine ⟨_, _, he, rfl, .inr ?_⟩
    rcases toStore_split d unread p _ hn ht with ⟨hs, hd⟩ | ⟨p', hp', hp, hd, hu⟩
    · refine ⟨d.toStore, b.data, by rw [hs], by rw [hh], ?_, .inl rfl⟩
      simp only [hst, reduceCtorEq, if_false, hd]
      exact .chunkHead 0 crlf b rest (.inr (.inr rfl)) hb
    · have := List.length_pos_iff.mpr hp'
      rw [hn, hp, List.length_append] at heq
      omega

theorem IsSep.drop (s : Bytes) (h : IsSep s) (n : Nat) : IsSep (s.drop n) := by
  rcases h with rfl | rfl | rfl
  · exact .inl (by simp)
  · cases n with
    | zero => exact .inr (.inl rfl)
    | succ n => exact .inl (by simp)
  · match n with
    | 0 => exact .inr (.inr rfl)
    | 1 => exact .inr (.inl rfl)
    | n + 2 => exact .inl (by simp [crlf])

theorem IsSep.newlines (s : Bytes) (h : IsSep s) : ∀ c ∈ s, (c == 13 || c == 10) = true := by
  rcases h with rfl | rfl | rfl <;> simp [crlf]

/-- Dropping newlines removes what has arrived of the separator and nothing else. -/
theorem dropWhile_sep (buf unread sep : Bytes) (x : UInt8) (t : Bytes) (hs : IsSep sep)
    (hx : (x == 13 || x == 10) = false) (h : buf ++ unread = sep ++ x :: t) :
    ∃ sep', IsSep sep' ∧
      buf.dropWhile (fun c => c == 13 || c == 10) ++ unread = sep' ++ x :: t ∧
      (buf.dropWhile (fun c => c == 13 || c == 10) = [] ∨ sep' = []) := by
  by_cases hl : buf.length ≤ sep.length
  · have hb : buf <+: sep ++ x :: t := h ▸ List.prefix_append _ _
    obtain ⟨s', rfl⟩ := List.prefix_of_prefix_length_le hb (List.prefix_append _ _) hl
    have hnil : buf.dropWhile (fun c => c == 13 || c == 10) = [] := by
      rw [List.dropWhile_eq_nil_iff]
      intro c hc
      exact IsSep.newlines _ hs c (List.mem_append_left _ hc)
    refine ⟨s', ?_, ?_, .inl hnil⟩
    · simpa using IsSep.drop _ hs buf.length
    · rw [hnil, List.nil_append]
      rw [List.append_assoc] at h
      exact List.append_cancel_left h
  · have hp : sep <+: buf ++ unread := h ▸ List.prefix_append _ _
    obtain ⟨more, rfl⟩ := List.prefix_of_prefix_length_le hp (List.prefix_append _ _) (by omega)
    have hm : more ++ unread = x :: t := by
      rw [List.append_assoc] at h
      exact List.append_cancel_left h
    have hne : more ≠ [] := by
      rintro rfl
      simp at hl
    obtain ⟨y, more', rfl⟩ := List.exists_cons_of_ne_nil hne
    obtain ⟨rfl, -⟩ := List.cons.inj hm
    have hd : (sep ++ y :: more').dropWhile (fun c => c == 13 || c == 10) = y :: more' := by
      rw [List.dropWhile_append_of_pos (IsSep.newlines sep hs)]
      simp only [List.dropWhile_cons, hx, Bool.false_eq_true, if_false]
    exact ⟨[], .inl rfl, by rw [hd, hm]; rfl, .inr rfl⟩

end Dl

namespace SizeLine
open Lib

theorem line_clean (l : SizeLine) (h : 0 ∉ l.ext) :
    0 ∉ l.size ++ l.ext ∧ 13 ∉ l.size ++ l.ext ∧ 10 ∉ l.size ++ l.ext := by
  have hd : ∀ c ∈ l.size, c ≠ 0 ∧ c ≠ 13 ∧ c ≠ 10 := fun c hc =>
    ⟨(isxdigit_graph c (l.size_hex c hc)).2.2.2.1, (isxdigit_graph c (l.size_hex c hc)).2.2.2.2.1,
      (isxdigit_graph c (l.size_hex c hc)).2.2.2.2.2.1⟩
  simp only [List.mem_append, not_or]
  exact ⟨⟨fun hc => (hd 0 hc).1 rfl, h⟩, ⟨fun hc => (hd 13 hc).2.1 rfl, l.ext_line.1⟩,
    ⟨fun hc => (hd 10 hc).2.2 rfl, l.ext_line.2⟩⟩

/-- The size is read up to the extension or the line end, modulo 2^32. -/
theorem scanHex_encode (l : SizeLine) (more : Bytes) :
    scanHex (l.encode ++ more) = some (l.value % 2 ^ 32) := by
  have hv : hexadecimal l.size < 2 ^ 64 := Nat.lt_trans l.size_fits (by decide)
  unfold encode value
  cases hx : l.ext with
  | nil =>
    simpa [crlf] using
      scanHex_digits l.size 13 (10 :: more) l.size_ne l.size_hex (by decide) (by decide) hv
  | cons c e =>
    have hc : isxdigit c = false ∧ c ≠ 120 ∧ c ≠ 88 := by
      rcases l.ext_start c (by simp [hx]) with rfl | rfl | rfl <;> decide
    simpa using
      scanHex_digits l.size c (e ++ crlf ++ more) l.size_ne l.size_hex hc.1 hc.2 hv

theorem first_digit (l : SizeLine) (t : Bytes) :
    ∃ x u, l.encode ++ t = x :: u ∧ (x == 13 || x == 10) = false := by
  obtain ⟨x, ds, hd⟩ := List.exists_cons_of_ne_nil l.size_ne
  have hg := isxdigit_graph x (l.size_hex x (by simp [hd]))
  exact ⟨x, ds ++ l.ext ++ crlf ++ t, by simp [encode, hd], by simp [hg.2.2.2.2.1, hg.2.2.2.2.2.1]⟩

end SizeLine

namespace Dl
open Lib

theorem procChunkHead_more (d : Dl) (b : Bytes)
    (hb : d.buf.dropWhile (fun c => c == 13 || c == 10) = b) (hf : find crlf (cstr b) = none) :
    d.procChunkHead = ({ d with buf := b }, some HINT_MORE) := by
  unfold procChunkHead
  simp only [hb, hf]

theorem procChunkHead_size (d : Dl) (b : Bytes) (p len : Nat)
    (hb : d.buf.dropWhile (fun c => c == 13 || c == 10) = b) (hf : find crlf (cstr b) = some p)
    (hs : scanHex b = some len) :
    d.procChunkHead =
      if 0 < len then
        ({ d with
          buf := b.drop (p + 2), job := { d.job with nRest := len, dlState := .processChunkData } },
          none)
      else ({ d with buf := b.drop (p + 2), job := { d.job with dlState := .getChunkTrailer } },
        none) := by
  unfold procChunkHead
  simp only [hb, hf, hs]

theorem procChunkHead_bad (d : Dl) (p : Nat)
    (hb : d.buf.dropWhile (fun c => c == 13 || c == 10) = d.buf) (hf : find crlf (cstr d.buf) = some p)
    (hs : scanHex d.buf = none) :
    d.procChunkHead =
      ({ d with job := { d.job with sErrorMsg := lit "Invalid stream" } }, some EFLAG_JOB_BROKEN) := by
  unfold procChunkHead
  simp only [hb, hf, hs]

/-- A size line on its way, behind what may be left of a line end. -/
theorem procChunkHead_line (d : Dl) (unread sep : Bytes) (l : SizeLine) (t : Bytes)
    (hs : IsSep sep) (hl : 0 ∉ l.ext) (ht : d.buf ++ unread = sep ++ (l.encode ++ t)) :
    (unread ≠ [] ∧ ∃ buf' sep', IsSep sep' ∧ buf' ++ unread = sep' ++ (l.encode ++ t) ∧
      d.procChunkHead = ({ d with buf := buf' }, some HINT_MORE)) ∨
    ∃ buf', buf' ++ unread = t ∧ d.procChunkHead =
      if 0 < l.value % 2 ^ 32 then
        ({ d with
          buf := buf'
          job := { d.job with nRest := l.value % 2 ^ 32, dlState := .processChunkData } }, none)
      else ({ d with buf := buf', job := { d.job with dlState := .getChunkTrailer } }, none) := by
  obtain ⟨x, u, hxu, hx⟩ := l.first_digit t
  rw [hxu] at ht
  obtain ⟨sep', hs', hb, hor⟩ := dropWhile_sep d.buf unread sep x u hs hx ht
  obtain ⟨h0, h13, h10⟩ := l.line_clean hl
  generalize hbuf : d.buf.dropWhile (fun c => c == 13 || c == 10) = b at hb hor
  rcases hor with rfl | rfl
  · refine .inl ⟨?_, [], sep', hs', by rw [hb, hxu], ?_⟩
    · rintro rfl
      simp at hb
    · exact procChunkHead_more d [] hbuf (by simp [cstr, find, crlf])
  · rw [List.nil_append, ← hxu] at hb
    rcases find_line (l.size ++ l.ext) b unread t h0 h13 h10 hb with ⟨hf, hu⟩ | ⟨hf, more, hm, hr⟩
    · exact .inl ⟨hu, b, [], .inl rfl, by rw [hb, List.nil_append], procChunkHead_more d b hbuf hf⟩
    · right
      have hsc : scanHex b = some (l.value % 2 ^ 32) := by
        rw [hm]
        exact l.scanHex_encode more
      have hd : b.drop ((l.size ++ l.ext).length + 2) = more := by
        have h2 : (l.size ++ l.ext).length + 2 = (l.size ++ l.ext ++ crlf).length := by
          simp [crlf, Nat.add_assoc]
        rw [hm, h2, List.drop_left]
      refine ⟨more, hr, ?_⟩
      rw [procChunkHead_size d b _ _ hbuf hf hsc, hd]

theorem procChunkHead_follows (d : Dl) (unread sep : Bytes) (b : ChunkedBody) (rest : Bytes)
    (hs : IsSep sep) (hb : b.Readable) (hst : d.job.dlState = .getChunkHead)
    (ht : d.buf ++ unread = sep ++ b.encode ++ rest) :
    ∃ d' res, d.procChunkHead = (d', res) ∧ d.Follows unread b.data rest d' res := by
  obtain ⟨chunks, last, trailers, hz, htr⟩ := b
  cases chunks with
  | nil =>
    have he : d.buf ++ unread = sep ++ (last.encode ++ (ChunkedBody.encodeTrailers trailers ++ rest)) := by
      simpa [ChunkedBody.encode] using ht
    rcases procChunkHead_line d unread sep last _ hs hb.2.1.2 he with
      ⟨hu, buf', sep', hs', hb', heq⟩ | ⟨buf', hb', heq⟩
    · refine ⟨_, _, heq, rfl, .inr ⟨[], _, rfl, by simp, ?_, .inr ⟨rfl, hu⟩⟩⟩
      have htext : buf' ++ unread = sep' ++ ChunkedBody.encode ⟨[], last, trailers, hz, htr⟩ ++ rest := by
        simpa [ChunkedBody.encode] using hb'
      simp only [hst, htext]
      exact .chunkHead d.job.nRest sep' _ rest hs' hb
    · simp only [hz, Nat.zero_mod, Nat.lt_irrefl, if_false] at heq
      refine ⟨_, _, heq, rfl, .inr ⟨[], [], rfl, by simp, ?_, .inl rfl⟩⟩
      simp only [hb']
      exact .trailer _ trailers rest (fun t h =>
        ⟨(htr t h).1, (htr t h).2.1, (htr t h).2.2, hb.2.2 t h⟩)
  | cons c cs =>
    have hcs : ChunkedBody.Readable ⟨cs, last, trailers, hz, htr⟩ :=
      ⟨fun x hx => hb.1 x (List.mem_cons_of_mem _ hx), hb.2⟩
    have he : d.buf ++ unread = sep ++ (c.toSizeLine.encode ++
        (c.data ++ (crlf ++ ChunkedBody.encode ⟨cs, last, trailers, hz, htr⟩ ++ rest))) := by
      simpa [ChunkedBody.encode, Chunk.encode] using ht
    rcases procChunkHead_line d unread sep c.toSizeLine _ hs (hb.1 c (by simp)).2 he with
      ⟨hu, buf', sep', hs', hb', heq⟩ | ⟨buf', hb', heq⟩
    · refine ⟨_, _, heq, rfl, .inr ⟨[], _, rfl, by simp, ?_, .inr ⟨rfl, hu⟩⟩⟩
      have htext : buf' ++ unread =
          sep' ++ ChunkedBody.encode ⟨c :: cs, last, trailers, hz, htr⟩ ++ rest := by
        simpa [ChunkedBody.encode, Chunk.encode] using hb'
      simp only [hst, htext]
      exact .chunkHead d.job.nRest sep' _ rest hs' hb
    · have hpos : 0 < c.toSizeLine.value := by
        rw [← c.data_length]
        exact List.length_pos_iff.mpr c.data_ne
      rw [Nat.mod_eq_of_lt (hb.1 c (by simp)).1, if_pos hpos] at heq
      refine ⟨_, _, heq, rfl, .inr ⟨[], _, rfl, by simp, ?_, .inl rfl⟩⟩
      simp only [hb', ← c.data_length]
      exact .chunkData c.data ⟨cs, last, trailers, hz, htr⟩ rest hcs

theorem procTrailer_follows (d : Dl) (unread : Bytes) (ts : List Bytes) (rest : Bytes)
    (hts : ∀ t ∈ ts, t ≠ [] ∧ 13 ∉ t ∧ 10 ∉ t ∧ 0 ∉ t) (hst : d.job.dlState = .getChunkTrailer)
    (ht : d.buf ++ unread = ChunkedBody.encodeTrailers ts ++ rest) :
    ∃ d' res, d.procTrailer = (d', res) ∧ d.Follows unread [] rest d' res := by
  have hmore : unread ≠ [] → d.Follows unread [] rest d (some HINT_MORE) := by
    intro hu
    refine ⟨rfl, .inr ⟨[], [], rfl, by simp, ?_, .inr ⟨rfl, hu⟩⟩⟩
    rw [hst, ht]
    exact .trailer _ ts rest hts
  unfold procTrailer
  by_cases hlen : d.buf.length < 2
  · refine ⟨d, some HINT_MORE, by simp [hlen], hmore ?_⟩
    rintro rfl
    have := congrArg List.length ht
    simp [ChunkedBody.encodeTrailers, crlf] at this
    omega
  · simp only [hlen, if_false]
    cases ts with
    | nil =>
      have hl : d.buf ++ unread = [] ++ crlf ++ rest := by
        simpa [ChunkedBody.encodeTrailers] using ht
      rcases find_line [] d.buf unread rest (by simp) (by simp) (by simp) hl with
        ⟨hf, hu⟩ | ⟨hf, more, hm, hr⟩
      · exact ⟨d, some HINT_MORE, by rw [hf], hmore hu⟩
      · simp only [hf, List.length_nil]
        refine ⟨_, _, rfl, rfl, .inr ⟨[], [], rfl, by simp, ?_, .inl rfl⟩⟩
        have hd : d.buf.drop 2 = more := hm ▸ drop_line more rfl
        simp only [hd, hr]
        exact .finish _ rest
    | cons t ts =>
      have hl : d.buf ++ unread = t ++ crlf ++ (ChunkedBody.encodeTrailers ts ++ rest) := by
        simpa [ChunkedBody.encodeTrailers] using ht
      obtain ⟨hne, h13, h10, h0⟩ := hts t (by simp)
      rcases find_line t d.buf unread _ h0 h13 h10 hl with ⟨hf, hu⟩ | ⟨hf, more, hm, hr⟩
      · exact ⟨d, some HINT_MORE, by rw [hf], hmore hu⟩
      · obtain ⟨k, hk⟩ := Nat.exists_eq_succ_of_ne_zero
          (Nat.ne_of_gt (List.length_pos_iff.mpr hne))
        have hd : d.buf.drop (k + 1 + 2) = more := hm ▸ drop_line more hk
        simp only [hf, hk, Nat.succ_eq_add_one]
        refine ⟨_, _, rfl, rfl, .inr ⟨[], [], rfl, by simp, ?_, .inl rfl⟩⟩
        simp only [hst, hd, hr]
        exact .trailer _ ts rest (fun s hs => hts s (List.mem_cons_of_mem _ hs))

/-- Step lemma: every pass follows the framing. -/
theorem procStep_follows (env : Env) (bOnly : Bool) (d : Dl) (unread out rest : Bytes)
    (hr : Remaining d.job.dlState d.job.nRest (d.buf ++ unread) out rest)
    (h : d.job.bAllowStoreData = true → d.fi.Ready) :
    ∃ d' res, d.procStep env {} bOnly = (d', res) ∧ d.Follows unread out rest d' res := by
  generalize hs : d.job.dlState = s at hr
  generalize hn : d.job.nRest = n at hr
  generalize ht : d.buf ++ unread = t at hr
  unfold procStep
  rw [hs]
  cases hr with
  | plain => exact procData_plain d unread out rest hs hn ht h
  | chunkHead _ sep b _ hsep hb => exact procChunkHead_follows d unread sep b rest hsep hb hs ht
  | chunkData p b _ hb => exact procData_chunk d unread p b rest hb hs hn ht h
  | trailer _ ts _ hts => exact procTrailer_follows d unread ts rest hts hs ht
  | finish => exact ⟨_, _, rfl, rfl, .inl ⟨rfl, rfl, rfl, ht, rfl⟩⟩

/-- Where a job stands in a well-framed response: the data it has handed on since
the state `d`, and what is still to come. -/
def Midway (d : Dl) (unread out rest : Bytes) (d' : Dl) : Prop :=
  d'.job = { d.job with dlState := d'.job.dlState, nRest := d'.job.nRest } ∧
    ∃ now out', out = now ++ out' ∧ d'.fi = d.fi.receive d.job.bAllowStoreData now ∧
      Remaining d'.job.dlState d'.job.nRest (d'.buf ++ unread) out' rest

/-- The end of a well-framed response: everything was handed on, and the input is
exactly what follows the response. -/
def Finished (d : Dl) (unread out rest : Bytes) (d' : Dl) : Prop :=
  d'.job = { d.job with dlState := .getHeader, nRest := d'.job.nRest } ∧ d'.buf ++ unread = rest ∧
    d'.fi = (d.fi.receive d.job.bAllowStoreData out).dlFinish false

theorem Midway.start (d : Dl) (unread out rest : Bytes)
    (hr : Remaining d.job.dlState d.job.nRest (d.buf ++ unread) out rest) :
    d.Midway unread out rest d := ⟨rfl, [], out, rfl, by simp, hr⟩

theorem Midway.ready (d : Dl) (unread out rest : Bytes) (d' : Dl) (hm : d.Midway unread out rest d')
    (h : d.job.bAllowStoreData = true → d.fi.Ready) : d'.job.bAllowStoreData = true → d'.fi.Ready := by
  obtain ⟨hj, now, out', -, hfi, -⟩ := hm
  intro ha
  rw [hj] at ha
  rw [hfi]
  exact FileItem.receive_ready _ d.fi now h ha

/-- Run lemma: a call on a well-framed response ends inside of it, with more to be
read, or exactly at its end. -/
theorem processIncomming_follows (env : Env) (bOnly : Bool) (d0 d : Dl) (unread out rest : Bytes)
    (h : d0.job.bAllowStoreData = true → d0.fi.Ready) (hm : d0.Midway unread out rest d) :
    ((d.processIncomming env {} bOnly).2 = HINT_MORE ∧ unread ≠ [] ∧
        d0.Midway unread out rest (d.processIncomming env {} bOnly).1) ∨
      ((d.processIncomming env {} bOnly).2 = HINT_DONE ∧
        d0.Finished unread out rest (d.processIncomming env {} bOnly).1) := by
  have hstep : ∀ e, d0.Midway unread out rest e →
      ∃ e' res, e.procStep env {} bOnly = (e', res) ∧
        ((res = some HINT_DONE ∧ d0.Finished unread out rest e') ∨
          (d0.Midway unread out rest e' ∧ (res = none ∨ (res = some HINT_MORE ∧ unread ≠ [])))) := by
    intro e he
    have hready := Midway.ready d0 unread out rest e he h
    obtain ⟨hj, now, out', ho, hfi, hr⟩ := he
    obtain ⟨e', res, hs, hj', hf⟩ := procStep_follows env bOnly e unread out' rest hr hready
    refine ⟨e', res, hs, ?_⟩
    have ha : e.job.bAllowStoreData = d0.job.bAllowStoreData := by rw [hj]
    rcases hf with ⟨hres, hnil, hgh, hb, hfin⟩ | ⟨now', out'', ho', hfi', hr', hres⟩
    · refine .inl ⟨hres, ?_, hb, ?_⟩
      · rw [hj', hgh, hj]
      · rw [hfin, hfi, ho, hnil, List.append_nil]
    · refine .inr ⟨⟨?_, now ++ now', out'', by rw [ho, ho', List.append_assoc], ?_, hr'⟩, hres⟩
      · rw [hj', hj]
      · rw [hfi', hfi, ha, FileItem.receive_append _ d0.fi now now' h]
  refine processIncomming_rule env {} bOnly (d0.Midway unread out rest)
    (fun e res => (res = HINT_MORE ∧ unread ≠ [] ∧ d0.Midway unread out rest e) ∨
      (res = HINT_DONE ∧ d0.Finished unread out rest e)) ?_ ?_ d hm
  · intro e e' res he hs
    obtain ⟨e'', res', hs', hcase⟩ := hstep e he
    obtain ⟨rfl, rfl⟩ := Prod.mk.inj (hs.symm.trans hs')
    rcases hcase with ⟨hres, hfin⟩ | ⟨hmid, hres | ⟨hres, hu⟩⟩
    · exact .inr ⟨Option.some.inj hres, hfin⟩
    · simp at hres
    · exact .inl ⟨Option.some.inj hres, hu, hmid⟩
  · intro e e' he hs
    obtain ⟨e'', res', hs', hcase⟩ := hstep e he
    obtain ⟨rfl, rfl⟩ := Prod.mk.inj (hs.symm.trans hs')
    rcases hcase with ⟨hres, -⟩ | ⟨hmid, -⟩
    · simp at hres
    · exact hmid

/-- More input arrives: what was still unread is now in the buffer. -/
theorem Midway.read (d0 d : Dl) (r unread out rest : Bytes)
    (hm : d0.Midway (r ++ unread) out rest d) :
    d0.Midway unread out rest { d with buf := d.buf ++ r } := by
  obtain ⟨hj, now, out', ho, hfi, hr⟩ := hm
  refine ⟨hj, now, out', ho, hfi, ?_⟩
  simpa using hr

/-- A job that is fed a well-framed response in any pieces takes all of it and
nothing else. -/
theorem feed_follows (env : Env) (d0 d : Dl) (out rest : Bytes) (reads : List Bytes)
    (h : d0.job.bAllowStoreData = true → d0.fi.Ready)
    (hm : d0.Midway reads.flatten out rest d) (hne : reads ≠ []) :
    ∃ d' unread, d.feed env {} reads = (d', some HINT_DONE, unread) ∧
      d0.Finished unread.flatten out rest d' := by
  induction reads generalizing d with
  | nil => exact absurd rfl hne
  | cons r reads ih =>
    rw [List.flatten_cons] at hm
    have hm' := Midway.read d0 d r reads.flatten out rest hm
    unfold feed
    cases hp : processIncomming env {} false { d with buf := d.buf ++ r } with
    | mk d' res =>
      have hf := processIncomming_follows env false d0 _ reads.flatten out rest h hm'
      rw [hp] at hf
      simp only
      rcases hf with ⟨rfl, hu, hmid⟩ | ⟨rfl, hfin⟩
      · rw [if_pos rfl]
        refine ih d' hmid ?_
        rintro rfl
        exact hu rfl
      · rw [if_neg (by decide)]
        exact ⟨d', reads, rfl, hfin⟩

end Dl

end Acng
