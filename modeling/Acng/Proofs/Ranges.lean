import Acng.Proofs.Decimal
import Acng.Proofs.Delivery
import Acng.Response

namespace Acng
open Lib

theorem offT_of_range (v : Int) (h : -2 ^ 63 ≤ v) (h' : v < 2 ^ 63) : offT v = v := by
  unfold offT
  omega

namespace ClientJob

/-- Nothing fails in this call, and the size that is seen is that of the file as soon as it is
complete. -/
structure Serves (file : Bytes) (j : ClientJob) (io : SendIo) : Prop where
  sent : ∃ r, io.sent = some r
  data : ∃ n, io.data = some n
  opened : io.opened = true
  seen : j.activity = .sendData → ∃ fistate size, j.awaitSendableState io.seen = some (fistate, size) ∧
    size ≤ file.length ∧ (fistate = .complete → size = file.length)

/-- Where a job stands that sends a part of the file from `first` up to `stop`. -/
inductive Sending (file front : Bytes) (first stop : Nat) (j : ClientJob) (out : Bytes) : Prop
  | mk (pos : Nat) (ha : j.activity = .sendData) (hb : j.bIsHeadOnly = false) (hpos : j.nSendPos = pos)
      (hfirst : first ≤ pos) (hstop : pos ≤ stop) (hle : stop ≤ file.length)
      (hto : (j.nReqRangeTo < 0 ∧ stop = file.length) ∨ (j.nReqRangeTo = stop - 1 ∧ 0 < stop))
      (hout : out ++ j.sendbuf = front ++ (file.drop first).take (pos - first))

def bytesLeft (stop : Nat) (j : ClientJob) : Nat := stop - j.nSendPos.toNat

def part (file : Bytes) (first stop : Nat) : Bytes := (file.drop first).take (stop - first)

theorem await_size (j : ClientJob) (seen : List (FiStatus × Int)) (fistate : FiStatus) (size : Int)
    (hb : j.bIsHeadOnly = false) (h : j.awaitSendableState seen = some (fistate, size)) :
    fistate = .complete ∨ j.nSendPos < size := by
  induction seen with
  | nil => cases h
  | cons p seen ih =>
    obtain ⟨st, n⟩ := p
    simp only [awaitSendableState, hb, Bool.false_and, Bool.or_false] at h
    split at h
    · rename_i hc
      split at h
      · rename_i hc'
        cases h
        exact .inl (le_antisymm hc' hc)
      · cases h
    · split at h
      · rename_i hlt
        cases h
        exact .inr (by simpa using hlt)
      · exact ih h

theorem limit_sending (j : ClientJob) (file : Bytes) (pos stop size : Nat) (hlen : file.length < 2 ^ 63)
    (hpos : j.nSendPos = pos) (hstop : pos ≤ stop) (hle : stop ≤ file.length)
    (hsize : size ≤ file.length)
    (hto : (j.nReqRangeTo < 0 ∧ stop = file.length) ∨ (j.nReqRangeTo = stop - 1 ∧ 0 < stop)) :
    j.limit size = (min stop size : Nat) - j.nSendPos := by
  unfold limit
  rcases hto with ⟨hto, hst⟩ | ⟨hto, hst⟩
  · rw [if_neg (by omega)]
    omega
  · rw [if_pos (by omega), offT_of_range _ (by omega) (by omega)]
    omega

/-- The sizes that can be seen while a part of the file is sent. -/
theorem Serves.size {file : Bytes} {j : ClientJob} {io : SendIo} (hg : j.Serves file io) (pos : Nat)
    (ha : j.activity = .sendData) (hb : j.bIsHeadOnly = false) (hpos : j.nSendPos = pos) :
    ∃ fistate, ∃ size : Nat, j.awaitSendableState io.seen = some (fistate, (size : Int)) ∧
      size ≤ file.length ∧ (fistate = .complete → size = file.length) ∧ (fistate = .complete ∨ pos < size) := by
  obtain ⟨fistate, size, hs, hsize, hc⟩ := hg.seen ha
  have hcase : fistate = .complete ∨ (pos : Int) < size := by
    rcases await_size j io.seen fistate size hb hs with h | h
    · exact .inl h
    · exact .inr (by omega)
  have h0 : 0 ≤ size := by
    rcases hcase with h | h
    · have := hc h
      omega
    · omega
  obtain ⟨size, rfl⟩ := Int.eq_ofNat_of_zero_le h0
  exact ⟨fistate, size, hs, by omega, fun h => by exact_mod_cast hc h,
    hcase.imp id (fun h => by exact_mod_cast h)⟩

theorem perform_seen (env : CookEnv) (file : Bytes) (j : ClientJob) (io : SendIo) (n : Nat)
    (fistate : FiStatus) (size : Int) (ha : j.activity = .sendData) (hh : j.bIsHeadOnly = false)
    (hs : j.awaitSendableState io.seen = some (fistate, size)) (ho : io.opened = true)
    (hn : io.data = some n) :
    j.perform env file io =
      if j.limit size ≤ 0 then ({ j with filefd := true }, .discon, [])
      else
        let r := { j with filefd := true }.sendFile file n (j.limit size)
        if (fistate = .complete && r.1.nSendPos = size) ||
            (0 ≤ j.nReqRangeTo && offT (j.nReqRangeTo + 1) ≤ r.1.nSendPos) then
          (r.1.returnStreamOk.1, r.1.returnStreamOk.2, r.2)
        else (r.1, .again, r.2) := by
  simp only [perform, ha, sendPlain, hh, hs, ho, hn, Bool.or_true]
  rfl

theorem perform_sending (env : CookEnv) (file front : Bytes) (first stop : Nat)
    (hlen : file.length < 2 ^ 63) (j : ClientJob) (out : Bytes) (io : SendIo)
    (h : Sending file front first stop j out) (hb : j.sendbuf = []) (hg : j.Serves file io) :
    (∃ j' out', j.perform env file io = (j', .again, out') ∧
      Sending file front first stop j' (out ++ out') ∧
      (Moves io → j'.sendbuf.length + bytesLeft stop j' < bytesLeft stop j)) ∨
    ((j.perform env file io).2.1 ≠ .again ∧
      out ++ (j.perform env file io).2.2 = front ++ part file first stop) := by
  obtain ⟨pos, ha, hh, hpos, hfirst, hstop, hle, hto, hout⟩ := h
  rw [hb, List.append_nil] at hout
  obtain ⟨fistate, size, hs, hsize, hfull, hcase⟩ := hg.size pos ha hh hpos
  obtain ⟨n, hn⟩ := hg.data
  rw [perform_seen env file j io n fistate size ha hh hs hg.opened hn,
    limit_sending j file pos stop size hlen hpos hstop hle hsize hto]
  by_cases hend : min stop size ≤ pos
  · -- everything was sent before the item was complete
    rw [if_pos (by omega)]
    have he : pos = stop := by
      rcases hcase with h | h
      · have := hfull h
        omega
      · omega
    refine .inr ⟨by simp, ?_⟩
    rw [List.append_nil, hout, he]
    rfl
  rw [if_neg (by omega)]
  have hsend := sendFile_out file { j with filefd := true } n pos (min stop size) hpos (by omega) (by omega)
  have hmore : out ++ (file.drop pos).take (min n (min stop size - pos)) =
      front ++ (file.drop first).take (pos + min n (min stop size - pos) - first) := by
    rw [hout, List.append_assoc, take_append_next file first pos _ hfirst]
  simp only [hsend]
  split
  · rename_i hfin
    have he : pos + min n (min stop size - pos) = stop := by
      simp only [Bool.or_eq_true, Bool.and_eq_true, decide_eq_true_eq] at hfin
      rcases hfin with ⟨hc, hz⟩ | ⟨hto', hz⟩
      · have := hfull hc
        omega
      · have hst : j.nReqRangeTo + 1 = stop := by omega
        rw [hst, offT_of_range _ (by omega) (by omega)] at hz
        omega
    exact .inr ⟨returnStreamOk_ends _, by rw [hmore, he]; rfl⟩
  · refine .inl ⟨_, _, rfl, ⟨pos + min n (min stop size - pos), ha, hh, rfl, by omega, by omega, hle, hto, ?_⟩,
      fun hm => ?_⟩
    · simpa [hb] using hmore
    · have hn0 : n ≠ 0 := by
        rintro rfl
        exact hm.2 hn
      simp only [bytesLeft, hb, hpos, List.length_nil, Int.toNat_natCast]
      omega

theorem sending_delivery (env : CookEnv) (file front : Bytes) (first stop : Nat)
    (hlen : file.length < 2 ^ 63) :
    Delivery env file (Serves file) (Sending file front first stop)
      (fun out => out = front ++ part file first stop) (bytesLeft stop) where
  sent := fun hg => hg.sent
  given := fun r hg => ⟨hg.sent, hg.data, hg.opened, fun ha => by
    rw [await_flushed]
    exact hg.seen ha⟩
  flush := fun r h => by
    obtain ⟨pos, ha, hh, hpos, hfirst, hstop, hle, hto, hout⟩ := h
    refine ⟨pos, ha, hh, hpos, hfirst, hstop, hle, hto, ?_⟩
    rw [flushed, List.append_assoc, List.take_append_drop, hout]
  rank_flushed := fun _ _ => rfl
  perform := fun h hb hg => perform_sending env file front first stop hlen _ _ _ h hb hg

/-- Whatever the socket takes, the job sends what is in its buffer and this body, and it ends. -/
def Delivers (env : CookEnv) (file : Bytes) (j : ClientJob) (body : Bytes) : Prop :=
  ∀ ios, j.Along env file (Serves file) ios →
    (j.deliver env file ios).2.2 <+: j.sendbuf ++ body ∧
    ((j.deliver env file ios).2.1 ≠ .again → (j.deliver env file ios).2.2 = j.sendbuf ++ body) ∧
    ((∀ io ∈ ios, Moves io) → j.sendbuf.length + body.length < ios.length →
      (j.deliver env file ios).2.1 ≠ .again)

theorem part_prefix (file : Bytes) (first pos stop : Nat) (h : pos ≤ stop) :
    (file.drop first).take (pos - first) <+: part file first stop := by
  rw [part, show pos - first = min (pos - first) (stop - first) by omega, ← List.take_take]
  exact List.take_prefix _ _

theorem delivers_part (env : CookEnv) (file : Bytes) (j : ClientJob) (first stop : Nat)
    (hlen : file.length < 2 ^ 63) (ha : j.activity = .sendData) (hh : j.bIsHeadOnly = false)
    (hpos : j.nSendPos = first) (hstop : first ≤ stop) (hle : stop ≤ file.length)
    (hto : (j.nReqRangeTo < 0 ∧ stop = file.length) ∨ (j.nReqRangeTo = stop - 1 ∧ 0 < stop)) :
    j.Delivers env file (part file first stop) := by
  intro ios hg
  have hstart : Sending file j.sendbuf first stop j [] :=
    ⟨first, ha, hh, hpos, le_refl _, hstop, hle, hto, by simp⟩
  obtain ⟨hgo, hall, hend⟩ := (sending_delivery env file j.sendbuf first stop hlen).run ios hstart hg
  have hrank : bytesLeft stop j = (part file first stop).length := by
    rw [bytesLeft, hpos, part, List.length_take, List.length_drop, Int.toNat_natCast]
    omega
  rw [hrank] at hend
  refine ⟨?_, hall, hend⟩
  by_cases hres : (j.deliver env file ios).2.1 = .again
  · obtain ⟨pos, -, -, -, -, hps, -, -, hout⟩ := hgo hres
    rw [List.nil_append] at hout
    refine List.IsPrefix.trans ⟨_, hout⟩ ?_
    rw [List.prefix_append_right_inj]
    exact part_prefix file first pos stop hps
  · rw [← hall hres]
    exact List.prefix_refl _

/-- A job for a HEAD request sends no body. -/
theorem head_only_delivers (env : CookEnv) (file : Bytes) (j : ClientJob) (body : Bytes)
    (h : j.Delivers env file body) (ha : j.activity = .sendData) (hh : j.bIsHeadOnly = true)
    (hb : j.sendbuf ≠ []) : body = [] := by
  let io : SendIo := { sent := some j.sendbuf.length, data := some 0, seen := [(.complete, file.length)] }
  have hsend : j.sendData env file io =
      ((j.flushed j.sendbuf.length).returnStreamOk.1, (j.flushed j.sendbuf.length).returnStreamOk.2,
        j.sendbuf) := by
    rw [sendData_flushed env file j io j.sendbuf.length hb rfl (by simp [flushed])]
    simp [perform, flushed, ha, sendPlain, hh]
  have hend := returnStreamOk_ends (j.flushed j.sendbuf.length)
  have hdel : j.deliver env file [io] = j.sendData env file io := by
    rw [deliver, hsend]
    split
    · rename_i he
      simp only [Prod.mk.injEq] at he
      exact absurd he.2.1 hend
    · rfl
  have hgood : j.Along env file (Serves file) [io] := by
    refine ⟨⟨⟨_, rfl⟩, ⟨_, rfl⟩, rfl, fun _ => ⟨.complete, file.length, ?_, le_refl _, fun _ => rfl⟩⟩,
      fun _ => trivial⟩
    simp [io, awaitSendableState]
  have heq := (h [io] hgood).2.1 (by rw [hdel, hsend]; exact hend)
  rw [hdel, hsend] at heq
  simpa using heq

/-- The answer fits to the file: a part of it as announced, all of it, or a refusal. -/
inductive Consistent (env : CookEnv) (file : Bytes) (j : ClientJob) (fi : FileItem) : Prop
  | partly (first last : Nat) (hfirst : first ≤ last) (hlast : last < file.length)
      (head : (j.cookResponseHeader env (some (fi, []))).sendbuf =
        j.partialHead env fi first last (last - first + 1))
      (body : (j.cookResponseHeader env (some (fi, []))).Delivers env file (part file first (last + 1)))
  | whole (head : (j.cookResponseHeader env (some (fi, []))).sendbuf = j.fullHead env fi)
      (body : (j.cookResponseHeader env (some (fi, []))).Delivers env file file)
  | refused (head : j.cookResponseHeader env (some (fi, [])) =
      j.setEarlySimpleResponse env (lit "416 Requested Range Not Satisfiable"))

/-- The end of the range is open, or it lies behind the beginning and inside of the file, and it
is not taken for an open one. -/
def Sane (j : ClientJob) (length : Int) : Prop :=
  j.nReqRangeTo < 0 ∨
    (j.nReqRangeFrom ≤ j.nReqRangeTo ∧ j.nReqRangeTo < length ∧ (j.nReqRangeTo = 0 → length = 1))

/-- The answers for an item of known length. -/
theorem cook_known (env : CookEnv) (j : ClientJob) (fi : FileItem) (hs : fi.responseStatus.code = 200)
    (hlen : 0 ≤ fi.nContentLength) :
    j.cookResponseHeader env (some (fi, [])) =
      if j.notModified env fi then j.setEarlySimpleResponse env (lit "304 Not Modified") true
      else if j.unsatisfiable fi then
        j.setEarlySimpleResponse env (lit "416 Requested Range Not Satisfiable")
      else if j.servesRange fi then
        { j with
          activity := .sendData
          nSendPos := j.nReqRangeFrom
          sendbuf := j.partialHead env fi j.nReqRangeFrom
            (if 0 < j.nReqRangeTo then j.nReqRangeTo else fi.nContentLength - 1)
            (if j.nReqRangeTo < 0 then fi.nContentLength - j.nReqRangeFrom
              else offT (j.nReqRangeTo + 1 - j.nReqRangeFrom)) }
      else
        { j with
          activity := .sendData, nReqRangeTo := -1, nReqRangeFrom := 0, sendbuf := j.fullHead env fi } := by
  have hredir : fi.responseStatus.isRedirect = false := by simp [RemoteStatus.isRedirect, hs]
  have hbody : fi.responseStatus.mustNotHaveBody = false := by simp [RemoteStatus.mustNotHaveBody, hs]
  have hchunk : ∀ k : ClientJob, k.goChunked fi = false := by
    intro k
    simp only [goChunked, Bool.and_eq_false_imp, Bool.and_eq_true, decide_eq_true_eq]
    omega
  simp only [cookResponseHeader, List.isEmpty_nil, hredir, hbody, hs, hchunk]
  rfl

theorem partialHead_inj (env : CookEnv) (j : ClientJob) (fi : FileItem) (first last cl first' last' cl' : Int)
    (h : j.partialHead env fi first last cl = j.partialHead env fi first' last' cl') :
    first = first' ∧ last = last' ∧ cl = cl' := by
  simp only [partialHead, List.append_assoc, List.append_cancel_left_eq] at h
  obtain ⟨h1, h⟩ := dec_append_inj _ _ 45 45 _ _ rfl rfl h
  obtain ⟨h2, h⟩ := dec_append_inj _ _ 47 47 _ _ rfl rfl (List.cons.inj h).2
  replace h : dec fi.nContentLength ++ (crlf ++ (lit "Content-Length: " ++ (dec cl ++ (crlf ++ _)))) =
    dec fi.nContentLength ++ (crlf ++ (lit "Content-Length: " ++ (dec cl' ++ (crlf ++ _)))) :=
    (List.cons.inj h).2
  simp only [List.append_cancel_left_eq] at h
  exact ⟨h1, h2, (dec_append_inj _ _ 13 13 _ _ rfl rfl h).1⟩

theorem append_ne_of_take {a b x y : Bytes} (n : Nat) (ha : n ≤ a.length) (hb : n ≤ b.length)
    (h : a.take n ≠ b.take n) : a ++ x ≠ b ++ y := by
  intro he
  have ht := congrArg (List.take n) he
  rw [List.take_append_of_le_length ha, List.take_append_of_le_length hb] at ht
  exact h ht

theorem partialHead_ne_fullHead (env : CookEnv) (j : ClientJob) (fi : FileItem) (first last cl : Int) :
    j.partialHead env fi first last cl ≠ j.fullHead env fi := by
  intro h
  simp only [partialHead, fullHead, List.append_assoc, List.append_cancel_left_eq] at h
  exact append_ne_of_take 3 (by decide) (by decide) (by decide) h

theorem not_modified_inconsistent (env : CookEnv) (file : Bytes) (j : ClientJob) (fi : FileItem)
    (hr : j.cookResponseHeader env (some (fi, [])) =
      j.setEarlySimpleResponse env (lit "304 Not Modified") true) : ¬ j.Consistent env file fi := by
  intro h
  cases h with
  | partly first last hfirst hlast head body =>
    rw [hr] at head
    simp only [setEarlySimpleResponse, partialHead, List.append_assoc, if_true,
      List.append_cancel_left_eq] at head
    exact append_ne_of_take 3 (by decide) (by decide) (by decide) head
  | whole head body =>
    rw [hr] at head
    simp only [setEarlySimpleResponse, fullHead, List.append_assoc, if_true,
      List.append_cancel_left_eq] at head
    exact append_ne_of_take 3 (by decide) (by decide) (by decide) head
  | refused head =>
    rw [hr] at head
    have hb := congrArg ClientJob.sendbuf head
    simp only [setEarlySimpleResponse, List.append_assoc, if_true, Bool.false_eq_true, if_false,
      List.append_cancel_left_eq] at hb
    exact append_ne_of_take 3 (by decide) (by decide) (by decide) hb

theorem partialHead_ne (env : CookEnv) (j : ClientJob) (fi : FileItem) (first last cl : Int) :
    j.partialHead env fi first last cl ≠ [] := by
  intro h
  simp only [partialHead, List.append_assoc, List.append_eq_nil_iff] at h
  exact absurd h.2.1 (by decide)

theorem fullHead_ne (env : CookEnv) (j : ClientJob) (fi : FileItem) : j.fullHead env fi ≠ [] := by
  intro h
  simp only [fullHead, List.append_assoc, List.append_eq_nil_iff] at h
  exact absurd h.2.1 (by decide)

theorem whole_consistent_iff (env : CookEnv) (file : Bytes) (j : ClientJob) (fi : FileItem)
    (hpos : 0 < file.length) (hfit : file.length < 2 ^ 63) (h0 : j.nSendPos = 0)
    (hr : j.cookResponseHeader env (some (fi, [])) =
      { j with
        activity := .sendData, nReqRangeTo := -1, nReqRangeFrom := 0, sendbuf := j.fullHead env fi }) :
    j.Consistent env file fi ↔ j.bIsHeadOnly = false := by
  constructor
  · intro h
    cases h with
    | partly first last hfirst hlast head body =>
      rw [hr] at head
      exact absurd head.symm (partialHead_ne_fullHead env j fi _ _ _)
    | whole head body =>
      rw [hr] at body
      rw [← Bool.not_eq_true]
      intro hh
      have := head_only_delivers env file _ file body rfl hh (fullHead_ne env j fi)
      simp [this] at hpos
    | refused head =>
      rw [hr] at head
      cases congrArg ClientJob.activity head
  · intro hh
    refine .whole (by rw [hr]) ?_
    rw [hr]
    have := delivers_part env file
      { j with activity := .sendData, nReqRangeTo := -1, nReqRangeFrom := 0, sendbuf := j.fullHead env fi }
      0 file.length hfit rfl hh h0 (Nat.zero_le _) (le_refl _) (.inl ⟨by simp, rfl⟩)
    simpa [part] using this

/-- The announced last byte and length fit each other and the file exactly for sane ranges. -/
theorem announced_iff_sane (j : ClientJob) (first length : Nat) (hf : j.nReqRangeFrom = first)
    (hin : first < length) (hfit : length < 2 ^ 63) :
    (∃ last : Nat, first ≤ last ∧ last < length ∧
      (if 0 < j.nReqRangeTo then j.nReqRangeTo else (length : Int) - 1) = last ∧
      (if j.nReqRangeTo < 0 then (length : Int) - j.nReqRangeFrom
        else offT (j.nReqRangeTo + 1 - j.nReqRangeFrom)) = last - first + 1) ↔ j.Sane length := by
  constructor
  · rintro ⟨last, hfl, hll, h2, h3⟩
    rcases Int.lt_trichotomy j.nReqRangeTo 0 with hneg | hz | hp
    · exact .inl hneg
    · rw [hz, if_neg (by decide), offT_of_range _ (by omega) (by omega)] at h3
      rw [hz, if_neg (by decide)] at h2
      exact .inr ⟨by omega, by omega, fun _ => by omega⟩
    · rw [if_pos hp] at h2
      exact .inr ⟨by omega, by omega, fun h => by omega⟩
  · rintro (hneg | ⟨h1, h2, h3⟩)
    · refine ⟨length - 1, by omega, by omega, ?_, ?_⟩
      · rw [if_neg (by omega)]
        omega
      · rw [if_pos hneg]
        omega
    · refine ⟨j.nReqRangeTo.toNat, by omega, by omega, ?_, ?_⟩
      · split <;> omega
      · rw [if_neg (by omega), offT_of_range _ (by omega) (by omega)]
        omega

theorem partly_consistent_iff (env : CookEnv) (file : Bytes) (j : ClientJob) (fi : FileItem)
    (hlen : fi.nContentLength = file.length) (hfit : file.length < 2 ^ 63)
    (hu : j.unsatisfiable fi = false) (hsv : j.servesRange fi = true)
    (hr : j.cookResponseHeader env (some (fi, [])) =
      { j with
        activity := .sendData
        nSendPos := j.nReqRangeFrom
        sendbuf := j.partialHead env fi j.nReqRangeFrom
          (if 0 < j.nReqRangeTo then j.nReqRangeTo else fi.nContentLength - 1)
          (if j.nReqRangeTo < 0 then fi.nContentLength - j.nReqRangeFrom
            else offT (j.nReqRangeTo + 1 - j.nReqRangeFrom)) }) :
    j.Consistent env file fi ↔ j.bIsHeadOnly = false ∧ j.Sane file.length := by
  simp only [unsatisfiable, servesRange, Bool.and_eq_false_imp, Bool.or_eq_false_iff, Bool.and_eq_true,
    decide_eq_true_eq, decide_eq_false_iff_not] at hu hsv
  obtain ⟨⟨hfrom, -⟩, -⟩ := hsv
  obtain ⟨hin, -⟩ := hu (by omega)
  obtain ⟨first, hf⟩ := Int.eq_ofNat_of_zero_le hfrom
  rw [hlen] at hin hr
  have hsane := announced_iff_sane j first file.length hf (by omega) hfit
  constructor
  · intro h
    cases h with
    | partly first' last hfirst hlast head body =>
      refine ⟨?_, ?_⟩
      · rw [hr] at body
        rw [← Bool.not_eq_true]
        intro hh
        have := head_only_delivers env file _ _ body rfl hh (partialHead_ne env j fi _ _ _)
        have hl := congrArg List.length this
        rw [part, List.length_take, List.length_drop, List.length_nil] at hl
        omega
      · rw [hr] at head
        obtain ⟨h1, h2, h3⟩ := partialHead_inj env j fi _ _ _ _ _ _ head
        have he : first' = first := by omega
        subst he
        exact hsane.mp ⟨last, hfirst, hlast, h2, h3⟩
    | whole head body =>
      rw [hr] at head
      exact absurd head (partialHead_ne_fullHead env j fi _ _ _)
    | refused head =>
      rw [hr] at head
      cases congrArg ClientJob.activity head
  · rintro ⟨hh, hs⟩
    obtain ⟨last, hfl, hll, h2, h3⟩ := hsane.mpr hs
    -- the loop goes to the end that the head announces
    have hstop : (j.nReqRangeTo < 0 ∧ last + 1 = file.length) ∨ j.nReqRangeTo = last := by
      rcases hs with hneg | ⟨-, -, hone⟩
      · rw [if_neg (by omega)] at h2
        exact .inl ⟨hneg, by omega⟩
      · split at h2
        · exact .inr h2
        · by_cases hneg : j.nReqRangeTo < 0
          · exact .inl ⟨hneg, by omega⟩
          · have := hone (by omega)
            exact .inr (by omega)
    rw [h2, h3, hf] at hr
    refine .partly first last hfl hll (by rw [hr]) ?_
    rw [hr]
    refine delivers_part env file _ first (last + 1) hfit rfl hh rfl (by omega) hll ?_
    rcases hstop with hstop | hstop
    · exact .inl hstop
    · refine .inr ⟨?_, by omega⟩
      simp only [hstop]
      omega

theorem consistent_iff (env : CookEnv) (file : Bytes) (j : ClientJob) (fi : FileItem)
    (hs : fi.responseStatus.code = 200) (hlen : fi.nContentLength = file.length) (hpos : 0 < file.length)
    (hfit : file.length < 2 ^ 63) (h0 : j.nSendPos = 0) :
    j.Consistent env file fi ↔
      j.notModified env fi = false ∧
        (j.unsatisfiable fi = true ∨
          (j.bIsHeadOnly = false ∧ (j.servesRange fi = true → j.Sane file.length))) := by
  have hr := cook_known env j fi hs (by omega)
  cases hm : j.notModified env fi with
  | true =>
    rw [hm, if_pos rfl] at hr
    simp [not_modified_inconsistent env file j fi hr]
  | false =>
    rw [hm, if_neg (by simp)] at hr
    cases hu : j.unsatisfiable fi with
    | true =>
      rw [hu, if_pos rfl] at hr
      simp [Consistent.refused hr]
    | false =>
      rw [hu, if_neg (by simp)] at hr
      cases hsv : j.servesRange fi with
      | true =>
        rw [hsv, if_pos rfl] at hr
        simp [partly_consistent_iff env file j fi hlen hfit hu hsv hr]
      | false =>
        rw [hsv, if_neg (by simp)] at hr
        simp [whole_consistent_iff env file j fi hpos hfit h0 hr]

/-- For every Range value the answer is consistent, unless the item was not modified, no body is
wanted, or a range is served that is reversed, or is the first byte only, or ends at the largest
number. -/
theorem range_consistent_iff (env : CookEnv) (file : Bytes) (j : ClientJob) (h : Header) (fi : FileItem)
    (hs : fi.responseStatus.code = 200) (hlen : fi.nContentLength = file.length) (hpos : 0 < file.length)
    (hfit : file.length < 2 ^ 63) (h0 : j.nSendPos = 0) :
    (j.parseRange h).2.Consistent env file fi ↔
      (j.parseRange h).2.notModified env fi = false ∧
        ((j.parseRange h).2.unsatisfiable fi = true ∨
          ((j.parseRange h).2.bIsHeadOnly = false ∧
            ((j.parseRange h).2.servesRange fi = true → (j.parseRange h).2.Sane file.length))) := by
  refine consistent_iff env file _ fi hs hlen hpos hfit ?_
  unfold parseRange
  split
  · exact h0
  · split <;> exact h0

/-- A request for a part of a file with four bytes. -/
def rangeJob (range : String) : ClientJob :=
  (({} : ClientJob).parseRange { h := fun p => if p = .range then some (lit range) else none }).2

def fourBytes : FileItem :=
  { status := .complete, responseStatus := ⟨200, lit "OK"⟩, nContentLength := 4, nSizeChecked := 4 }

theorem range_consistent_middle :
    (rangeJob "bytes=1-2").Consistent { dates := plainEnv.dates } (lit "abcd") fourBytes :=
  (range_consistent_iff { dates := plainEnv.dates } (lit "abcd") {} _ fourBytes rfl (by decide)
    (by decide) (by decide) rfl).mpr (by unfold Sane; decide)

/-- The first byte is announced as the whole file with a length of one. -/
theorem first_byte_inconsistent :
    ¬ (rangeJob "bytes=0-0").Consistent { dates := plainEnv.dates } (lit "abcd") fourBytes := by
  rw [consistent_iff _ _ _ _ rfl (by decide) (by decide) (by decide) (by decide)]
  unfold Sane
  decide

end ClientJob

end Acng
