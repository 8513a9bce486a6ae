import Acng.TransferLog
import Acng.Proofs.Decimal

namespace Acng
open Lib

namespace ConnLog

variable (cfg : LogCfg) (m_sClientHost : Bytes)

/-- File and client of a call. -/
def pairOf (counts : DataCounts) : Bytes × Bytes := (counts.sFile, sClientOf cfg m_sClientHost counts.xff)

/-- A record says what the calls of its pair said together. -/
structure Covers (calls : List DataCounts) (r : TransferRecord) : Prop where
  pair : ∀ counts ∈ calls, pairOf cfg m_sClientHost counts = (r.sPath, r.sClient)
  bytesIn : r.bytesIn = (calls.map DataCounts.nNewIn).sum
  bytesOut : r.bytesOut = (calls.map DataCounts.nNewOut).sum
  error : r.bAsError = true ↔ ∃ counts ∈ calls, counts.bAsError = true

/-- Some calls and the record that follows them. -/
def part (calls : List DataCounts) (r : TransferRecord) : List LogEvent := calls.map .reported ++ [.written r]

/-- The record that is written next. -/
def pending (st : ConnLog) : TransferRecord :=
  ⟨st.fileTransferIn, st.fileTransferOut, st.logClient, st.logFile, st.m_bLogAsError⟩

/-- Each record covers the calls since the one before, and what is collected covers the calls since the last. -/
structure Accounted (calls : List DataCounts) (st : ConnLog) (closed : List (List DataCounts × TransferRecord))
    (since : List DataCounts) : Prop where
  calls_eq : calls = closed.flatMap Prod.fst ++ since
  trace_eq : st.trace = closed.flatMap (fun e => part e.1 e.2) ++ since.map .reported
  covers : ∀ e ∈ closed, Covers cfg m_sClientHost e.1 e.2
  pending : Covers cfg m_sClientHost since st.pending

variable {cfg m_sClientHost}

theorem Covers.nil (sClient sPath : Bytes) : Covers cfg m_sClientHost [] { sClient, sPath } :=
  ⟨nofun, rfl, rfl, by simp⟩

theorem Covers.add {calls : List DataCounts} {r : TransferRecord} (h : Covers cfg m_sClientHost calls r)
    {counts : DataCounts} (hpair : pairOf cfg m_sClientHost counts = (r.sPath, r.sClient)) :
    Covers cfg m_sClientHost (calls ++ [counts])
      ⟨r.bytesIn + counts.nNewIn, r.bytesOut + counts.nNewOut, r.sClient, r.sPath,
        r.bAsError || counts.bAsError⟩ where
  pair c hc := by
    obtain hc | hc := List.mem_append.mp hc
    · exact h.pair c hc
    · rw [List.mem_singleton.mp hc]
      exact hpair
  bytesIn := by simp [h.bytesIn]
  bytesOut := by simp [h.bytesOut]
  error := by
    rw [Bool.or_eq_true, h.error]
    simp only [List.mem_append, List.mem_singleton, or_and_right, exists_or, exists_eq_left]

theorem Accounted.write {calls : List DataCounts} {st : ConnLog}
    {closed : List (List DataCounts × TransferRecord)} {since : List DataCounts}
    (h : Accounted cfg m_sClientHost calls st closed since) (pNewFile pNewClient : Bytes) :
    Accounted cfg m_sClientHost calls (st.writeAnotherLogRecord pNewFile pNewClient)
      (closed ++ [(since, st.pending)]) [] where
  calls_eq := by simp [h.calls_eq]
  trace_eq := by
    rw [writeAnotherLogRecord, h.trace_eq]
    simp [part, ConnLog.pending]
  covers e he := by
    obtain he | he := List.mem_append.mp he
    · exact h.covers e he
    · rw [List.mem_singleton.mp he]
      exact h.pending
  pending := Covers.nil pNewClient pNewFile

/-- The counts of a call are added to those of its own pair. -/
theorem Accounted.add {calls : List DataCounts} {st : ConnLog}
    {closed : List (List DataCounts × TransferRecord)} {since : List DataCounts}
    (h : Accounted cfg m_sClientHost calls st closed since) {counts : DataCounts}
    (hpair : pairOf cfg m_sClientHost counts = (st.logFile, st.logClient)) :
    Accounted cfg m_sClientHost (calls ++ [counts])
      { st with
        fileTransferIn := st.fileTransferIn + counts.nNewIn
        fileTransferOut := st.fileTransferOut + counts.nNewOut
        m_bLogAsError := st.m_bLogAsError || counts.bAsError
        trace := st.trace ++ [.reported counts] }
      closed (since ++ [counts]) where
  calls_eq := by rw [h.calls_eq, List.append_assoc]
  trace_eq := by
    rw [h.trace_eq, List.append_assoc, List.map_append]
    rfl
  covers := h.covers
  pending := h.pending.add hpair

theorem Accounted.logDataCounts {calls : List DataCounts} {st : ConnLog}
    {closed : List (List DataCounts × TransferRecord)} {since : List DataCounts}
    (h : Accounted cfg m_sClientHost calls st closed since) (counts : DataCounts) :
    ∃ closed since, Accounted cfg m_sClientHost (calls ++ [counts])
      (st.logDataCounts cfg m_sClientHost counts) closed since := by
  unfold ConnLog.logDataCounts
  simp only
  split
  · exact ⟨_, _, (h.write counts.sFile (sClientOf cfg m_sClientHost counts.xff)).add rfl⟩
  · rename_i hsame
    push Not at hsame
    refine ⟨_, _, h.add ?_⟩
    rw [pairOf, hsame.1, hsame.2]

theorem run_accounted (calls : List DataCounts) :
    ∃ closed since, Accounted cfg m_sClientHost calls (calls.foldl (ConnLog.logDataCounts cfg m_sClientHost) {})
      closed since := by
  induction calls using List.reverseRecOn with
  | nil => exact ⟨[], [], rfl, rfl, nofun, Covers.nil [] []⟩
  | append_singleton calls counts ih =>
    obtain ⟨closed, since, h⟩ := ih
    rw [List.foldl_append]
    exact h.logDataCounts counts

/-- The whole trace is made of parts: some calls, and the record that covers them. -/
theorem run_parts (calls : List DataCounts) :
    ∃ parts : List (List DataCounts × TransferRecord), parts.flatMap Prod.fst = calls ∧
      ConnLog.run cfg m_sClientHost calls = parts.flatMap (fun e => part e.1 e.2) ∧
      ∀ e ∈ parts, Covers cfg m_sClientHost e.1 e.2 := by
  obtain ⟨closed, since, h⟩ := @run_accounted cfg m_sClientHost calls
  have hend := h.write [] []
  refine ⟨_, ?_, ?_, hend.covers⟩
  · exact (List.append_nil _).symm.trans hend.calls_eq.symm
  · exact hend.trace_eq.trans (List.append_nil _)

/-- A record counts for its pair alone, with all that the calls of this pair said. -/
theorem Covers.sum_filter {calls : List DataCounts} {r : TransferRecord} (h : Covers cfg m_sClientHost calls r)
    (pair : Bytes × Bytes) (said : DataCounts → Nat) (n : Nat) (hn : n = (calls.map said).sum) :
    (if (r.sPath, r.sClient) = pair then n else 0) =
      ((calls.filter (fun counts => pairOf cfg m_sClientHost counts = pair)).map said).sum := by
  split
  · rename_i hpair
    rw [List.filter_eq_self.mpr, hn]
    intro counts hcounts
    rw [h.pair counts hcounts, decide_eq_true hpair]
  · rename_i hpair
    rw [List.filter_eq_nil_iff.mpr]
    · rfl
    · intro counts hcounts
      rw [h.pair counts hcounts, decide_eq_true_eq]
      exact hpair

theorem records_parts (parts : List (List DataCounts × TransferRecord)) :
    records (parts.flatMap (fun e => part e.1 e.2)) = parts.map Prod.snd := by
  have hreported (calls : List DataCounts) : records (calls.map .reported) = [] := by
    rw [records, List.filterMap_map, List.filterMap_eq_nil_iff]
    exact fun _ _ => rfl
  induction parts with
  | nil => rfl
  | cons e parts ih =>
    rw [records, List.flatMap_cons, List.filterMap_append, ← records, ← records, ih, part, records,
      List.filterMap_append, ← records, hreported]
    rfl

theorem sum_parts {parts : List (List DataCounts × TransferRecord)}
    (hcovers : ∀ e ∈ parts, Covers cfg m_sClientHost e.1 e.2) (pair : Bytes × Bytes) (said : DataCounts → Nat)
    (written : TransferRecord → Nat) (hwritten : ∀ e ∈ parts, written e.2 = (e.1.map said).sum) :
    (((parts.map Prod.snd).filter (fun r => (r.sPath, r.sClient) = pair)).map written).sum =
      (((parts.flatMap Prod.fst).filter (fun counts => pairOf cfg m_sClientHost counts = pair)).map said).sum := by
  induction parts with
  | nil => rfl
  | cons e parts ih =>
    have hhead := (hcovers e List.mem_cons_self).sum_filter pair said (written e.2) (hwritten e List.mem_cons_self)
    have htail := ih (fun e he => hcovers e (List.mem_cons_of_mem _ he))
      (fun e he => hwritten e (List.mem_cons_of_mem _ he))
    rw [List.flatMap_cons, List.filter_append, List.map_append, List.sum_append, ← hhead, ← htail, List.map_cons,
      List.filter_cons]
    by_cases hpair : (e.2.sPath, e.2.sClient) = pair
    · rw [if_pos (decide_eq_true hpair), if_pos hpair, List.map_cons, List.sum_cons]
    · rw [if_neg (by simpa using hpair), if_neg hpair, Nat.zero_add]

/-- The lines that are written for the records. -/
def logLines (cfg : LogCfg) (trace : List LogEvent) : List LogLine := (records trace).flatMap (transfer cfg)

/-- The bytes of the lines of some kind for a pair. -/
def lineBytes (pair : Bytes × Bytes) (kind : LineKind → Bool) (lines : List LogLine) : Nat :=
  ((lines.filter (fun line => kind line.kind ∧ line.names = some (pair.2, pair.1))).map LogLine.bytes).sum

theorem lineBytes_append (pair : Bytes × Bytes) (kind : LineKind → Bool) (l l' : List LogLine) :
    lineBytes pair kind (l ++ l') = lineBytes pair kind l + lineBytes pair kind l' := by
  rw [lineBytes, List.filter_append, List.map_append, List.sum_append]
  rfl

/-- No line is written for no bytes. -/
theorem lineBytes_one (pair : Bytes × Bytes) (kind : LineKind → Bool) (k : LineKind) (n : Nat)
    (names : Option (Bytes × Bytes)) :
    lineBytes pair kind (if n ≠ 0 then [⟨k, n, names⟩] else []) =
      if kind k = true ∧ names = some (pair.2, pair.1) then n else 0 := by
  by_cases hn : n = 0
  · rw [if_neg (not_not.mpr hn), hn, ite_self]
    rfl
  · rw [if_pos hn, lineBytes, List.filter_singleton]
    by_cases hline : kind k = true ∧ names = some (pair.2, pair.1)
    · rw [if_pos hline, decide_eq_true hline]
      rfl
    · rw [if_neg hline, decide_eq_false hline]
      rfl

theorem lineBytes_transfer (hopen : cfg.isOpen = true) (hverbose : cfg.verboselog = true) (pair : Bytes × Bytes)
    (r : TransferRecord) :
    lineBytes pair (· == .I) (transfer cfg r) = (if (r.sPath, r.sClient) = pair then r.bytesIn else 0) ∧
      lineBytes pair (· != .I) (transfer cfg r) = if (r.sPath, r.sClient) = pair then r.bytesOut else 0 := by
  obtain ⟨sPath, sClient⟩ := pair
  have hnames : some (r.sClient, r.sPath) = some (sClient, sPath) ↔ (r.sPath, r.sClient) = (sPath, sClient) := by
    simp [and_comm]
  simp only [transfer, hopen, hverbose, if_true, lineBytes_append, lineBytes_one, hnames]
  cases r.bAsError <;> simp

theorem lineBytes_flatMap (pair : Bytes × Bytes) (kind : LineKind → Bool) (n : TransferRecord → Nat)
    (hone : ∀ r, lineBytes pair kind (transfer cfg r) = if (r.sPath, r.sClient) = pair then n r else 0)
    (l : List TransferRecord) :
    lineBytes pair kind (l.flatMap (transfer cfg)) =
      ((l.filter (fun r => (r.sPath, r.sClient) = pair)).map n).sum := by
  induction l with
  | nil => rfl
  | cons r l ih =>
    rw [List.flatMap_cons, lineBytes_append, ih, hone, List.filter_cons]
    by_cases hpair : (r.sPath, r.sClient) = pair
    · rw [if_pos hpair, if_pos (decide_eq_true hpair), List.map_cons, List.sum_cons]
    · rw [if_neg hpair, if_neg (by simpa using hpair), Nat.zero_add]

/-- What was written for each file and client is what was reported for them, and a record is one of an error if
this was reported since the record before. -/
structure Conserved (cfg : LogCfg) (m_sClientHost : Bytes) (calls : List DataCounts)
    (trace : List LogEvent) : Prop where
  parts : ∃ parts : List (List DataCounts × TransferRecord), parts.flatMap Prod.fst = calls ∧
    trace = parts.flatMap (fun e => part e.1 e.2) ∧ ∀ e ∈ parts, Covers cfg m_sClientHost e.1 e.2
  sums (pair : Bytes × Bytes) (l : List TransferRecord) (own : List DataCounts) :
    l = (records trace).filter (fun r => (r.sPath, r.sClient) = pair) →
    own = calls.filter (fun counts => pairOf cfg m_sClientHost counts = pair) →
      (l.map TransferRecord.bytesIn).sum = (own.map DataCounts.nNewIn).sum ∧
      (l.map TransferRecord.bytesOut).sum = (own.map DataCounts.nNewOut).sum
  lines (pair : Bytes × Bytes) (own : List DataCounts) : cfg.isOpen = true → cfg.verboselog = true →
    own = calls.filter (fun counts => pairOf cfg m_sClientHost counts = pair) →
      lineBytes pair (· == .I) (logLines cfg trace) = (own.map DataCounts.nNewIn).sum ∧
      lineBytes pair (· != .I) (logLines cfg trace) = (own.map DataCounts.nNewOut).sum

theorem counts_conserved (cfg : LogCfg) (m_sClientHost : Bytes) (calls : List DataCounts) :
    Conserved cfg m_sClientHost calls (run cfg m_sClientHost calls) := by
  obtain ⟨parts, hcalls, htrace, hcovers⟩ := @run_parts cfg m_sClientHost calls
  have hrecords : records (run cfg m_sClientHost calls) = parts.map Prod.snd := htrace ▸ records_parts parts
  have hsums (pair : Bytes × Bytes) := And.intro
    (sum_parts hcovers pair DataCounts.nNewIn TransferRecord.bytesIn (fun e he => (hcovers e he).bytesIn))
    (sum_parts hcovers pair DataCounts.nNewOut TransferRecord.bytesOut (fun e he => (hcovers e he).bytesOut))
  rw [hcalls, ← hrecords] at hsums
  refine ⟨⟨parts, hcalls, htrace, hcovers⟩, ?_, ?_⟩
  · rintro pair _ _ rfl rfl
    exact hsums pair
  · rintro pair _ hopen hverbose rfl
    have hline (r : TransferRecord) := lineBytes_transfer hopen hverbose pair r
    rw [logLines, lineBytes_flatMap pair _ _ (fun r => (hline r).1), lineBytes_flatMap pair _ _ (fun r => (hline r).2)]
    exact hsums pair

end ConnLog

/-- Nothing in it ends a line. -/
def OneLine (s : Bytes) : Prop := ∀ c ∈ s, lineEnd c = false

instance (s : Bytes) : Decidable (OneLine s) := inferInstanceAs (Decidable (∀ c ∈ s, lineEnd c = false))

/-- A token up to the next separator. -/
theorem splitWalk_token {p : UInt8 → Bool} {tok : Bytes} (hne : tok ≠ []) (htok : ∀ c ∈ tok, p c = false)
    {sep : UInt8} (hsep : p sep = true) (rest : Bytes) :
    splitWalk p (tok ++ sep :: rest) = tok :: splitWalk p rest := by
  rw [splitWalk, List.splitOnP_append_cons_of_forall_mem htok sep hsep, List.filter_cons_of_pos (by simpa using hne)]
  rfl

theorem splitWalk_last {p : UInt8 → Bool} {tok : Bytes} (hne : tok ≠ []) (htok : ∀ c ∈ tok, p c = false) :
    splitWalk p tok = [tok] := by
  rw [splitWalk, List.splitOnP_eq_singleton htok, List.filter_cons_of_pos (by simpa using hne)]
  rfl

theorem dec_noBar (n : Nat) : ∀ c ∈ dec n, (c == (124 : UInt8)) = false := by
  intro c hc
  have hd := dec_digits n c hc
  rw [beq_eq_false_iff_ne]
  rintro rfl
  cases hd

/-- What stands in front of the line end. -/
def LogLine.body (tNow : Nat) (l : LogLine) : Bytes :=
  dec tNow ++ 124 :: l.kind.char :: 124 :: (dec l.bytes ++
    match l.names with
    | some (sClient, sPath) => 124 :: (sClient ++ 124 :: sPath)
    | none => [])

theorem LogLine.text_eq (tNow : Nat) (l : LogLine) : l.text tNow = l.body tNow ++ [10] := by
  unfold LogLine.text LogLine.body
  cases l.names <;> simp

theorem LogLine.tokens (tNow : Nat) (l : LogLine) :
    ∃ more, splitWalk (· == 124) (l.body tNow) = dec tNow :: [l.kind.char] :: dec l.bytes :: more := by
  have hkind : ∀ c ∈ [l.kind.char], (c == (124 : UInt8)) = false := by
    intro c hc
    rw [List.mem_singleton] at hc
    subst hc
    cases l.kind <;> rfl
  have hfront : ∀ rest, splitWalk (· == 124) (dec tNow ++ 124 :: l.kind.char :: 124 :: rest) =
      dec tNow :: [l.kind.char] :: splitWalk (· == 124) rest := by
    intro rest
    rw [splitWalk_token (dec_ne tNow) (dec_noBar tNow) rfl]
    exact congrArg _ (splitWalk_token (List.cons_ne_nil _ _) hkind rfl rest)
  rw [LogLine.body, hfront]
  cases l.names with
  | none =>
    simp only [List.append_nil]
    rw [splitWalk_last (dec_ne l.bytes) (dec_noBar l.bytes)]
    exact ⟨[], rfl⟩
  | some names =>
    rw [splitWalk_token (dec_ne l.bytes) (dec_noBar l.bytes) rfl]
    exact ⟨_, rfl⟩

/-- The days of the report, whatever was counted in them. -/
def Days (now : Int) (out : List RowData) : Prop :=
  out.map (fun row => (row.fromTime, row.toTime)) = (statRows now).map (fun row => (row.fromTime, row.toTime))

theorem Days.day {now : Int} {out : List RowData} (h : Days now out) {row : RowData} (hrow : row ∈ out) :
    ∃ i : Nat, i < 7 ∧ row.toTime = now - i * daySeconds ∧ row.fromTime = row.toTime - daySeconds := by
  have hmem : (row.fromTime, row.toTime) ∈ (statRows now).map (fun row => (row.fromTime, row.toTime)) :=
    h ▸ List.mem_map_of_mem hrow
  simp only [statRows, List.map_map, List.mem_map, List.mem_range, Function.comp_apply, Prod.mk.injEq] at hmem
  obtain ⟨i, hi, hfrom, hto⟩ := hmem
  exact ⟨i, hi, hto.symm, by rw [← hfrom, ← hto]⟩

theorem Days.head {now : Int} {out : List RowData} (h : Days now out) : out.head?.map (·.toTime) = some now := by
  have hhead := congrArg (fun l => l.head?.map Prod.snd) h
  simp only [List.head?_map, Option.map_map, Function.comp_def] at hhead
  rw [hhead]
  simp [statRows, List.range_succ]

theorem Days.last {now : Int} {out : List RowData} (h : Days now out) :
    out.getLast?.map (·.fromTime) = some (now - 7 * daySeconds) := by
  have hlast := congrArg (fun l => l.getLast?.map Prod.fst) h
  simp only [List.getLast?_map, Option.map_map, Function.comp_def] at hlast
  rw [hlast]
  simp [statRows, List.range_succ, daySeconds]
  omega

/-- A time in front of the first day or behind the last one is in no row. -/
theorem Days.outside {now : Int} {out : List RowData} (h : Days now out) {time : Int}
    (hout : (out.head?.any (·.toTime < time) || out.getLast?.any (time < ·.fromTime)) = true) :
    ∀ row ∈ out, row.has time = false := by
  have hfar : now < time ∨ time < now - 7 * daySeconds := by
    have hhead := h.head
    have hlast := h.last
    rw [Option.map_eq_some_iff] at hhead hlast
    obtain ⟨first, hfirst, hto⟩ := hhead
    obtain ⟨last, hlast, hfrom⟩ := hlast
    simpa [hfirst, hlast, hto, hfrom] using hout
  intro row hrow
  obtain ⟨i, hi, hto, hfrom⟩ := h.day hrow
  simp only [RowData.has, Bool.and_eq_false_iff, decide_eq_false_iff_not, daySeconds] at hfar hto hfrom ⊢
  omega

/-- What a call is to be in the log: its numbers fit, and its texts are on one line. -/
def LogCall.Plain : LogCall → Prop
  | .transfer tNow r =>
    tNow < 2 ^ 63 ∧ r.bytesIn < 2 ^ 64 ∧ r.bytesOut < 2 ^ 64 ∧ OneLine r.sClient ∧ OneLine r.sPath
  | .misc _ sLine cLogType => OneLine sLine ∧ (cLogType = 77 ∨ cLogType = 88)

instance (call : LogCall) : Decidable call.Plain :=
  match call with
  | .transfer tNow r => inferInstanceAs (Decidable
      (tNow < 2 ^ 63 ∧ r.bytesIn < 2 ^ 64 ∧ r.bytesOut < 2 ^ 64 ∧ OneLine r.sClient ∧ OneLine r.sPath))
  | .misc _ sLine cLogType => inferInstanceAs (Decidable (OneLine sLine ∧ (cLogType = 77 ∨ cLogType = 88)))

theorem Days.map {now : Int} {out : List RowData} (h : Days now out) {f : RowData → RowData}
    (hf : ∀ row, (f row).fromTime = row.fromTime ∧ (f row).toTime = row.toTime) : Days now (out.map f) := by
  unfold Days at h ⊢
  rw [List.map_map, ← h]
  refine List.map_congr_left (fun row _ => ?_)
  exact Prod.ext (hf row).1 (hf row).2

/-- The lines of a call, without their ends. -/
def LogCall.bodies (cfg : LogCfg) : LogCall → List Bytes
  | .transfer tNow r => (Acng.transfer cfg r).map (LogLine.body tNow)
  | .misc tNow sLine cLogType => if cfg.isOpen then [dec tNow ++ 124 :: cLogType :: 124 :: sLine] else []

theorem LogCall.text_eq (cfg : LogCfg) (call : LogCall) :
    call.text cfg = (call.bodies cfg).flatMap (· ++ [10]) := by
  cases call with
  | transfer tNow r =>
    simp only [LogCall.text, LogCall.bodies, List.flatMap_map]
    exact congrArg (List.flatMap · _) (funext (LogLine.text_eq tNow))
  | misc tNow sLine cLogType =>
    simp only [LogCall.text, LogCall.bodies]
    split <;> simp

/-- What is reported for these records. -/
def RowData.total (row : RowData) (l : List TransferRecord) : RowData :=
  { row with
    byteIn := (l.map (·.bytesIn)).sum % 2 ^ 64
    byteOut := ((l.filter (!·.bAsError)).map (·.bytesOut)).sum % 2 ^ 64
    reqIn := l.countP (·.bytesIn ≠ 0) % 2 ^ 64
    reqOut := l.countP (fun r => r.bytesOut ≠ 0 && !r.bAsError) % 2 ^ 64 }

/-- A counter that was stored is read back. -/
theorem strsizeToOfft_dec (n : Nat) (hn : n < 2 ^ 63) : strsizeToOfft ((dec n).take 29) = n := by
  have hlen := dec_length (n := n) (k := 19) (by decide) (by omega)
  have hread := strtoull_digits (x := []) (dec_ne n) (dec_digits n) rfl
  rw [List.append_nil, decimal_dec, Nat.min_eq_left (by omega)] at hread
  rw [List.take_of_length_le (by omega), strsizeToOfft, hread]
  simp only [cstr, List.takeWhile_nil, List.dropWhile_nil, List.head?_nil, offT]
  omega

namespace Counters

/-- The counter is among those that are read later. -/
def Stores (s : Counters) (io : CloseIo) : Prop :=
  io.linkIn = true ∧ (s.dirIn.map Prod.fst).contains io.name = false ∧ OldCounter.isRead (io.name, dec s.totalIn) = true

instance (s : Counters) (io : CloseIo) : Decidable (s.Stores io) :=
  inferInstanceAs (Decidable (_ ∧ _ ∧ _))

/-- The steps after which the check does not compare with what came in since the last expiration. -/
def Spoils (s : Counters) : CounterAct → Prop
  | .reopen io => s.totalIn ≠ 0 ∧ (s.oldCounters ≠ (0, 0) ∨ ¬ s.Stores io)
  | .restart io => s.lastCurrentDlCount ≠ if s.Stores io then 0 else (s.totalIn : Int)
  | .killed => s.lastCurrentDlCount ≠ s.totalIn
  | .finish => s.newLastIncommingOffset.any (fun offset => (s.totalIn : Int) ≠ offset + s.sinceBegin) = true
  | _ => False

instance (s : Counters) (a : CounterAct) : Decidable (s.Spoils a) :=
  match a with
  | .reopen io => inferInstanceAs (Decidable (s.totalIn ≠ 0 ∧ (s.oldCounters ≠ (0, 0) ∨ ¬ s.Stores io)))
  | .restart io =>
    inferInstanceAs (Decidable (s.lastCurrentDlCount ≠ if s.Stores io then 0 else (s.totalIn : Int)))
  | .killed => inferInstanceAs (Decidable (s.lastCurrentDlCount ≠ s.totalIn))
  | .finish => inferInstanceAs (Decidable (Option.any _ _ = true))
  | .transfer .. | .page | .begin _ | .giveUp => .isFalse (fun h => h)

/-- The counters tell what came in, and those that are kept in memory are those on the disk. -/
structure Exact (s : Counters) : Prop where
  fits : s.totalIn < 2 ^ 63
  kept : s.oldCounters = (0, 0) ∨ s.oldCounters.1 = sumOldCounters s.dirIn
  sum : (s.totalIn : Int) - s.lastCurrentDlCount + sumOldCounters s.dirIn = s.since

theorem old_of_kept {s : Counters} (h : s.oldCounters = (0, 0) ∨ s.oldCounters.1 = sumOldCounters s.dirIn) :
    s.getOldCountersInOut.oldCounters.1 = sumOldCounters s.dirIn := by
  unfold getOldCountersInOut
  split
  · rfl
  · rename_i hne
    exact h.resolve_left hne

theorem Exact.page {s : Counters} (h : s.Exact) : s.getOldCountersInOut.Exact := by
  have hold := old_of_kept h.kept
  have hframe : ∃ old, s.getOldCountersInOut = { s with oldCounters := old } := by
    unfold getOldCountersInOut
    split
    · exact ⟨_, rfl⟩
    · exact ⟨_, rfl⟩
  obtain ⟨old, hs⟩ := hframe
  rw [hs] at hold ⊢
  exact ⟨h.fits, .inr hold, h.sum⟩

theorem sum_close (s : Counters) (io : CloseIo) (hfits : s.totalIn < 2 ^ 63) :
    sumOldCounters (s.close io).dirIn = sumOldCounters s.dirIn + if s.Stores io then (s.totalIn : Int) else 0 := by
  simp only [close, addOldCounter]
  by_cases hadd : (io.linkIn && !(s.dirIn.map Prod.fst).contains io.name) = true
  · rw [if_pos hadd]
    simp only [Bool.and_eq_true, Bool.not_eq_true'] at hadd
    simp only [sumOldCounters, List.filter_append, List.map_append, List.sum_append]
    congr 1
    by_cases hread : OldCounter.isRead (io.name, dec s.totalIn) = true
    · rw [if_pos ⟨hadd.1, hadd.2, hread⟩, List.filter_cons_of_pos hread]
      simp [strsizeToOfft_dec _ hfits]
    · rw [if_neg (fun hs => hread hs.2.2), List.filter_cons_of_neg hread]
      rfl
  · rw [if_neg hadd, if_neg (fun hs => hadd (by rw [hs.1, hs.2.1]; rfl)), Int.add_zero]

theorem sum_reset (dir : List OldCounter) : sumOldCounters (dir.filter (!·.isRead)) = 0 := by
  have hnone : (dir.filter (!·.isRead)).filter OldCounter.isRead = [] := by
    simp [List.filter_filter]
  rw [sumOldCounters, hnone]
  rfl

@[simp] theorem close_totalIn (s : Counters) (io : CloseIo) : (s.close io).totalIn = 0 := rfl
@[simp] theorem close_oldCounters (s : Counters) (io : CloseIo) : (s.close io).oldCounters = s.oldCounters := rfl
@[simp] theorem close_last (s : Counters) (io : CloseIo) :
    (s.close io).lastCurrentDlCount = s.lastCurrentDlCount := rfl
@[simp] theorem close_since (s : Counters) (io : CloseIo) : (s.close io).since = s.since := rfl

theorem Exact.reopen {s : Counters} (h : s.Exact) (io : CloseIo) :
    (¬ s.Spoils (.reopen io) → (s.close io).Exact) ∧
      (s.Spoils (.reopen io) → (s.close io).haveIncomming ≠ (s.close io).since) := by
  have hsum := sum_close s io h.fits
  have hexact := h.sum
  refine ⟨fun hno => ?_, fun hbad => ?_⟩
  · simp only [Spoils, not_and_or, not_or, not_not, ne_eq] at hno
    obtain hzero | ⟨hold, hstores⟩ := hno
    · simp only [hzero, Nat.cast_zero, ite_self, Int.add_zero] at hsum
      refine ⟨by simp, hsum ▸ h.kept, ?_⟩
      rw [hzero] at hexact
      simpa only [hsum, close_totalIn, close_last, close_since] using hexact
    · rw [if_pos hstores] at hsum
      refine ⟨by simp, .inl hold, ?_⟩
      simp only [hsum, close_totalIn, close_last, close_since, Nat.cast_zero]
      omega
  · obtain ⟨hne, hold⟩ := hbad
    have hseen : (s.close io).getOldCountersInOut.oldCounters.1 = sumOldCounters s.dirIn := by
      by_cases hz : s.oldCounters = (0, 0)
      · rw [if_neg (hold.resolve_left (not_not.mpr hz)), Int.add_zero] at hsum
        rw [old_of_kept (.inl ((close_oldCounters s io).trans hz)), hsum]
      · rw [getOldCountersInOut, close_oldCounters, if_neg hz]
        exact h.kept.resolve_left hz
    simp only [haveIncomming, hseen, close_totalIn, close_last, close_since, Nat.cast_zero]
    omega

theorem Exact.restart {s : Counters} (h : s.Exact) (io : CloseIo) :
    (¬ s.Spoils (.restart io) → (s.close io).newProcess.Exact) ∧
      (s.Spoils (.restart io) → (s.close io).newProcess.haveIncomming ≠ (s.close io).newProcess.since) := by
  have hsum := sum_close s io h.fits
  have hexact := h.sum
  have hhave : (s.close io).newProcess.haveIncomming =
      sumOldCounters s.dirIn + if s.Stores io then (s.totalIn : Int) else 0 := by
    rw [haveIncomming, old_of_kept (.inl rfl), ← hsum]
    exact Int.zero_add _
  refine ⟨fun hno => ⟨by simp [newProcess], .inl rfl, ?_⟩, fun hbad => ?_⟩
  · simp only [Spoils, ne_eq, not_not] at hno
    change (0 : Int) - 0 + sumOldCounters (s.close io).dirIn = s.since
    rw [hsum]
    split_ifs at hno ⊢ <;> omega
  · rw [hhave]
    change _ ≠ (s.since : Int)
    simp only [Spoils] at hbad
    split_ifs at hbad ⊢ <;> omega

theorem Exact.killed {s : Counters} (h : s.Exact) :
    (¬ s.Spoils .killed → s.newProcess.Exact) ∧
      (s.Spoils .killed → s.newProcess.haveIncomming ≠ s.newProcess.since) := by
  have hexact := h.sum
  have hhave : s.newProcess.haveIncomming = sumOldCounters s.dirIn := by
    rw [haveIncomming, old_of_kept (.inl rfl)]
    exact Int.zero_add _
  refine ⟨fun hno => ⟨by simp [newProcess], .inl rfl, ?_⟩, fun hbad => ?_⟩
  · simp only [Spoils, ne_eq, not_not] at hno
    change (0 : Int) - 0 + sumOldCounters s.dirIn = s.since
    omega
  · simp only [Spoils] at hbad
    rw [hhave]
    change _ ≠ (s.since : Int)
    omega

theorem Exact.finish {s : Counters} (h : s.Exact) {offset : Int} (hoffset : s.newLastIncommingOffset = some offset)
    {t : Counters} (ht : t = { s.resetOldCounters with
      lastCurrentDlCount := offset, newLastIncommingOffset := none, since := s.sinceBegin }) :
    (¬ s.Spoils .finish → t.Exact) ∧ (s.Spoils .finish → t.haveIncomming ≠ t.since) := by
  have hdir : sumOldCounters t.dirIn = 0 := by
    rw [ht]
    exact sum_reset s.dirIn
  have hold : t.oldCounters = (0, 0) := by
    rw [ht]
    rfl
  have htotal : t.totalIn = s.totalIn ∧ t.lastCurrentDlCount = offset ∧ t.since = s.sinceBegin := by
    rw [ht]
    exact ⟨rfl, rfl, rfl⟩
  obtain ⟨hin, hlast, hsince⟩ := htotal
  have hspoils : s.Spoils .finish ↔ (s.totalIn : Int) ≠ offset + s.sinceBegin := by
    simp [Spoils, hoffset]
  rw [hspoils, haveIncomming, old_of_kept (.inl hold), hdir, hin, hlast, hsince]
  refine ⟨fun hno => ⟨hin ▸ h.fits, .inl hold, ?_⟩, fun hbad => by omega⟩
  rw [hdir, hin, hlast, hsince]
  omega

end Counters

end Acng
