import Acng.Proofs.CustomHeaders

namespace Acng
open Lib

namespace Header

/-- What is accepted without the unknown fields is accepted with them. -/
theorem loadLines_modes {st st' : LineState} (h : Modes st st')
    (hlast : st.lastSetId = .max ∨ st'.lastSetId = st.lastSetId ∧ st.lastSetId ≠ .unkExport)
    (pos : Nat) (lines : List Bytes) (hpos : 0 < (loadLines st pos lines).1) :
    (loadLines st' pos lines).1 = (loadLines st pos lines).1 := by
  induction lines generalizing st st' pos with
  | nil => rfl
  | cons l rest ih =>
    rw [loadLines] at hpos ⊢
    rw [loadLines]
    by_cases he : l.isEmpty = true
    · rw [if_pos he, if_pos he]
      split
      · rfl
      · rfl
    · rw [if_neg he] at hpos ⊢
      rw [if_neg he]
      by_cases hf : isFolded l = true
      · rw [if_pos hf] at hpos ⊢
        rw [if_pos hf]
        rcases hlast with hmax | ⟨hsame, hlast⟩
        · rw [foldLine, hmax] at hpos
          exact absurd hpos (by simp)
        · rcases foldLine_modes h hsame hlast (trimBoth l) with ⟨-, -, e, herr⟩ |
            ⟨-, -, t, t', hok, hok', ht, -, htlast⟩
          · have hneg := foldLine_error st (trimBoth l) e herr
            rw [herr] at hpos
            exact absurd (hpos.trans hneg) (lt_irrefl 0)
          · rw [hok] at hpos ⊢
            rw [hok']
            exact ih ht (.inr htlast) _ hpos
      · rw [if_neg hf] at hpos ⊢
        rw [if_neg hf]
        rw [Bool.not_eq_true] at hf
        by_cases hfield : isField l = true
        · obtain ⟨t, t', hok, hok', ht, hcase⟩ := fieldLine_modes h hfield
          rw [hok] at hpos ⊢
          rw [hok']
          refine ih ht ?_ _ hpos
          split at hcase
          · exact .inl hcase.1
          · exact .inr hcase
        · rw [Bool.not_eq_true] at hfield
          obtain ⟨e, -, herr⟩ := fieldLine_of_not st l hf hfield
          rw [herr, fieldLine_error_same st' herr]

/-- Collecting unknown fields does not change which heads are accepted. -/
theorem load_collects (x : Bytes) (h : 0 < (load x none).1) :
    (load x (some [])).1 = (load x none).1 := by
  rw [load_eq] at h ⊢
  rw [load_eq]
  by_cases hfirst : firstTaken x
  · obtain ⟨hd, pos, htaken⟩ := loadOn_taken {} x hfirst
    rw [(htaken none).1] at h ⊢
    rw [(htaken (some [])).1]
    have hmodes : Modes { hd, unk := none } { hd, unk := some [] } := ⟨rfl, rfl, rfl⟩
    exact loadLines_modes hmodes (.inl rfl) pos _ h
  · obtain ⟨n, hd, -, -, hno⟩ := loadOn_not_taken {} x hfirst
    rw [(hno none).1, (hno (some [])).1]

/-- The fields that are forwarded come from the first head in the buffer only. -/
theorem extractCustomHeaders_append (x y : Bytes) (isPassThrough : Bool) (h : 0 < (load x none).1) :
    extractCustomHeaders (x ++ y) isPassThrough = extractCustomHeaders x isPassThrough := by
  have hx : x ≠ [] := by
    rintro rfl
    simp [load] at h
  have hl := load_append x y (some []) (by rw [load_collects x h]; omega)
  have he : x.isEmpty = false := by simpa using hx
  have he' : (x ++ y).isEmpty = false := by simp [hx]
  rw [extractCustomHeaders, extractCustomHeaders, he, he', hl]

end Header

theorem ClientRequest.make_append (cfg : ConnCfg) (h : Header) (x y host : Bytes) (hx : 0 < (Header.load x none).1) :
    ClientRequest.make cfg h (x ++ y) host = ClientRequest.make cfg h x host := by
  have hne : x ≠ [] := by
    rintro rfl
    simp [Header.load] at hx
  have he : x.isEmpty = false := by simpa using hne
  have he' : (x ++ y).isEmpty = false := by simp [hne]
  simp only [ClientRequest.make, makeExtraHeaders, he, he', Header.extractCustomHeaders_append x y _ hx]

namespace Conn

/-- More of the stream has arrived. -/
def more (c : Conn) (y : Bytes) : Conn := { c with inBuf := c.inBuf.sysread y }

/-- Two connections that have come equally far in the stream. They may differ in the position
inside of the buffer and in the jobs that are not done yet. -/
structure Same (c d : Conn) : Prop where
  data : c.inBuf.data = d.inBuf.data
  host : c.sClientHost = d.sClientHost
  requests : c.requests = d.requests
  consumed : c.consumed = d.consumed
  left : c.left = d.left

theorem Same.refl (c : Conn) : Same c c := ⟨rfl, rfl, rfl, rfl, rfl⟩

theorem Same.symm {c d : Conn} (h : Same c d) : Same d c :=
  ⟨h.data.symm, h.host.symm, h.requests.symm, h.consumed.symm, h.left.symm⟩

theorem Same.trans {c d e : Conn} (h : Same c d) (h' : Same d e) : Same c e :=
  ⟨h.data.trans h'.data, h.host.trans h'.host, h.requests.trans h'.requests,
    h.consumed.trans h'.consumed, h.left.trans h'.left⟩

theorem Same.more {c d : Conn} (h : Same c d) (y : Bytes) : Same (c.more y) (d.more y) :=
  ⟨congrArg (· ++ y) h.data, h.host, h.requests, h.consumed, h.left⟩

theorem drop_data (c : Conn) (n : Nat) : (c.drop n).inBuf.data = c.inBuf.data.drop n := by
  simp only [drop, AcBuf.drop]
  split
  · rename_i h
    exact (List.isEmpty_iff.mp h).symm
  · rfl

theorem Same.drop {c d : Conn} {y : Bytes} (h : Same (c.more y) d) (n : Nat) (hn : n ≤ c.inBuf.data.length) :
    Same ((c.drop n).more y) (d.drop n) := by
  refine ⟨?_, h.host, h.requests, congrArg (· + n) h.consumed, h.left⟩
  have hd : d.inBuf.data = c.inBuf.data ++ y := h.data.symm
  change (c.drop n).inBuf.data ++ y = _
  rw [drop_data, drop_data, hd, List.drop_append_of_le_length hn]

theorem Same.leave {c d : Conn} {y : Bytes} (h : Same (c.more y) d) (why : Leave) :
    Same ((c.leave why).more y) (d.leave why) :=
  ⟨h.data, h.host, h.requests, h.consumed, rfl⟩

theorem Same.addJob {c d : Conn} {y : Bytes} (cfg : ConnCfg) (h : Same (c.more y) d) (hd : Header)
    (hx : 0 < (Header.load c.inBuf.data none).1) : Same ((c.addJob cfg hd).more y) (d.addJob cfg hd) := by
  have hdata : d.inBuf.data = c.inBuf.data ++ y := h.data.symm
  have hhost : d.sClientHost = c.sClientHost := h.host.symm
  have hreq : d.requests = c.requests := h.requests.symm
  refine ⟨h.data, h.host, ?_, h.consumed, h.left⟩
  simp only [Conn.addJob, Conn.more, hdata, hhost, hreq, ClientRequest.make_append cfg hd _ y _ hx]

theorem Same.identify {c d : Conn} {y : Bytes} (h : Same (c.more y) d) (hd : Header) :
    Same ((c.identify hd).1.more y) (d.identify hd).1 ∧ (c.identify hd).2 = (d.identify hd).2 := by
  unfold Conn.identify
  simp only
  split
  · exact ⟨h.leave .unidentified, rfl⟩
  · exact ⟨⟨h.data, rfl, h.requests, h.consumed, h.left⟩, rfl⟩

/-- A request is taken from the buffer in the same way, whatever follows it. -/
theorem Same.request {c d : Conn} {y : Bytes} (cfg : ConnCfg) (h : Same (c.more y) d)
    (hne : (Header.load c.inBuf.data none).1 ≠ 0) :
    Same ((c.request cfg).1.more y) (d.request cfg).1 ∧ (c.request cfg).2 = (d.request cfg).2 := by
  have hdata : d.inBuf.data = c.inBuf.data ++ y := h.data.symm
  have hhost : d.sClientHost = c.sClientHost := h.host.symm
  have hle := Header.load_le c.inBuf.data none
  have hpost : ∀ hd, d.answerPost cfg hd = c.answerPost cfg hd := by
    intro hd
    simp only [answerPost, hhost]
  unfold Conn.request
  rw [hdata, Header.load_append _ y none hne, hhost]
  generalize hl : Header.load c.inBuf.data none = r at hne hle
  obtain ⟨n, st⟩ := r
  simp only at hne hle ⊢
  rw [if_neg hne, if_neg hne]
  split
  · exact ⟨h.leave .badRequest, rfl⟩
  have hpos : 0 < (Header.load c.inBuf.data none).1 := by
    rw [hl]
    simp only
    omega
  have hdrop := h.drop n.toNat (by omega)
  split
  · rw [hpost]
    exact ⟨h.leave _, rfl⟩
  split
  · exact ⟨hdrop.leave _, rfl⟩
  split
  · exact hdrop.identify st.hd
  have hadd := h.addJob cfg st.hd hpos
  have hreq : (d.addJob cfg st.hd).requests.length = (c.addJob cfg st.hd).requests.length :=
    congrArg List.length hadd.requests.symm
  rw [hreq]
  split
  · exact ⟨hadd.leave .badState, rfl⟩
  · have hlen : n.toNat ≤ c.inBuf.data.length := by omega
    exact ⟨hadd.drop n.toNat hlen, rfl⟩

/-- An incomplete head only moves the buffer. -/
theorem request_incomplete (cfg : ConnCfg) (c : Conn) (h : (Header.load c.inBuf.data none).1 = 0) :
    c.request cfg = ({ c with inBuf := c.inBuf.move }, false) := by
  unfold request
  simp only [h, if_true]

/-- A complete head ends the connection, or it takes some bytes. -/
theorem request_complete (cfg : ConnCfg) (c : Conn) (hne : (Header.load c.inBuf.data none).1 ≠ 0) :
    ((c.request cfg).2 = false ∧ (c.request cfg).1.left ≠ none) ∨
      ((c.request cfg).2 = true ∧ (c.request cfg).1.left = c.left ∧
        ∃ n, 0 < n ∧ n ≤ c.inBuf.data.length ∧ (c.request cfg).1.inBuf.data = c.inBuf.data.drop n) := by
  have hle := Header.load_le c.inBuf.data none
  unfold request
  generalize Header.load c.inBuf.data none = r at hne hle ⊢
  obtain ⟨n, st⟩ := r
  simp only at hne hle ⊢
  rw [if_neg hne]
  split
  · exact .inl ⟨rfl, by simp [leave]⟩
  split
  · exact .inl ⟨rfl, by simp [leave]⟩
  split
  · exact .inl ⟨rfl, by simp [leave]⟩
  split
  · unfold identify
    simp only
    split
    · exact .inl ⟨rfl, by simp [leave]⟩
    · exact .inr ⟨rfl, rfl, n.toNat, by omega, by omega, drop_data c _⟩
  · split
    · exact .inl ⟨rfl, by simp [leave]⟩
    · exact .inr ⟨rfl, rfl, n.toNat, by omega, by omega, drop_data (c.addJob cfg st.hd) _⟩

theorem request_shorter (cfg : ConnCfg) (c : Conn) (h : (c.request cfg).2 = true) :
    (c.request cfg).1.inBuf.data.length < c.inBuf.data.length := by
  by_cases hne : (Header.load c.inBuf.data none).1 = 0
  · rw [request_incomplete cfg c hne] at h
    cases h
  · rcases request_complete cfg c hne with ⟨hf, -⟩ | ⟨-, -, n, h0, hle, hd⟩
    · rw [hf] at h
      cases h
    · rw [hd, List.length_drop]
      omega

theorem splitInput_fuel (cfg : ConnCfg) (m n : Nat) (c : Conn) (hm : c.inBuf.data.length ≤ m)
    (hn : c.inBuf.data.length ≤ n) : splitInput cfg m c = splitInput cfg n c := by
  induction m generalizing n c with
  | zero =>
    have he : c.inBuf.data = [] := List.length_eq_zero_iff.mp (by omega)
    cases n <;> simp [splitInput, he]
  | succ m ih =>
    cases n with
    | zero =>
      have he : c.inBuf.data = [] := List.length_eq_zero_iff.mp (by omega)
      simp [splitInput, he]
    | succ n =>
      unfold splitInput
      split
      · rfl
      · have hs := request_shorter cfg c
        generalize c.request cfg = r at hs ⊢
        obtain ⟨c', b⟩ := r
        cases b with
        | false => rfl
        | true =>
          have := hs rfl
          simp only at this ⊢
          exact ih n c' (by omega) (by omega)

theorem split_nil (cfg : ConnCfg) (c : Conn) (h : c.inBuf.data = []) : c.split cfg = c := by
  simp [split, h, splitInput]

theorem split_next (cfg : ConnCfg) (c : Conn) (h : (c.request cfg).2 = true) :
    c.split cfg = (c.request cfg).1.split cfg := by
  have hs := request_shorter cfg c h
  obtain ⟨k, hk⟩ : ∃ k, c.inBuf.data.length = k + 1 := ⟨c.inBuf.data.length - 1, by omega⟩
  have hne : c.inBuf.data.isEmpty = false := by
    cases hd : c.inBuf.data with
    | nil => simp [hd] at hk
    | cons _ _ => rfl
  rw [split, hk, splitInput, hne]
  generalize c.request cfg = r at h hs
  obtain ⟨c', b⟩ := r
  cases h
  exact splitInput_fuel cfg k _ c' (by simp only at hs; omega) (le_refl _)

theorem split_last (cfg : ConnCfg) (c : Conn) (hne : c.inBuf.data ≠ []) (h : (c.request cfg).2 = false) :
    c.split cfg = (c.request cfg).1 := by
  obtain ⟨k, hk⟩ : ∃ k, c.inBuf.data.length = k + 1 :=
    ⟨c.inBuf.data.length - 1, by have := List.length_pos_iff.mpr hne; omega⟩
  have he : c.inBuf.data.isEmpty = false := by simpa using hne
  rw [split, hk, splitInput, he]
  generalize c.request cfg = r at h
  obtain ⟨c', b⟩ := r
  cases h
  rfl

theorem load_nil : (Header.load [] none).1 = 0 := rfl

/-- An incomplete head is where the splitting stops. -/
theorem split_incomplete (cfg : ConnCfg) (c : Conn) (h : (Header.load c.inBuf.data none).1 = 0) :
    Same c (c.split cfg) := by
  by_cases hne : c.inBuf.data = []
  · rw [split_nil cfg c hne]
    exact Same.refl c
  · have hr := request_incomplete cfg c h
    rw [split_last cfg c hne (by rw [hr]), hr]
    exact ⟨rfl, rfl, rfl, rfl, rfl⟩

theorem Same.split {c d : Conn} (cfg : ConnCfg) (h : Same c d) : Same (c.split cfg) (d.split cfg) := by
  induction hn : c.inBuf.data.length using Nat.strongRecOn generalizing c d with
  | ind n ih =>
    by_cases hne : (Header.load c.inBuf.data none).1 = 0
    · have hne' : (Header.load d.inBuf.data none).1 = 0 := by rwa [← h.data]
      exact (split_incomplete cfg c hne).symm.trans (h.trans (split_incomplete cfg d hne'))
    · have hfull : c.inBuf.data ≠ [] := by
        intro he
        rw [he] at hne
        exact hne load_nil
      have hmore : Same (c.more []) d := ⟨by simpa [Conn.more, AcBuf.sysread] using h.data, h.host,
        h.requests, h.consumed, h.left⟩
      obtain ⟨hs, hb⟩ := hmore.request cfg hne
      have hs' : Same (c.request cfg).1 (d.request cfg).1 :=
        ⟨by simpa [Conn.more, AcBuf.sysread] using hs.data, hs.host, hs.requests, hs.consumed, hs.left⟩
      rcases request_complete cfg c hne with ⟨hf, -⟩ | ⟨ht, -, -⟩
      · rw [split_last cfg c hfull hf, split_last cfg d (by rwa [← h.data]) (by rw [← hb, hf])]
        exact hs'
      · rw [split_next cfg c ht, split_next cfg d (by rw [← hb, ht])]
        exact ih _ (by rw [← hn]; exact request_shorter cfg c ht) hs' rfl

/-- Splitting a part of the stream and then the rest is splitting all of it, unless the first
part already ends the connection. -/
theorem split_more (cfg : ConnCfg) (c : Conn) (y : Bytes) (hc : c.left = none) :
    ((c.split cfg).left = none → Same (((c.split cfg).more y).split cfg) ((c.more y).split cfg)) ∧
      ((c.split cfg).left ≠ none → Same ((c.split cfg).more y) ((c.more y).split cfg)) := by
  suffices hgen : ∀ d, Same (c.more y) d →
      ((c.split cfg).left = none → Same (((c.split cfg).more y).split cfg) (d.split cfg)) ∧
        ((c.split cfg).left ≠ none → Same ((c.split cfg).more y) (d.split cfg)) from
    hgen _ (Same.refl _)
  induction hn : c.inBuf.data.length using Nat.strongRecOn generalizing c with
  | ind n ih =>
    intro d h
    by_cases hne : (Header.load c.inBuf.data none).1 = 0
    · have hs := split_incomplete cfg c hne
      refine ⟨fun _ => ((hs.symm.more y).trans h).split cfg, fun hl => absurd ?_ hl⟩
      rw [← hs.left, hc]
    · have hfull : c.inBuf.data ≠ [] := by
        intro he
        rw [he] at hne
        exact hne load_nil
      have hfull' : d.inBuf.data ≠ [] := by
        rw [← h.data]
        exact List.append_ne_nil_of_left_ne_nil hfull y
      obtain ⟨hs, hb⟩ := h.request cfg hne
      rcases request_complete cfg c hne with ⟨hf, hl⟩ | ⟨ht, hl, -⟩
      · rw [split_last cfg c hfull hf, split_last cfg d hfull' (by rw [← hb, hf])]
        exact ⟨fun h => absurd h hl, fun _ => hs⟩
      · rw [split_next cfg c ht, split_next cfg d (by rw [← hb, ht])]
        exact ih _ (by rw [← hn]; exact request_shorter cfg c ht) _ (by rw [hl, hc]) rfl _ hs

theorem request_requests (cfg : ConnCfg) (c : Conn) : c.requests <+: (c.request cfg).1.requests := by
  unfold request
  generalize Header.load c.inBuf.data none = r
  obtain ⟨n, st⟩ := r
  simp only
  repeat' split
  all_goals first
    | exact List.prefix_refl _
    | exact List.prefix_append _ _
    | skip
  unfold identify
  simp only
  split <;> exact List.prefix_refl _

theorem splitInput_requests (cfg : ConnCfg) (n : Nat) (c : Conn) :
    c.requests <+: (splitInput cfg n c).requests := by
  induction n generalizing c with
  | zero => exact List.prefix_refl _
  | succ n ih =>
    unfold splitInput
    split
    · exact List.prefix_refl _
    · have hr := request_requests cfg c
      generalize c.request cfg = r at hr ⊢
      obtain ⟨c', b⟩ := r
      cases b with
      | false => exact hr
      | true => exact hr.trans (ih c')

end Conn

def Round.bytes : Round → Bytes
  | .ready read _ => read
  | _ => []

/-- The bytes that the client sends. -/
def stream (ios : List Round) : Bytes := ios.flatMap Round.bytes

/-- Whether the connection ends for a reason that is not in the stream. -/
def Leave.cut : Leave → Bool
  | .bufferFull | .disconnect | .gone => true
  | _ => false

namespace Conn

/-- Everything that a stream makes the connection do. -/
def whole (cfg : ConnCfg) (c : Conn) (s : Bytes) : Conn := (c.more s).split cfg

theorem more_more (c : Conn) (x y : Bytes) : (c.more x).more y = c.more (x ++ y) := by
  simp [more, AcBuf.sysread, List.append_assoc]

theorem whole_append (cfg : ConnCfg) (c : Conn) (x y : Bytes) (hc : c.left = none) :
    ((c.whole cfg x).left = none → Same ((c.whole cfg x).whole cfg y) (c.whole cfg (x ++ y))) ∧
      ((c.whole cfg x).left ≠ none → Same ((c.whole cfg x).more y) (c.whole cfg (x ++ y))) := by
  have h := split_more cfg (c.more x) y hc
  rw [more_more] at h
  exact h

theorem whole_requests (cfg : ConnCfg) (c : Conn) (x y : Bytes) (hc : c.left = none) :
    (c.whole cfg x).requests <+: (c.whole cfg (x ++ y)).requests := by
  obtain ⟨h1, h2⟩ := whole_append cfg c x y hc
  by_cases hl : (c.whole cfg x).left = none
  · rw [← (h1 hl).requests]
    exact splitInput_requests cfg _ ((c.whole cfg x).more y)
  · rw [← (h2 hl).requests]
    exact List.prefix_refl _

/-- A round takes the connection to where the stream leads it, or it is cut off. -/
theorem round_whole (cfg : ConnCfg) (c₀ c : Conn) (s : Bytes) (io : Round) (h0 : c₀.left = none)
    (hs : Same (c₀.whole cfg s) c) (hl : c.left = none) :
    Same (c₀.whole cfg (s ++ io.bytes)) (c.round cfg io) ∨
      ((∃ why, (c.round cfg io).left = some why ∧ why.cut = true) ∧
        ∃ t u, io.bytes = t ++ u ∧ (c.round cfg io).requests = (c₀.whole cfg (s ++ t)).requests) := by
  have hstay : ∃ t u, io.bytes = t ++ u ∧ c.requests = (c₀.whole cfg (s ++ t)).requests :=
    ⟨[], io.bytes, rfl, by rw [List.append_nil]; exact hs.requests.symm⟩
  unfold round
  split
  · exact .inr ⟨⟨.bufferFull, rfl, rfl⟩, hstay⟩
  cases io with
  | idle =>
    refine .inl ?_
    simpa [Round.bytes] using hs
  | gone => exact .inr ⟨⟨.gone, rfl, rfl⟩, hstay⟩
  | ready read sent =>
    have hw : Same (c₀.whole cfg (s ++ read)) ((c.more read).split cfg) :=
      ((whole_append cfg c₀ s read h0).1 (hs.left.trans hl)).symm.trans ((hs.more read).split cfg)
    simp only [more] at hw
    simp only [Round.bytes]
    generalize ({ c with inBuf := c.inBuf.sysread read } : Conn).split cfg = d at hw ⊢
    have hread : ∃ t u, read = t ++ u ∧ d.requests = (c₀.whole cfg (s ++ t)).requests :=
      ⟨read, [], (List.append_nil read).symm, hw.requests.symm⟩
    split
    · exact .inl hw
    split
    · exact .inr ⟨⟨.bufferFull, rfl, rfl⟩, hread⟩
    split
    · cases sent with
      | none => exact .inl hw
      | some res =>
        cases res with
        | done => exact .inl (hw.trans ⟨rfl, rfl, rfl, rfl, rfl⟩)
        | again => exact .inl hw
        | discon => exact .inr ⟨⟨.disconnect, rfl, rfl⟩, hread⟩
    · exact .inl hw

theorem workLoop_left (cfg : ConnCfg) (c : Conn) (ios : List Round) (h : c.left ≠ none) :
    c.workLoop cfg ios = c := by
  cases ios with
  | nil => rfl
  | cons io ios =>
    rw [workLoop, if_pos]
    exact Option.isSome_iff_ne_none.mpr h

/-- The run lemma: all rounds together do what the stream makes them do, up to where the
connection is cut off. -/
theorem workLoop_whole (cfg : ConnCfg) (c₀ : Conn) (h0 : c₀.left = none) (ios : List Round) (c : Conn)
    (s : Bytes) (hs : Same (c₀.whole cfg s) c) (hl : c.left = none) :
    (c.workLoop cfg ios).requests <+: (c₀.whole cfg (s ++ stream ios)).requests ∧
      ((∀ why, (c.workLoop cfg ios).left = some why → why.cut = false) →
        (c.workLoop cfg ios).requests = (c₀.whole cfg (s ++ stream ios)).requests ∧
        (c.workLoop cfg ios).consumed = (c₀.whole cfg (s ++ stream ios)).consumed ∧
        (c.workLoop cfg ios).sClientHost = (c₀.whole cfg (s ++ stream ios)).sClientHost ∧
        (c.workLoop cfg ios).left = (c₀.whole cfg (s ++ stream ios)).left) := by
  induction ios generalizing c s with
  | nil =>
    simp only [workLoop, stream, List.flatMap_nil, List.append_nil, ← hs.requests, ← hs.consumed,
      ← hs.host, ← hs.left, and_self, implies_true, and_true]
    exact List.prefix_refl _
  | cons io ios ih =>
    have hstream : s ++ stream (io :: ios) = s ++ io.bytes ++ stream ios := by simp [stream]
    rw [hstream, workLoop, if_neg (by simp [hl])]
    rcases round_whole cfg c₀ c s io h0 hs hl with hw | ⟨⟨why, hwhy, hcut⟩, t, u, htu, hreq⟩
    · by_cases hl' : (c.round cfg io).left = none
      · exact ih _ _ hw hl'
      · rw [workLoop_left cfg _ ios hl']
        have he := (whole_append cfg c₀ (s ++ io.bytes) (stream ios) h0).2 (by rwa [hw.left])
        rw [← he.requests, ← he.consumed, ← he.host, ← he.left]
        refine ⟨by rw [← hw.requests]; exact List.prefix_refl _, fun _ => ?_⟩
        exact ⟨hw.requests.symm, hw.consumed.symm, hw.host.symm, hw.left.symm⟩
    · rw [workLoop_left cfg _ ios (by simp [hwhy])]
      refine ⟨?_, fun h => ?_⟩
      · rw [hreq, htu, ← List.append_assoc s t u, List.append_assoc (s ++ t) u]
        exact whole_requests cfg c₀ (s ++ t) (u ++ stream ios) h0
      · rw [h why hwhy] at hcut
        cases hcut

/-- However the stream of the client is split, the same heads are passed to `Prepare`, with the
same fields to forward, and the connection ends at the same position, as long as no job asks for
the end and nothing else cuts it off. In any case one run is a beginning of the other. -/
theorem stream_split_alike (cfg : ConnCfg) (host : Bytes) (ios ios' : List Round)
    (hstream : stream ios = stream ios')
    (hcut : ∀ why, (workLoop cfg { sClientHost := host } ios).left = some why → why.cut = false) :
    (workLoop cfg { sClientHost := host } ios').requests <+:
        (workLoop cfg { sClientHost := host } ios).requests ∧
      ((∀ why, (workLoop cfg { sClientHost := host } ios').left = some why → why.cut = false) →
        (workLoop cfg { sClientHost := host } ios').requests =
            (workLoop cfg { sClientHost := host } ios).requests ∧
          (workLoop cfg { sClientHost := host } ios').consumed =
            (workLoop cfg { sClientHost := host } ios).consumed ∧
          (workLoop cfg { sClientHost := host } ios').sClientHost =
            (workLoop cfg { sClientHost := host } ios).sClientHost ∧
          (workLoop cfg { sClientHost := host } ios').left =
            (workLoop cfg { sClientHost := host } ios).left) := by
  have hstart : Same (whole cfg { sClientHost := host } []) { sClientHost := host } :=
    ⟨rfl, rfl, rfl, rfl, rfl⟩
  obtain ⟨-, h⟩ := workLoop_whole cfg { sClientHost := host } rfl ios _ [] hstart rfl
  obtain ⟨hreq, hcon, hhost, hleft⟩ := h hcut
  obtain ⟨hpre, h'⟩ := workLoop_whole cfg { sClientHost := host } rfl ios' _ [] hstart rfl
  rw [← hstream, ← hreq] at hpre
  refine ⟨hpre, fun hcut' => ?_⟩
  obtain ⟨hreq', hcon', hhost', hleft'⟩ := h' hcut'
  rw [← hstream] at hreq' hcon' hhost' hleft'
  exact ⟨hreq'.trans hreq.symm, hcon'.trans hcon.symm, hhost'.trans hhost.symm, hleft'.trans hleft.symm⟩

theorem not_cut_of_open {c : Conn} (h : c.left = none) (why : Leave) (hw : c.left = some why) :
    why.cut = false := by
  rw [h] at hw
  cases hw

def plainCfg : ConnCfg := { serve := { getFiletype := fun _ => some .solid } }

def firstGet : Bytes := lit "GET http://m/a.deb HTTP/1.0\r\nX-A: 1\r\n\r\n"

def secondGet : Bytes := lit "GET http://m/b.deb HTTP/1.0\r\n\r\n"

theorem stream_split_alike_two :
    (workLoop plainCfg { sClientHost := lit "c" }
        [.ready (firstGet.take 20) none, .ready (firstGet.drop 20 ++ secondGet) none]).requests =
      (workLoop plainCfg { sClientHost := lit "c" } [.ready (firstGet ++ secondGet) none]).requests :=
  ((stream_split_alike plainCfg (lit "c") [.ready (firstGet ++ secondGet) none]
    [.ready (firstGet.take 20) none, .ready (firstGet.drop 20 ++ secondGet) none] (by decide)
    (not_cut_of_open (by decide))).2 (not_cut_of_open (by decide))).1

/-- The answer to an HTTP/1.0 request ends the connection, and whether the next request was
already taken from the buffer depends on the reads. -/
theorem answered_before_next :
    let alone : List Round := [.ready firstGet none,
      .ready [] (some (ClientJob.returnStreamOk { bIsHttp11 := false, activity := .sendBufNotFitem }).2),
      .ready secondGet none]
    let together : List Round := [.ready (firstGet ++ secondGet) none]
    stream alone = stream together ∧
      (workLoop plainCfg { sClientHost := lit "c" } alone).left = some .disconnect ∧
      (workLoop plainCfg { sClientHost := lit "c" } alone).requests.length = 1 ∧
      (workLoop plainCfg { sClientHost := lit "c" } together).left = none ∧
      (workLoop plainCfg { sClientHost := lit "c" } together).requests.length = 2 := by
  decide

end Conn

end Acng
