import Acng.Tunnel
import Acng.Proofs.ClientStream

namespace Acng
open Lib

namespace AcBuf

/-- The data is inside of the buffer, and an empty buffer begins at its front. -/
structure Fits (capacity : Nat) (b : AcBuf) : Prop where
  inside : b.r + b.data.length ≤ capacity
  front : b.data = [] → b.r = 0

theorem drop_data (b : AcBuf) (n : Nat) : (b.drop n).data = b.data.drop n := by
  simp only [drop]
  split
  · rename_i h
    exact (List.isEmpty_iff.mp h).symm
  · rfl

theorem Fits.drop {capacity : Nat} {b : AcBuf} (h : b.Fits capacity) (n : Nat) :
    (b.drop n).Fits capacity := by
  have hin := h.inside
  unfold AcBuf.drop
  simp only [List.isEmpty_iff]
  split
  · exact ⟨Nat.zero_le _, fun _ => rfl⟩
  · rename_i hne
    have hlt := List.length_pos_iff.mpr hne
    rw [List.length_drop] at hlt
    refine ⟨?_, fun h => absurd h hne⟩
    simp only [List.length_drop]
    omega

theorem Fits.sysread {capacity : Nat} {b : AcBuf} (h : b.Fits capacity) (read : Bytes)
    (hle : read.length ≤ b.freecapa capacity) : (b.sysread read).Fits capacity := by
  have hin := h.inside
  refine ⟨?_, fun hd => h.front (List.append_eq_nil_iff.mp hd).1⟩
  simp only [AcBuf.sysread, freecapa, List.length_append] at hle ⊢
  omega

/-- There is always something to send or room to read, and nothing to send means all of the room. -/
theorem Fits.freecapa_empty {capacity : Nat} {b : AcBuf} (h : b.Fits capacity) (hd : b.data = []) :
    b.freecapa capacity = capacity := by
  simp [freecapa, hd, h.front hd]

/-- What a call of `dumpall` has done: it takes from the front, and it fails before everything is
written. -/
theorem dumpall_spec {capacity limit : Nat} {b b' : AcBuf} {out out' : Bytes} {ok : Bool}
    {writes : List DumpResult} (hb : b.Fits capacity) (hl : limit ≤ b.data.length)
    (h : b.dumpall limit out writes = some (ok, b', out')) :
    b'.Fits capacity ∧ ∃ n ≤ limit, b'.data = b.data.drop n ∧ out' = out ++ b.data.take n ∧
      (ok = true ↔ n = limit) := by
  induction writes generalizing limit b out with
  | nil =>
    simp only [dumpall, Option.ite_none_right_eq_some, Option.some.injEq, Prod.mk.injEq] at h
    obtain ⟨rfl, rfl, rfl, rfl⟩ := h
    exact ⟨hb, 0, le_refl _, by simp, by simp, by simp⟩
  | cons r rs ih =>
    unfold dumpall at h
    split at h
    · rename_i h0
      simp only [Option.some.injEq, Prod.mk.injEq] at h
      obtain ⟨rfl, rfl, rfl⟩ := h
      exact ⟨hb, 0, Nat.zero_le _, by simp, by simp, by simp [h0]⟩
    · rename_i h0
      have hstop : b.Fits capacity ∧ ∃ n ≤ limit, b.data = b.data.drop n ∧ out = out ++ b.data.take n ∧
          (false = true ↔ n = limit) :=
        ⟨hb, 0, Nat.zero_le _, by simp, by simp, by simp [Ne.symm h0]⟩
      cases r with
      | wrote n =>
        simp only at h
        split at h
        · simp only [Option.some.injEq, Prod.mk.injEq] at h
          obtain ⟨rfl, rfl, rfl⟩ := h
          exact hstop
        · rename_i hn
          simp only [Bool.or_eq_true, decide_eq_true_eq, not_or, not_lt] at hn
          have hlen : limit - n ≤ (b.drop n).data.length := by
            rw [drop_data, List.length_drop]
            omega
          obtain ⟨hf, m, hm, hdata, hout, hok⟩ := ih (hb.drop n) hlen h
          refine ⟨hf, n + m, by omega, ?_, ?_, by rw [hok]; omega⟩
          · rw [hdata, drop_data, List.drop_drop]
          · rw [hout, drop_data, List.append_assoc, ← List.take_add]
      | again => exact ih hb hl h
      | failed =>
        simp only [Option.some.injEq, Prod.mk.injEq] at h
        obtain ⟨rfl, rfl, rfl⟩ := h
        exact hstop

end AcBuf

namespace TunnelLane

/-- What a direction keeps: everything that came in, behind what it began with, was sent or is in the
buffer. -/
structure Conserved (first : Bytes) (l : TunnelLane) : Prop where
  fits : l.buf.Fits tunnelBufSize
  kept : l.sent ++ l.buf.data = first ++ l.received

/-- Nothing is lost if it ends like this. -/
def Delivered (first : Bytes) (l : TunnelLane) : Prop := l.sent = first ++ l.received

theorem Conserved.delivered_iff {first : Bytes} {l : TunnelLane} (h : l.Conserved first) :
    l.Delivered first ↔ l.buf.data = [] := by
  unfold Delivered
  rw [← h.kept]
  exact ⟨fun he => by simpa using he, fun he => by simp [he]⟩

theorem Conserved.dump {first : Bytes} {l l' : TunnelLane} {ok : Bool} {writes : List DumpResult}
    (h : l.Conserved first) (hd : l.dump writes = some (ok, l')) :
    l'.Conserved first ∧ l'.received = l.received ∧ (l'.buf.data = [] ↔ ok = true) := by
  obtain ⟨⟨ok', buf, out⟩, hdump, heq⟩ := Option.map_eq_some_iff.mp hd
  obtain ⟨rfl, rfl⟩ := Prod.mk.inj heq
  obtain ⟨hf, n, hn, hdata, hout, hok⟩ := AcBuf.dumpall_spec h.fits (le_refl _) hdump
  rw [List.nil_append] at hout
  refine ⟨⟨hf, ?_⟩, rfl, ?_⟩
  · simp only [hdata, hout, List.append_assoc, List.take_append_drop, h.kept]
  · simp only [hdata, hok, List.drop_eq_nil_iff]
    omega

theorem Conserved.sysread {first : Bytes} {l : TunnelLane} (h : l.Conserved first) (read : Bytes)
    (hle : read.length ≤ l.buf.freecapa tunnelBufSize) : (l.sysread read).Conserved first := by
  refine ⟨h.fits.sysread read hle, ?_⟩
  simp only [TunnelLane.sysread, AcBuf.sysread, ← List.append_assoc, h.kept]

end TunnelLane

namespace Tunnel

structure Conserved (first : Bytes) (t : Tunnel) : Prop where
  up : t.clientBufIn.Conserved first
  down : t.clientBufOut.Conserved tunnelEstablished

/-- Everything that came in was passed on, in both directions. -/
def Delivered (first : Bytes) (t : Tunnel) : Prop :=
  t.clientBufIn.Delivered first ∧ t.clientBufOut.Delivered tunnelEstablished

theorem Conserved.delivered_iff {first : Bytes} {t : Tunnel} (h : t.Conserved first) :
    t.Delivered first ↔ t.clientBufIn.buf.data = [] ∧ t.clientBufOut.buf.data = [] :=
  and_congr h.up.delivered_iff h.down.delivered_iff

/-- The bits that are found set behind `select`. None is where it fails. -/
def found (t : Tunnel) (io : TunnelIo) : TunnelReady :=
  match io.select with
  | none => {}
  | some ready => {
      serverWrite := t.wanted.serverWrite && ready.serverWrite
      clientWrite := t.wanted.clientWrite && ready.clientWrite
      serverRead := t.wanted.serverRead && ready.serverRead
      clientRead := t.wanted.clientRead && ready.clientRead }

/-- What a write leaves of the data of its direction. -/
def Written (isset : Bool) (before after : TunnelLane) : Prop :=
  after.buf.data = [] ↔ before.buf.data = [] ∨ isset = true

theorem sendToServer_spec {first : Bytes} {s t : Tunnel} {isset : Bool} {writes : List DumpResult}
    (hc : s.Conserved first) (hl : s.left = none) (h : s.sendToServer isset writes = some t) :
    t.Conserved first ∧ t.clientBufOut = s.clientBufOut ∧
      ((t.left = none ∧ Written isset s.clientBufIn t.clientBufIn) ∨
        (t.left = some .toServer ∧ t.clientBufIn.buf.data ≠ [])) := by
  unfold sendToServer at h
  cases isset with
  | false =>
    obtain rfl := Option.some.inj h
    exact ⟨hc, rfl, .inl ⟨hl, by simp [Written]⟩⟩
  | true =>
    obtain ⟨⟨ok, l⟩, hd, rfl⟩ := Option.map_eq_some_iff.mp h
    obtain ⟨hup, -, hok⟩ := hc.up.dump hd
    refine ⟨⟨hup, hc.down⟩, rfl, ?_⟩
    cases ok with
    | true => exact .inl ⟨rfl, by simp [Written, hok]⟩
    | false => exact .inr ⟨rfl, by simp [hok]⟩

theorem sendToClient_spec {first : Bytes} {s t : Tunnel} {isset : Bool} {writes : List DumpResult}
    (hc : s.Conserved first) (hl : s.left = none) (h : s.sendToClient isset writes = some t) :
    t.Conserved first ∧ t.clientBufIn = s.clientBufIn ∧
      ((t.left = none ∧ Written isset s.clientBufOut t.clientBufOut) ∨
        (t.left = some .toClient ∧ t.clientBufOut.buf.data ≠ [])) := by
  unfold sendToClient at h
  rw [hl] at h
  cases isset with
  | false =>
    obtain rfl := Option.some.inj h
    exact ⟨hc, rfl, .inl ⟨hl, by simp [Written]⟩⟩
  | true =>
    obtain ⟨⟨ok, l⟩, hd, rfl⟩ := Option.map_eq_some_iff.mp h
    obtain ⟨hdown, -, hok⟩ := hc.down.dump hd
    refine ⟨⟨hc.up, hdown⟩, rfl, ?_⟩
    cases ok with
    | true => exact .inl ⟨rfl, by simp [Written, hok]⟩
    | false => exact .inr ⟨rfl, by simp [hok]⟩

theorem readFromServer_spec {first : Bytes} {s t : Tunnel} {isset : Bool} {read : Bytes}
    (hc : s.Conserved first) (hl : s.left = none) (h : s.readFromServer isset read = some t) :
    t.Conserved first ∧ t.clientBufIn = s.clientBufIn ∧
      ((t = s ∧ isset = false) ∨ (t.left = none ∧ isset = true ∧ t.clientBufOut.buf.data ≠ []) ∨
        (t.left = some .fromServer ∧ t.clientBufOut.buf.data = s.clientBufOut.buf.data)) := by
  unfold readFromServer at h
  rw [hl] at h
  cases isset with
  | false =>
    obtain rfl := Option.some.inj h
    exact ⟨hc, rfl, .inl ⟨rfl, rfl⟩⟩
  | true =>
    simp only [Option.isNone_none, Bool.and_true, if_true, Option.ite_none_left_eq_some, not_lt] at h
    obtain ⟨hroom, heq⟩ := h
    obtain rfl := Option.some.inj heq
    refine ⟨⟨hc.up, hc.down.sysread read hroom⟩, rfl, .inr ?_⟩
    cases read with
    | nil => exact .inr ⟨rfl, by simp [TunnelLane.sysread, AcBuf.sysread]⟩
    | cons c cs => exact .inl ⟨rfl, rfl, by simp [TunnelLane.sysread, AcBuf.sysread]⟩

theorem readFromClient_spec {first : Bytes} {s t : Tunnel} {isset : Bool} {read : Bytes}
    (hc : s.Conserved first) (hl : s.left = none) (h : s.readFromClient isset read = some t) :
    t.Conserved first ∧ t.clientBufOut = s.clientBufOut ∧
      (t.left = none ∨
        (t.left = some .fromClient ∧ t.clientBufIn.buf.data = s.clientBufIn.buf.data)) := by
  unfold readFromClient at h
  rw [hl] at h
  cases isset with
  | false =>
    obtain rfl := Option.some.inj h
    exact ⟨hc, rfl, .inl hl⟩
  | true =>
    simp only [Option.isNone_none, Bool.and_true, if_true, Option.ite_none_left_eq_some, not_lt] at h
    obtain ⟨hroom, heq⟩ := h
    obtain rfl := Option.some.inj heq
    refine ⟨⟨hc.up.sysread read hroom, hc.down⟩, rfl, ?_⟩
    cases read with
    | nil => exact .inr ⟨rfl, by simp [TunnelLane.sysread, AcBuf.sysread]⟩
    | cons c cs => exact .inl rfl

/-- Once the loop is left, the calls behind that do nothing. -/
theorem sendToClient_left {t : Tunnel} (isset : Bool) (writes : List DumpResult) (h : t.left ≠ none) :
    t.sendToClient isset writes = some t := by
  obtain ⟨why, hw⟩ := Option.ne_none_iff_exists'.mp h
  simp [sendToClient, hw]

theorem readFromServer_left {t : Tunnel} (isset : Bool) (read : Bytes) (h : t.left ≠ none) :
    t.readFromServer isset read = some t := by
  obtain ⟨why, hw⟩ := Option.ne_none_iff_exists'.mp h
  simp [readFromServer, hw]

theorem readFromClient_left {t : Tunnel} (isset : Bool) (read : Bytes) (h : t.left ≠ none) :
    t.readFromClient isset read = some t := by
  obtain ⟨why, hw⟩ := Option.ne_none_iff_exists'.mp h
  simp [readFromClient, hw]

/-- A pass that comes to the end of one of the streams finds the other side ready for what is in the
buffers, and has nothing new for the client when it is the client's stream that ends. -/
def Flushes (s : Tunnel) (io : TunnelIo) (why : TunnelEnd) : Prop :=
  why ≠ .toServer ∧ why ≠ .toClient ∧
    (s.clientBufIn.buf.data = [] ∨ (s.found io).serverWrite = true) ∧
    (s.clientBufOut.buf.data = [] ∨ (s.found io).clientWrite = true) ∧
    (why = .fromClient → (s.found io).serverRead = false)

/-- The step lemma. -/
theorem pass_spec {first : Bytes} {s t : Tunnel} {io : TunnelIo} (hc : s.Conserved first)
    (h : s.pass io = some t) :
    t.Conserved first ∧ ∀ why, t.left = some why → (t.Delivered first ↔ Flushes s io why) := by
  unfold pass at h
  rw [Option.ite_none_left_eq_some] at h
  obtain ⟨hl, h⟩ := h
  have hl : s.left = none := by simpa using hl
  cases hsel : io.select with
  | none =>
    rw [hsel] at h
    obtain rfl := Option.some.inj h
    refine ⟨⟨hc.up, hc.down⟩, fun why hw => ?_⟩
    obtain rfl := Option.some.inj hw
    rw [Conserved.delivered_iff (t := { s with left := some .select }) ⟨hc.up, hc.down⟩]
    simp [Flushes, found, hsel]
  | some ready =>
    rw [hsel] at h
    simp only [Option.bind_eq_some_iff] at h
    obtain ⟨t1, h1, t2, h2, t3, h3, h4⟩ := h
    have hfound : s.found io = {
        serverWrite := s.wanted.serverWrite && ready.serverWrite
        clientWrite := s.wanted.clientWrite && ready.clientWrite
        serverRead := s.wanted.serverRead && ready.serverRead
        clientRead := s.wanted.clientRead && ready.clientRead } := by
      simp [found, hsel]
    unfold Flushes
    rw [hfound]
    simp only
    generalize (s.wanted.serverWrite && ready.serverWrite) = w1 at h1 ⊢
    generalize (s.wanted.clientWrite && ready.clientWrite) = w2 at h2 ⊢
    generalize (s.wanted.serverRead && ready.serverRead) = r1 at h3 ⊢
    obtain ⟨hc1, hout1, ⟨hl1, hin1⟩ | ⟨hl1, hin1⟩⟩ := sendToServer_spec hc hl h1
    swap
    · have hne : t1.left ≠ none := by simp [hl1]
      obtain rfl := Option.some.inj ((sendToClient_left _ _ hne).symm.trans h2)
      obtain rfl := Option.some.inj ((readFromServer_left _ _ hne).symm.trans h3)
      obtain rfl := Option.some.inj ((readFromClient_left _ _ hne).symm.trans h4)
      refine ⟨hc1, fun why hw => ?_⟩
      obtain rfl := Option.some.inj (hl1.symm.trans hw)
      rw [hc1.delivered_iff]
      simp [hin1]
    obtain ⟨hc2, hin2, ⟨hl2, hout2⟩ | ⟨hl2, hout2⟩⟩ := sendToClient_spec hc1 hl1 h2
    swap
    · have hne : t2.left ≠ none := by simp [hl2]
      obtain rfl := Option.some.inj ((readFromServer_left _ _ hne).symm.trans h3)
      obtain rfl := Option.some.inj ((readFromClient_left _ _ hne).symm.trans h4)
      refine ⟨hc2, fun why hw => ?_⟩
      obtain rfl := Option.some.inj (hl2.symm.trans hw)
      rw [hc2.delivered_iff]
      simp [hout2]
    unfold Written at hin1 hout2
    rw [← hin2] at hin1
    rw [hout1] at hout2
    obtain ⟨hc3, hin3, hcase⟩ := readFromServer_spec hc2 hl2 h3
    rcases hcase with ⟨rfl, hr⟩ | ⟨hl3, hr, hout3⟩ | ⟨hl3, hout3⟩
    · obtain ⟨hc4, hout4, hl4 | ⟨hl4, hin4⟩⟩ := readFromClient_spec hc3 hl2 h4
      · exact ⟨hc4, fun why hw => absurd (hl4.symm.trans hw) (by simp)⟩
      · refine ⟨hc4, fun why hw => ?_⟩
        obtain rfl := Option.some.inj (hl4.symm.trans hw)
        rw [hc4.delivered_iff, hin4, hin1, hout4, hout2]
        simp [hr]
    · obtain ⟨hc4, hout4, hl4 | ⟨hl4, hin4⟩⟩ := readFromClient_spec hc3 hl3 h4
      · exact ⟨hc4, fun why hw => absurd (hl4.symm.trans hw) (by simp)⟩
      · refine ⟨hc4, fun why hw => ?_⟩
        obtain rfl := Option.some.inj (hl4.symm.trans hw)
        rw [hc4.delivered_iff, hout4]
        simp [hr, hout3]
    · have hne : t3.left ≠ none := by simp [hl3]
      obtain rfl := Option.some.inj ((readFromClient_left _ _ hne).symm.trans h4)
      refine ⟨hc3, fun why hw => ?_⟩
      obtain rfl := Option.some.inj (hl3.symm.trans hw)
      rw [hc3.delivered_iff, hin3, hin1, hout3, hout2]
      simp

/-- The run lemma. -/
theorem run_conserved {first : Bytes} {s t : Tunnel} {ios : List TunnelIo} (hs : s.Conserved first)
    (h : s.run ios = some t) : t.Conserved first :=
  runs_induct (motive := fun _ m => m.Conserved first) hs
    (fun _ _ _ _ _ hm hstep => (pass_spec hm hstep).1) h

/-- In both directions there is always something that `select` is asked for. -/
theorem Conserved.wanted {first : Bytes} {t : Tunnel} (h : t.Conserved first) :
    (t.wanted.serverWrite || t.wanted.clientRead) = true ∧
      (t.wanted.clientWrite || t.wanted.serverRead) = true := by
  have hlane : ∀ {first : Bytes} {l : TunnelLane}, l.Conserved first →
      (!l.buf.data.isEmpty || decide (0 < l.buf.freecapa tunnelBufSize)) = true := by
    intro first l hl
    by_cases hd : l.buf.data = []
    · rw [hl.fits.freecapa_empty hd]
      simp [tunnelBufSize]
    · simp [hd]
  exact ⟨hlane h.up, hlane h.down⟩

end Tunnel

namespace Conn

/-- The buffer holds what is left of a stream. -/
structure Tracks (s : Bytes) (c : Conn) : Prop where
  rest : c.inBuf.data = s.drop c.consumed
  inside : c.consumed ≤ s.length

theorem Tracks.drop {s : Bytes} {c : Conn} (h : Tracks s c) (n : Nat) (hn : n ≤ c.inBuf.data.length) :
    Tracks s (c.drop n) := by
  rw [h.rest, List.length_drop] at hn
  have hin := h.inside
  refine ⟨?_, ?_⟩
  · rw [drop_data, h.rest, List.drop_drop]
    rfl
  · simp only [Conn.drop]
    omega

/-- What the buffer began with when a request was refused or granted as a CONNECT. -/
def AtConnect (text tgt : Bytes) : Prop :=
  0 < (Header.load text).1 ∧ (Header.load text).2.hd.type = .connect ∧
    (Header.load text).2.hd.status.msg = tgt

theorem request_tracks {s : Bytes} {c : Conn} (cfg : ConnCfg) (h : Tracks s c) (hl : c.left = none) :
    Tracks s (c.request cfg).1 ∧ ∀ tgt granted, (c.request cfg).1.left = some (.connect tgt granted) →
      AtConnect c.inBuf.data tgt ∧
        (c.request cfg).1.inBuf.data = c.inBuf.data.drop (Header.load c.inBuf.data).1.toNat := by
  have hle := Header.load_le c.inBuf.data none
  unfold request AtConnect
  generalize hload : Header.load c.inBuf.data = r at hle ⊢
  obtain ⟨n, st⟩ := r
  simp only at hle ⊢
  have hn : n.toNat ≤ c.inBuf.data.length := by omega
  split
  · exact ⟨⟨h.rest, h.inside⟩, fun tgt granted hw => absurd (hl.symm.trans hw) (by simp)⟩
  rename_i h0
  split
  · exact ⟨⟨h.rest, h.inside⟩, fun tgt granted hw => by simp [leave] at hw⟩
  rename_i hneg
  split
  · exact ⟨⟨h.rest, h.inside⟩, fun tgt granted hw => by simp [leave] at hw⟩
  split
  · rename_i hconnect
    have ht := h.drop n.toNat hn
    refine ⟨⟨ht.rest, ht.inside⟩, fun tgt granted hw => ⟨⟨by omega, hconnect, ?_⟩, drop_data c _⟩⟩
    simp only [leave, Option.some.injEq, Leave.connect.injEq] at hw
    exact hw.1
  have ht := h.drop n.toNat hn
  split
  · unfold identify
    simp only
    split
    · exact ⟨⟨ht.rest, ht.inside⟩, fun tgt granted hw => by simp [leave] at hw⟩
    · exact ⟨⟨ht.rest, ht.inside⟩, fun tgt granted hw => absurd (hl.symm.trans hw) (by simp)⟩
  · split
    · exact ⟨⟨h.rest, h.inside⟩, fun tgt granted hw => by simp [leave] at hw⟩
    · have ht' : Tracks s ((c.addJob cfg st.hd).drop n.toNat) :=
        Tracks.drop (c := c.addJob cfg st.hd) ⟨h.rest, h.inside⟩ n.toNat hn
      exact ⟨ht', fun tgt granted hw => absurd (hl.symm.trans hw) (by simp)⟩

/-- How a connection stands to a stream from which it was left for a tunnel: what is in its buffer
begins right behind the head of the CONNECT. -/
def LeftFor (s : Bytes) (c : Conn) (tgt : Bytes) : Prop :=
  ∃ front text, s = front ++ text ∧ AtConnect text tgt ∧
    c.inBuf.data = text.drop (Header.load text).1.toNat

theorem splitInput_tracks {s : Bytes} (cfg : ConnCfg) (n : Nat) {c : Conn} (h : Tracks s c)
    (hl : c.left = none) :
    Tracks s (splitInput cfg n c) ∧ ∀ tgt granted,
      (splitInput cfg n c).left = some (.connect tgt granted) → LeftFor s (splitInput cfg n c) tgt := by
  induction n generalizing c with
  | zero => exact ⟨h, fun tgt granted hw => absurd (hl.symm.trans hw) (by simp)⟩
  | succ n ih =>
    unfold splitInput
    split
    · exact ⟨h, fun tgt granted hw => absurd (hl.symm.trans hw) (by simp)⟩
    · obtain ⟨ht, hcon⟩ := request_tracks cfg h hl
      have hgo := request_complete cfg c
      have hstop := request_incomplete cfg c
      generalize c.request cfg = r at ht hcon hgo hstop ⊢
      obtain ⟨d, go⟩ := r
      cases go with
      | false =>
        refine ⟨ht, fun tgt granted hw => ?_⟩
        obtain ⟨hat, hdata⟩ := hcon tgt granted hw
        refine ⟨s.take c.consumed, c.inBuf.data, ?_, hat, hdata⟩
        rw [h.rest, List.take_append_drop]
      | true =>
        refine ih ht ?_
        by_cases h0 : (Header.load c.inBuf.data none).1 = 0
        · have hfalse := hstop h0
          cases hfalse
        · rcases hgo h0 with ⟨hf, -⟩ | ⟨-, hsame, -⟩
          · cases hf
          · exact hsame.trans hl

theorem round_tracks {s : Bytes} {c : Conn} (cfg : ConnCfg) (io : Round) (h : Tracks s c)
    (hl : c.left = none) :
    ((c.round cfg io).left = none → Tracks (s ++ io.bytes) (c.round cfg io)) ∧ ∀ tgt granted,
      (c.round cfg io).left = some (.connect tgt granted) → LeftFor (s ++ io.bytes) (c.round cfg io) tgt := by
  unfold round
  split
  · exact ⟨fun hn => by simp [leave] at hn, fun tgt granted hw => by simp [leave] at hw⟩
  cases io with
  | idle =>
    simp only [Round.bytes, List.append_nil]
    exact ⟨fun _ => h, fun tgt granted hw => absurd (hl.symm.trans hw) (by simp)⟩
  | gone => exact ⟨fun hn => by simp [leave] at hn, fun tgt granted hw => by simp [leave] at hw⟩
  | ready read sent =>
    have hread : Tracks (s ++ read) { c with inBuf := c.inBuf.sysread read } := by
      refine ⟨?_, ?_⟩
      · simp only [AcBuf.sysread, h.rest, List.drop_append_of_le_length h.inside]
      · have := h.inside
        simp only [List.length_append]
        omega
    obtain ⟨ht, hcon⟩ := splitInput_tracks cfg (c.inBuf.sysread read).data.length hread hl
    simp only [Round.bytes]
    change (_ → _) ∧ _
    unfold split
    simp only
    generalize splitInput cfg (c.inBuf.sysread read).data.length
      ({ c with inBuf := c.inBuf.sysread read } : Conn) = d at ht hcon ⊢
    split
    · exact ⟨fun _ => ht, hcon⟩
    split
    · exact ⟨fun hn => by simp [leave] at hn, fun tgt granted hw => by simp [leave] at hw⟩
    split
    · cases sent with
      | none => exact ⟨fun _ => ht, hcon⟩
      | some res =>
        cases res with
        | done => exact ⟨fun _ => ⟨ht.rest, ht.inside⟩, hcon⟩
        | again => exact ⟨fun _ => ht, hcon⟩
        | discon => exact ⟨fun hn => by simp [written, leave] at hn, fun tgt granted hw => by
            simp [written, leave] at hw⟩
    · exact ⟨fun _ => ht, hcon⟩

theorem workLoop_tracks {s : Bytes} {c : Conn} (cfg : ConnCfg) (ios : List Round) (h : Tracks s c)
    (hl : c.left = none) (hopen : (c.workLoop cfg ios).left = none) :
    Tracks (s ++ stream ios) (c.workLoop cfg ios) := by
  induction ios generalizing s c with
  | nil => simpa [stream, workLoop] using h
  | cons io ios ih =>
    have hstream : s ++ stream (io :: ios) = s ++ io.bytes ++ stream ios := by simp [stream]
    rw [workLoop, if_neg (by simp [hl])] at hopen ⊢
    rw [hstream]
    by_cases hr : (c.round cfg io).left = none
    · exact ih ((round_tracks cfg io h hl).1 hr) hr hopen
    · rw [workLoop_left cfg _ ios hr] at hopen
      exact absurd hopen hr

end Conn

namespace Tunnel

theorem passThrough_opened {cfg : FailoverCfg} {a : Attempts} {buf : AcBuf} {uri : Bytes} {t : Tunnel}
    (h : passThrough cfg a buf uri = .opened t) :
    t = { clientBufIn := { buf }, clientBufOut := { buf := { data := tunnelEstablished } } } := by
  unfold passThrough at h
  split at h
  · cases h
  · split at h
    · cases h
    · exact (PassingThrough.opened.inj h).symm

theorem established_fits : ({ data := tunnelEstablished } : AcBuf).Fits tunnelBufSize :=
  ⟨by decide +kernel, fun h => absurd h (by decide +kernel)⟩

theorem start_conserved {cfg : FailoverCfg} {a : Attempts} {buf : AcBuf} {uri : Bytes} {t : Tunnel}
    (hbuf : buf.Fits tunnelBufSize) (h : passThrough cfg a buf uri = .opened t) : t.Conserved buf.data := by
  rw [passThrough_opened h]
  exact ⟨⟨hbuf, by simp⟩, ⟨established_fits, by simp⟩⟩

/-- A tunnel is transparent: the server gets what the client sent behind the head of its CONNECT,
and the client gets the answer and what the server sent, each in order and once, as far as it is not
in a buffer of limited size. Neither direction ever gets stuck. What is in the buffers when the loop
is left is lost, and it is known from the last pass whether that is so. -/
theorem transparent (cfg : ConnCfg) (fcfg : FailoverCfg) (a : Attempts) (host tgt : Bytes)
    (ios : List Round) (io : Round) (c : Conn) (t₀ t : Tunnel) (acts : List TunnelIo)
    (hopen : (Conn.workLoop cfg { sClientHost := host } ios).left = none)
    (hc : (Conn.workLoop cfg { sClientHost := host } ios).round cfg io = c)
    (hleft : c.left = some (.connect tgt true)) (hbuf : c.inBuf.Fits tunnelBufSize)
    (h₀ : passThrough fcfg a c.inBuf tgt = .opened t₀) (hrun : t₀.run acts = some t) :
    (∃ front text, stream (ios ++ [io]) = front ++ text ∧ Conn.AtConnect text tgt ∧
      t.clientBufIn.sent ++ t.clientBufIn.buf.data =
        text.drop (Header.load text).1.toNat ++ t.clientBufIn.received) ∧
    t.clientBufOut.sent ++ t.clientBufOut.buf.data = tunnelEstablished ++ t.clientBufOut.received ∧
    t.clientBufIn.buf.Fits tunnelBufSize ∧ t.clientBufOut.buf.Fits tunnelBufSize ∧
    (t.wanted.serverWrite || t.wanted.clientRead) = true ∧
    (t.wanted.clientWrite || t.wanted.serverRead) = true ∧
    ∀ before last s why, acts = before ++ [last] → t₀.run before = some s → t.left = some why →
      (t.Delivered c.inBuf.data ↔ Flushes s last why) := by
  have hstart := start_conserved hbuf h₀
  have hend := run_conserved hstart hrun
  have htracks := Conn.workLoop_tracks (s := []) cfg ios (c := { sClientHost := host })
    ⟨rfl, Nat.zero_le _⟩ rfl hopen
  obtain ⟨front, text, hstream, hat, hdata⟩ := (Conn.round_tracks cfg io htracks hopen).2 tgt true
    (hc ▸ hleft)
  refine ⟨⟨front, text, ?_, hat, ?_⟩, hend.down.kept, hend.up.fits, hend.down.fits, hend.wanted.1,
    hend.wanted.2, ?_⟩
  · rw [← hstream]
    simp [stream]
  · rw [hend.up.kept, ← hc, hdata]
  · intro before last s why hacts hs hwhy
    rw [hacts] at hrun
    obtain ⟨m, hm, hlast⟩ := runs_snoc.mp hrun
    obtain rfl := Option.some.inj (hs.symm.trans hm)
    exact (pass_spec (run_conserved hstart hs) hlast).2 why hwhy

def tunnelCfg : ConnCfg := { Conn.plainCfg with passThrough := fun _ => true }

/-- The first bytes for the server come along with the head. -/
def connectRound : Round := .ready (lit "CONNECT a:443 HTTP/1.0\r\n\r\nhi") none

/-- Both sides are ready, and the server ends its stream. -/
def lastPass : TunnelIo where
  select := some { serverWrite := true, clientWrite := true, serverRead := true }
  toServer := [.wrote 1, .again, .wrote 1]
  toClient := [.wrote tunnelEstablished.length]

/-- The tunnel before and after it. -/
def hiStart : Tunnel where
  clientBufIn := { buf := (Conn.round tunnelCfg {} connectRound).inBuf }
  clientBufOut := { buf := { data := tunnelEstablished } }

def hiEnd : Tunnel where
  clientBufIn := { sent := lit "hi" }
  clientBufOut := { sent := tunnelEstablished }
  left := some .fromServer

theorem transparent_hi : hiEnd.Delivered (lit "hi") ↔ Flushes hiStart lastPass .fromServer :=
  (transparent tunnelCfg {} {} [] (lit "a:443") [] connectRound _ hiStart hiEnd [lastPass] rfl rfl
    (by decide +kernel) ⟨by decide +kernel, by decide +kernel⟩ (by decide +kernel)
    (by decide +kernel)).2.2.2.2.2.2 [] lastPass _ _ rfl rfl rfl

end Tunnel

end Acng
