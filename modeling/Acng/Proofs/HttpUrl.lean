import Acng.HttpUrl
import Acng.Lib.Scan
import Acng.Proofs.Confinement
import Acng.Proofs.Decimal
import Acng.Proofs.Unescape

namespace Acng
open Lib

namespace HttpUrl

/-- What there is before a port is looked for: the user info as it stands in the URL, and the
text of the host with its port. -/
structure Scanned where
  front : Front
  userText : Option Bytes
  hostPort : Bytes
  sPath : Bytes

def trimmed (sUrlRaw : Bytes) (unescape : Bool) : Bytes :=
  trimFront (stringTrimBack (if unescape then urlUnescape sUrlRaw else sUrlRaw))

/-- The text behind the leading slashes. -/
def hostStart (fr : Front) : Bytes := fr.rest.dropWhile (· == 47)

def Scanned.of (fr : Front) : Scanned :=
  let authority := (splitPath (hostStart fr)).1
  { front := fr, sPath := (splitPath (hostStart fr)).2
    userText := (rfind 64 authority).map authority.take, hostPort := (splitUser authority).2 }

def scan (sUrlRaw : Bytes) (unescape : Bool) : Option Scanned :=
  if (trimmed sUrlRaw unescape).isEmpty then none
  else
    (front (trimmed sUrlRaw unescape)).bind (fun fr =>
      if (hostStart fr).isEmpty || (hostStart fr).head? == some 95 then none else some (.of fr))

namespace Scanned

/-- The text that is taken for a port. -/
def digits (s : Scanned) : Option Bytes :=
  if s.front.noPort then none
  else (portPos s.front.bCheckBrac s.hostPort).map (fun p => s.hostPort.drop (p + 1))

def hostText (s : Scanned) : Bytes :=
  if s.front.noPort then s.hostPort
  else (portPos s.front.bCheckBrac s.hostPort).elim s.hostPort s.hostPort.take

/-- The number that `atoi` makes of digits, before it is an `int`. -/
def atoiValue (digits : Bytes) : Nat := min (decimal digits) (2 ^ 63 - 1)

/-- A text that is refused as a port: it has no digits or other bytes, or as an `int` it is too
large. -/
def refusedDigits (digits : Bytes) : Bool :=
  digits.isEmpty || !digits.all isdigit ||
    (2 ^ 16 ≤ atoiValue digits % 2 ^ 32 && atoiValue digits % 2 ^ 32 < 2 ^ 31)

def portRefused (s : Scanned) : Bool := s.digits.any refusedDigits

def ipv6 (s : Scanned) : Bool := s.hostText.head? == some 91

/-- The host whose last byte is looked at. -/
def bare (s : Scanned) : Bytes := if s.ipv6 then s.hostText.drop 1 else s.hostText

def closed (s : Scanned) : Bool := s.bare.getLast? == some 93

def inner (s : Scanned) : Bytes := if s.closed then s.bare.dropLast else s.bare

def decoded (s : Scanned) : Bytes := if s.ipv6 then s.inner else urlUnescape s.inner

/-- A host that is refused: its brackets do not match, or it has three colons in a row. -/
def hostRefused (s : Scanned) : Bool :=
  s.closed != (s.front.bCheckBrac || s.ipv6) || (find (lit ":::") s.decoded).isSome

def finish (s : Scanned) : Option HttpUrl :=
  if s.portRefused || s.hostRefused then none
  else some {
    nPort := s.digits.elim 0 (fun d => atoiValue d % 2 ^ 16)
    sHost := s.decoded, sPath := s.sPath
    sUserPass := s.userText.elim [] urlUnescape, bSSL := s.front.bSSL }

theorem strtoll_port {d : Bytes} (hne : d ≠ []) (hd : d.all isdigit = true) :
    strtoll d = atoiValue d := by
  have hread := strtoll_digits (x := []) hne (List.all_eq_true.mp hd) rfl
  rw [List.append_nil] at hread
  rw [hread]
  rfl

theorem port_eq (d host : Bytes) :
    (if d.isEmpty || !d.all isdigit then none
      else if toInt32 (strtoll d) > 65535 then none
      else some ((toInt32 (strtoll d) % 65536).toNat, host)) =
      if refusedDigits d then none else some (atoiValue d % 2 ^ 16, host) := by
  unfold refusedDigits
  cases hne : d.isEmpty with
  | true => rfl
  | false =>
    cases hd : d.all isdigit with
    | false => rfl
    | true =>
      have hvalue := strtoll_port (fun h => by simp [h] at hne) hd
      simp only [Bool.false_or, Bool.not_true, Bool.false_eq_true, if_false, hvalue, Bool.and_eq_true,
        decide_eq_true_eq]
      generalize atoiValue d = v
      unfold toInt32
      split
      · rename_i hlarge
        exact (if_pos (by omega)).symm
      · rename_i hsmall
        rw [if_neg (by omega)]
        exact congrArg (fun n => some (n, host)) (by omega)

theorem splitPort_eq (s : Scanned) :
    splitPort s.front.bCheckBrac s.front.noPort s.hostPort =
      if s.portRefused then none
      else some (s.digits.elim 0 (fun d => atoiValue d % 2 ^ 16), s.hostText) := by
  unfold splitPort portRefused digits hostText
  cases s.front.noPort with
  | true => rfl
  | false =>
    simp only [Bool.false_eq_true, if_false]
    cases portPos s.front.bCheckBrac s.hostPort with
    | none => rfl
    | some p => exact port_eq (s.hostPort.drop (p + 1)) (s.hostPort.take p)

theorem stripBrackets_eq (s : Scanned) :
    stripBrackets s.front.bCheckBrac s.hostText =
      if s.closed != (s.front.bCheckBrac || s.ipv6) then none else some s.decoded := by
  have hmatch (closed opened : Bool) : (if closed then !opened else opened) = (closed != opened) := by
    cases closed with
    | true => exact (Bool.true_bne opened).symm
    | false => exact (Bool.false_bne opened).symm
  rw [← hmatch]
  rfl

/-- The last steps of the parser. -/
theorem finish_eq (s : Scanned) :
    s.finish =
      (splitPort s.front.bCheckBrac s.front.noPort s.hostPort).bind (fun port =>
        (stripBrackets s.front.bCheckBrac port.2).bind (fun sHost =>
          if (find (lit ":::") sHost).isSome then none
          else some {
            nPort := port.1, sHost, sPath := s.sPath
            sUserPass := s.userText.elim [] urlUnescape, bSSL := s.front.bSSL })) := by
  rw [splitPort_eq]
  unfold finish hostRefused
  cases s.portRefused with
  | true => rfl
  | false =>
    simp only [Bool.false_or, Bool.false_eq_true, if_false, Option.bind_some, stripBrackets_eq]
    cases s.closed != (s.front.bCheckBrac || s.ipv6) with
    | true => rfl
    | false => rfl

end Scanned

theorem splitUser_user (authority : Bytes) :
    (splitUser authority).1 = ((rfind 64 authority).map authority.take).elim [] urlUnescape := by
  unfold splitUser
  cases rfind 64 authority with
  | none => rfl
  | some l => rfl

theorem setHttpUrl_scan (sUrlRaw : Bytes) (unescape : Bool) :
    setHttpUrl sUrlRaw unescape = (scan sUrlRaw unescape).bind Scanned.finish := by
  unfold setHttpUrl scan
  change (if (trimmed sUrlRaw unescape).isEmpty then _ else _) = _
  cases (trimmed sUrlRaw unescape).isEmpty with
  | true => rfl
  | false =>
    simp only [Bool.false_eq_true, if_false, Option.bind_eq_bind]
    change (front (trimmed sUrlRaw unescape)).bind _ = _
    cases front (trimmed sUrlRaw unescape) with
    | none => rfl
    | some fr =>
      simp only [Option.bind_some]
      change (if (hostStart fr).isEmpty then _ else if (hostStart fr).head? == some 95 then _ else _) = _
      cases (hostStart fr).isEmpty with
      | true => rfl
      | false =>
        cases (hostStart fr).head? == some 95 with
        | true => rfl
        | false =>
          simp only [Bool.or_self, Bool.false_eq_true, if_false, Option.bind_some, Option.bind_none,
            Scanned.finish_eq, splitUser_user, Scanned.of]
          rfl

theorem scan_some {sUrlRaw : Bytes} {unescape : Bool} {s : Scanned} :
    scan sUrlRaw unescape = some s ↔
      trimmed sUrlRaw unescape ≠ [] ∧ ∃ fr, front (trimmed sUrlRaw unescape) = some fr ∧
        hostStart fr ≠ [] ∧ (hostStart fr).head? ≠ some 95 ∧ s = .of fr := by
  unfold scan
  split
  · rename_i hempty
    exact iff_of_false nofun (fun h => h.1 (List.isEmpty_iff.mp hempty))
  · rename_i hne
    rw [Option.bind_eq_some_iff, and_iff_right (fun h => hne (List.isEmpty_iff.mpr h))]
    refine exists_congr (fun fr => and_congr_right (fun _ => ?_))
    split
    · rename_i hrefused
      rw [Bool.or_eq_true, List.isEmpty_iff, beq_iff_eq] at hrefused
      refine iff_of_false nofun (fun h => ?_)
      exact hrefused.elim h.1 h.2.1
    · rename_i htaken
      rw [Bool.or_eq_true, List.isEmpty_iff, beq_iff_eq, not_or] at htaken
      rw [and_iff_right htaken.1, and_iff_right htaken.2, Option.some.injEq, eq_comm]

theorem setHttpUrl_some {sUrlRaw : Bytes} {unescape : Bool} {u : HttpUrl} :
    setHttpUrl sUrlRaw unescape = some u ↔
      ∃ s, scan sUrlRaw unescape = some s ∧ s.finish = some u := by
  rw [setHttpUrl_scan]
  exact Option.bind_eq_some_iff

namespace Scanned

variable {s : Scanned} {u : HttpUrl}

theorem finish_some :
    s.finish = some u ↔ s.portRefused = false ∧ s.hostRefused = false ∧
      u = {
        nPort := s.digits.elim 0 (fun d => atoiValue d % 2 ^ 16), sHost := s.decoded, sPath := s.sPath
        sUserPass := s.userText.elim [] urlUnescape, bSSL := s.front.bSSL } := by
  unfold finish
  cases s.portRefused with
  | true => exact iff_of_false nofun nofun
  | false =>
    cases s.hostRefused with
    | true => exact iff_of_false nofun nofun
    | false => simp [eq_comm]

/-- The port is one that an `uint16_t` can hold. -/
def PortExact (s : Scanned) : Prop := ∀ d ∈ s.digits, decimal d ≤ 65535

/-- Something is left of the host without its brackets and its percent signs. -/
def HostLeft (s : Scanned) : Prop := if s.ipv6 then s.inner ≠ [] else ∃ c ∈ s.inner, c ≠ 37

theorem decoded_ne_nil : s.decoded ≠ [] ↔ s.HostLeft := by
  unfold decoded HostLeft
  split
  · rfl
  · simp only [ne_eq, urlUnescape_eq_nil, not_forall, exists_prop]

theorem port_exact_iff (d : Bytes) :
    (atoiValue d % 2 ^ 16 = decimal d ∧ atoiValue d % 2 ^ 16 ≤ 65535) ↔ decimal d ≤ 65535 := by
  unfold atoiValue
  omega

end Scanned

/-- What is promised for the result of the parser, and that it does not look at the last byte of an
empty host on its way. -/
structure ParsesWell (sUrlRaw : Bytes) (unescape : Bool) : Prop where
  indexed : ∀ s ∈ scan sUrlRaw unescape, s.portRefused = false → s.bare ≠ []
  host : ∀ u ∈ setHttpUrl sUrlRaw unescape, u.sHost ≠ []
  path : ∀ u ∈ setHttpUrl sUrlRaw unescape, u.sPath.head? = some 47
  port : ∀ u ∈ setHttpUrl sUrlRaw unescape, ∀ s ∈ scan sUrlRaw unescape, ∀ d ∈ s.digits,
    u.nPort = decimal d ∧ u.nPort ≤ 65535

theorem scan_path {sUrlRaw : Bytes} {unescape : Bool} {s : Scanned}
    (h : scan sUrlRaw unescape = some s) :
    s.sPath.head? = some 47 := by
  obtain ⟨-, fr, -, -, -, rfl⟩ := scan_some.mp h
  exact splitPath_head _

/-- The promises are kept, unless an empty host is left before or behind the removal of brackets and
escapes, or a number that is no port passes for one as an `int`. -/
theorem parsesWell_iff (sUrlRaw : Bytes) (unescape : Bool) :
    ParsesWell sUrlRaw unescape ↔
      ∀ s ∈ scan sUrlRaw unescape, s.portRefused = false →
        s.bare ≠ [] ∧ (s.hostRefused = false → s.PortExact ∧ s.HostLeft) := by
  constructor
  · intro hwell s hs hport
    refine ⟨hwell.indexed s hs hport, fun hhost => ?_⟩
    have hu := setHttpUrl_some.mpr ⟨s, hs, Scanned.finish_some.mpr ⟨hport, hhost, rfl⟩⟩
    refine ⟨fun d hd => ?_, Scanned.decoded_ne_nil.mp (hwell.host _ hu)⟩
    have hexact := hwell.port _ hu s hs d hd
    rw [Option.mem_def.mp hd, Option.elim_some] at hexact
    exact (Scanned.port_exact_iff d).mp hexact
  · intro hall
    refine ⟨fun s hs hport => (hall s hs hport).1, ?_, ?_, ?_⟩
    · intro u hu
      obtain ⟨s, hs, hfinish⟩ := setHttpUrl_some.mp hu
      obtain ⟨hport, hhost, rfl⟩ := Scanned.finish_some.mp hfinish
      exact Scanned.decoded_ne_nil.mpr ((hall s hs hport).2 hhost).2
    · intro u hu
      obtain ⟨s, hs, hfinish⟩ := setHttpUrl_some.mp hu
      obtain ⟨-, -, rfl⟩ := Scanned.finish_some.mp hfinish
      exact scan_path hs
    · intro u hu s hs d hd
      obtain ⟨s', hs', hfinish⟩ := setHttpUrl_some.mp hu
      obtain rfl := Option.some.inj (hs.symm.trans hs')
      obtain ⟨hport, hhost, rfl⟩ := Scanned.finish_some.mp hfinish
      rw [Option.mem_def.mp hd, Option.elim_some]
      exact (Scanned.port_exact_iff d).mpr (((hall s hs hport).2 hhost).1 d hd)

/-- Without a host the byte in front of its text is looked at, and the URL is taken. So is a number
that is a port only modulo 2^32, or that is larger than any. -/
theorem empty_host_indexed :
    ¬ ParsesWell (lit "http://user@/x") false ∧
      setHttpUrl (lit "http://user@/x") false = some { sPath := lit "/x", sUserPass := lit "user" } ∧
      setHttpUrl (lit "http://h:4294967376/") false =
        some { nPort := 80, sHost := lit "h", sPath := lit "/" } ∧
      setHttpUrl (lit "http://h:99999999999999999999/") false =
        some { nPort := 65535, sHost := lit "h", sPath := lit "/" } := by
  refine ⟨fun hwell => ?_, by decide, by decide, by decide⟩
  exact hwell.host _ (show setHttpUrl (lit "http://user@/x") false = some _ by rfl) rfl

end HttpUrl

end Acng
