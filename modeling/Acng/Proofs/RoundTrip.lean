import Acng.Lib.Separators
import Acng.Proofs.HttpUrl
import Acng.UrlEscape

namespace Acng
open Lib

variable {s : Bytes} {u : HttpUrl}

/-- What was escaped is read back in front of any text, if the percent sign is not allowed as it is. -/
theorem urlUnescape_pctEncode (allowed : UInt8 → Bool) (hpct : allowed 37 = false) (s t : Bytes) :
    urlUnescape (pctEncode allowed s ++ t) = s ++ urlUnescape t := by
  induction s with
  | nil => rfl
  | cons c s ih =>
    rw [pctEncode, List.flatMap_cons, ← pctEncode, List.append_assoc]
    cases hc : allowed c with
    | true =>
      have hne : (c == 37) = false := by
        refine beq_false_of_ne (fun h => ?_)
        rw [h, hpct] at hc
        cases hc
      simp only [if_true, List.singleton_append, urlUnescape_other _ hne, ih]
      rfl
    | false =>
      have hlt := c.toNat_lt
      simp only [Bool.false_eq_true, if_false, List.cons_append, List.nil_append, urlUnescape_triple,
        beq_self_eq_true, if_true, hexVal_hexDigit (by omega : c.toNat / 16 < 16),
        hexVal_hexDigit (by omega : c.toNat % 16 < 16), hexDigits_byte, ih]

theorem urlUnescape_plain {s : Bytes} (h : 37 ∉ s) (t : Bytes) :
    urlUnescape (s ++ t) = s ++ urlUnescape t := by
  induction s with
  | nil => rfl
  | cons c s ih =>
    rw [List.mem_cons, not_or] at h
    rw [List.cons_append, urlUnescape_other _ (beq_false_of_ne (Ne.symm h.1)), ih h.2]
    rfl

namespace HttpUrl

theorem toURIWith_plain (u : HttpUrl) : u.toURIWith false = u.toURI := by
  unfold toURIWith toURI
  simp

/-- The port as it is printed. -/
def portText (u : HttpUrl) : Bytes := if u.nPort ≠ 0 then 58 :: portFmt u.nPort else []

theorem toURI_eq (u : HttpUrl) :
    u.toURI = u.protoPrefix ++ (u.sHost ++ (u.portText ++ u.sPath)) := by
  unfold toURI portText
  simp only [List.append_assoc]

theorem portFmt_bytes (p : Nat) : ∀ c ∈ portFmt p, c = 45 ∨ isdigit c = true := by
  intro c hc
  unfold portFmt at hc
  simp only [decDigits_eq_dec] at hc
  split at hc
  · exact .inr (dec_digits p c hc)
  · rcases List.mem_cons.mp (List.mem_of_mem_take hc) with hminus | hdigit
    · exact .inl hminus
    · exact .inr (dec_digits _ c hdigit)

/-- The signs that structure a URL are not in a printed port. -/
theorem portFmt_plain (p : Nat) : ∀ c ∈ portFmt p, c ≠ 37 ∧ c ≠ 47 ∧ c ≠ 58 ∧ c ≠ 64 := by
  intro c hc
  rcases portFmt_bytes p c hc with rfl | hdigit
  · decide
  · have hne (b : UInt8) (hb : isdigit b = false) : c ≠ b := fun h =>
      Bool.noConfusion (hb.symm.trans (h ▸ hdigit))
    exact ⟨hne 37 rfl, hne 47 rfl, hne 58 rfl, hne 64 rfl⟩

theorem portText_plain (u : HttpUrl) : ∀ c ∈ u.portText, c ≠ 37 ∧ c ≠ 47 ∧ c ≠ 64 := by
  intro c hc
  unfold portText at hc
  split at hc
  · rcases List.mem_cons.mp hc with rfl | hc
    · decide
    · obtain ⟨hpct, hslash, -, hat⟩ := portFmt_plain _ c hc
      exact ⟨hpct, hslash, hat⟩
  · cases hc

theorem protoPrefix_plain (u : HttpUrl) : 37 ∉ u.protoPrefix := by
  unfold protoPrefix
  split
  · decide
  · decide

/-- The escaped form is read like the one without escapes. -/
theorem urlUnescape_toURI (u : HttpUrl) : urlUnescape (u.toURIWith true) = u.toURI := by
  have hpct : isSafeUrlChar 37 = false := by decide
  have hform : u.toURIWith true = u.protoPrefix ++ (pctEncode isSafeUrlChar u.sHost ++
      (u.portText ++ (pctEncode isSafeUrlChar u.sPath ++ []))) := by
    unfold toURIWith portText urlEscapeAppend
    simp only [if_true, List.append_assoc, List.append_nil]
  rw [hform, urlUnescape_plain u.protoPrefix_plain, urlUnescape_pctEncode _ hpct,
    urlUnescape_plain (fun h => (u.portText_plain 37 h).1 rfl), urlUnescape_pctEncode _ hpct, toURI_eq]
  simp [urlUnescape_nil]

/-- A path starts with a slash, which is not trimmed away. -/
theorem trimBack_path {path : Bytes} (h : path.head? = some 47) :
    ∃ q, path = 47 :: q ∧ trimBack path = 47 :: trimBack q := by
  cases path with
  | nil => cases h
  | cons c q =>
    obtain rfl := Option.some.inj h
    refine ⟨q, rfl, ?_⟩
    by_cases hq : trimBack q = []
    · have hall := List.rdropWhile_eq_nil_iff.mp hq
      rw [hq, trimBack, List.rdropWhile, List.reverse_cons, List.dropWhile_append, if_pos]
      · rfl
      · rw [List.isEmpty_iff, List.dropWhile_eq_nil_iff]
        exact fun c hc => hall c (List.mem_reverse.mp hc)
    · exact trimBack_behind [47] hq

/-- What the parser sees of a printed URL: white space at its end is lost. -/
theorem trimmed_toURI (u : HttpUrl) (h : u.sPath.head? = some 47) :
    trimmed u.toURI false = u.protoPrefix ++ (u.sHost ++ (u.portText ++ trimBack u.sPath)) := by
  obtain ⟨q, -, hkept⟩ := trimBack_path h
  have hback : trimBack u.toURI = u.protoPrefix ++ (u.sHost ++ (u.portText ++ trimBack u.sPath)) := by
    rw [toURI_eq, ← List.append_assoc, ← List.append_assoc,
      trimBack_behind _ (by rw [hkept]; exact nofun)]
    simp only [List.append_assoc]
  have hlong : ∀ text : Bytes, (u.protoPrefix ++ text).length ≠ 1 ∧
      trimFront (u.protoPrefix ++ text) = u.protoPrefix ++ text := by
    intro text
    unfold protoPrefix
    split
    · exact ⟨by simp [lit], rfl⟩
    · exact ⟨by simp [lit], rfl⟩
  unfold trimmed stringTrimBack
  simp only [Bool.false_eq_true, if_false]
  change trimFront (if (trimBack u.toURI).length == 1 then _ else trimBack u.toURI) = _
  rw [hback, if_neg (fun hone => (hlong _).1 (beq_iff_eq.mp hone)), (hlong _).2]

theorem front_toURI (u : HttpUrl) (text : Bytes) :
    front (u.protoPrefix ++ text) = some { rest := text, bSSL := u.bSSL } := by
  unfold protoPrefix
  cases u.bSSL with
  | true => exact front_https text
  | false => exact front_http text

/-- A text with a slash in it is split there. -/
theorem splitPath_slash {rest : Bytes} (h : 47 ∈ rest) :
    splitPath rest =
      (rest.takeWhile (· != 47), 47 :: (rest.dropWhile (· != 47)).dropWhile (· == 47)) := by
  have htail : rest.dropWhile (· != 47) ≠ [] := by
    rw [ne_eq, List.dropWhile_eq_nil_iff]
    exact fun hall => by simpa using hall 47 h
  unfold splitPath
  cases hd : rest.dropWhile (· != 47) with
  | nil => exact absurd hd htail
  | cons c t => rfl

/-- What is cut off at the slash is not in the path. -/
theorem splitPath_length (rest : Bytes) :
    (splitPath rest).2.length + (splitPath rest).1.length ≤ rest.length + 1 := by
  by_cases hslash : 47 ∈ rest
  · obtain ⟨s, t, rfl, hs⟩ := List.eq_append_cons_of_mem hslash
    have hle := (List.dropWhile_suffix (l := t) (· == 47)).length_le
    rw [splitPath_slash hslash, takeWhile_sep t hs, dropWhile_sep t hs, List.dropWhile_cons_of_pos rfl]
    simp only [List.length_cons, List.length_append]
    omega
  · have hno := dropWhile_none hslash
    have hhost := (List.takeWhile_prefix (l := rest) (· != 47)).length_le
    have hquery := congrArg List.length (List.takeWhile_append_dropWhile (p := (· != 63)) (l := rest))
    rw [List.length_append] at hquery
    unfold splitPath
    rw [hno]
    simp only
    split
    · simp only [List.length_singleton]
      omega
    · simp only [List.length_cons]
      omega

theorem splitUser_append {a t : Bytes} (h : 64 ∉ t) :
    (splitUser (a ++ t)).2 = (splitUser a).2 ++ t := by
  unfold splitUser
  rw [rfind_append a h]
  cases hat : rfind 64 a with
  | none => rfl
  | some l => exact List.drop_append_of_le_length (rfind_lt hat)

theorem splitUser_le (a : Bytes) :
    (splitUser a).2.length ≤ a.length ∧ (64 ∈ a → (splitUser a).2.length < a.length) ∧
      (64 ∉ a → (splitUser a).2 = a) := by
  unfold splitUser
  cases hat : rfind 64 a with
  | none => exact ⟨le_rfl, fun h => absurd h (rfind_eq_none.mp hat), fun _ => rfl⟩
  | some l =>
    have hlt := rfind_lt hat
    refine ⟨?_, fun _ => ?_, fun h => ?_⟩
    · exact (List.drop_suffix _ _).length_le
    · rw [List.length_drop]
      omega
    · rw [rfind_eq_none.mpr h] at hat
      cases hat

namespace Scanned

variable {s : Scanned}

theorem hostText_le : s.hostText.length ≤ s.hostPort.length := by
  unfold hostText
  split
  · exact le_rfl
  · cases portPos s.front.bCheckBrac s.hostPort with
    | none => exact le_rfl
    | some p => exact List.length_take_le' p s.hostPort

theorem bare_le : s.bare.length ≤ s.hostText.length ∧
    (s.ipv6 = true → s.bare.length < s.hostText.length) := by
  unfold bare
  split
  · rename_i hipv6
    have hne : s.hostText ≠ [] := by
      intro hnil
      rw [ipv6, hnil] at hipv6
      cases hipv6
    have hpos := List.length_pos_iff.mpr hne
    rw [List.length_drop]
    exact ⟨by omega, fun _ => by omega⟩
  · rename_i hno
    exact ⟨le_rfl, fun hipv6 => absurd hipv6 hno⟩

theorem inner_le : s.inner.length ≤ s.bare.length ∧
    (s.closed = true → s.inner.length < s.bare.length) := by
  unfold inner
  split
  · rename_i hclosed
    have hne : s.bare ≠ [] := by
      intro hnil
      rw [closed, hnil] at hclosed
      cases hclosed
    have hpos := List.length_pos_iff.mpr hne
    rw [List.length_dropLast]
    exact ⟨by omega, fun _ => by omega⟩
  · rename_i hno
    exact ⟨le_rfl, fun hclosed => absurd hclosed hno⟩

theorem decoded_inner : s.decoded.length ≤ s.inner.length := by
  unfold decoded
  split
  · exact le_rfl
  · exact urlUnescape_le _

theorem decoded_le : s.decoded.length ≤ s.hostText.length :=
  decoded_inner.trans (inner_le.1.trans bare_le.1)

theorem bare_plain (h : s.ipv6 = false) : s.bare = s.hostText := by
  unfold bare
  rw [h]
  rfl

theorem inner_plain (h : s.closed = false) : s.inner = s.bare := by
  unfold inner
  rw [h]
  rfl

/-- If nothing of the host is lost, then it has no brackets around it and no escapes. -/
theorem decoded_whole (h : s.decoded.length = s.hostText.length) :
    s.hostText.head? ≠ some 91 ∧ s.hostText.getLast? ≠ some 93 ∧ 37 ∉ s.hostText := by
  obtain ⟨hbare, hbracket⟩ := bare_le (s := s)
  obtain ⟨hinner, hclosing⟩ := inner_le (s := s)
  have hdecoded := decoded_inner (s := s)
  have hipv6 : s.ipv6 = false := by
    rw [← Bool.not_eq_true]
    intro hyes
    have := hbracket hyes
    omega
  have hclosed : s.closed = false := by
    rw [← Bool.not_eq_true]
    intro hyes
    have := hclosing hyes
    omega
  have hpct : 37 ∉ s.inner := by
    intro hmem
    have hless := (urlUnescape_kept s.inner).2 hmem
    rw [decoded, hipv6] at h
    simp only [Bool.false_eq_true, if_false] at h
    omega
  rw [inner_plain hclosed, bare_plain hipv6] at hpct
  rw [closed, bare_plain hipv6] at hclosed
  exact ⟨beq_eq_false_iff_ne.mp hipv6, beq_eq_false_iff_ne.mp hclosed, hpct⟩

end Scanned

/-- A printed URL behind its scheme. -/
def printed (u : HttpUrl) : Front :=
  { rest := u.sHost ++ (u.portText ++ trimBack u.sPath), bSSL := u.bSSL }

theorem scan_printed {s : Scanned} (hpath : u.sPath.head? = some 47) :
    scan u.toURI false = some s ↔
      hostStart u.printed ≠ [] ∧ (hostStart u.printed).head? ≠ some 95 ∧ s = .of u.printed := by
  have hne : trimmed u.toURI false ≠ [] := by
    rw [trimmed_toURI u hpath, protoPrefix]
    split
    · exact nofun
    · exact nofun
  rw [scan_some, and_iff_right hne, trimmed_toURI u hpath, front_toURI]
  constructor
  · rintro ⟨fr, hfr, h⟩
    obtain rfl := Option.some.inj hfr
    exact h
  · exact fun h => ⟨_, rfl, h⟩

theorem scan_escaped (u : HttpUrl) : scan (u.toURIWith true) true = scan (u.toURIWith false) false := by
  have htrim : trimmed (u.toURIWith true) true = trimmed (u.toURIWith false) false := by
    unfold trimmed
    simp only [if_true, Bool.false_eq_true, if_false, urlUnescape_toURI, toURIWith_plain]
  unfold scan
  rw [htrim]

namespace Scanned

variable {s : Scanned} {H : Bytes}

/-- The last colon is the one of a printed port. -/
theorem port_printed (hf : s.front = u.printed) (hp : s.hostPort = H ++ u.portText)
    (hport : u.nPort ≠ 0) :
    s.hostText = H ∧ s.digits = some (portFmt u.nPort) := by
  have hcolon : 58 ∉ portFmt u.nPort := fun h => (portFmt_plain _ 58 h).2.2.1 rfl
  have hpos : portPos s.front.bCheckBrac s.hostPort = some H.length := by
    rw [hf, hp, portText, if_pos hport]
    exact rfind_behind H hcolon
  have hno : s.front.noPort = false := by rw [hf]; rfl
  unfold hostText digits
  rw [hno, hpos, hp, portText, if_pos hport]
  simp only [Bool.false_eq_true, if_false, Option.elim_some, Option.map_some, List.take_left,
    Option.some.injEq, true_and]
  rw [← List.drop_drop, List.drop_left]
  rfl

/-- Without a port, a colon in the host is taken for the one of a port. -/
theorem noPort_printed (hf : s.front = u.printed) (hp : s.hostPort = H ++ u.portText)
    (hport : u.nPort = 0) :
    (58 ∈ H → s.hostText.length < H.length) ∧ (58 ∉ H → s.hostText = H ∧ s.digits = none) := by
  have hall : s.hostPort = H := by
    rw [hp, portText, if_neg (not_not.mpr hport), List.append_nil]
  have hno : s.front.noPort = false := by rw [hf]; rfl
  have hpos : portPos s.front.bCheckBrac s.hostPort = rfind 58 H := by
    rw [hf, hall]
    rfl
  unfold hostText digits
  rw [hno, hpos, hall]
  cases hfind : rfind 58 H with
  | none => exact ⟨fun h => absurd h (rfind_eq_none.mp hfind), fun _ => ⟨rfl, rfl⟩⟩
  | some p =>
    refine ⟨fun _ => ?_, fun h => ?_⟩
    · exact (List.length_take_le p H).trans_lt (rfind_lt hfind)
    · rw [rfind_eq_none.mpr h] at hfind
      cases hfind

theorem hostText_printed (hf : s.front = u.printed) (hp : s.hostPort = H ++ u.portText)
    (hcolons : u.nPort = 0 → 58 ∉ H) :
    s.hostText = H ∧ s.digits = if u.nPort = 0 then none else some (portFmt u.nPort) := by
  by_cases hport : u.nPort = 0
  · rw [if_pos hport]
    exact (noPort_printed hf hp hport).2 (hcolons hport)
  · rw [if_neg hport]
    exact port_printed hf hp hport

theorem hostText_printed_le (hf : s.front = u.printed) (hp : s.hostPort = H ++ u.portText) :
    s.hostText.length ≤ H.length := by
  by_cases hport : u.nPort = 0
  · obtain ⟨hcut, hwhole⟩ := noPort_printed hf hp hport
    by_cases hcolon : 58 ∈ H
    · exact (hcut hcolon).le
    · rw [(hwhole hcolon).1]
  · rw [(port_printed hf hp hport).1]

end Scanned

/-- A URL is read back from a text: the parser takes it without looking at the end of an empty host, and
finds the same scheme, host, port and path. -/
structure ReadsBack (u : HttpUrl) (text : Bytes) (unescape : Bool) (v : HttpUrl) : Prop where
  taken : setHttpUrl text unescape = some v
  indexed : ∀ s ∈ scan text unescape, s.bare ≠ []
  scheme : v.bSSL = u.bSSL
  host : v.sHost = u.sHost
  port : v.getPort = u.getPort
  path : v.sPath = u.sPath

/-- A URL whose printed forms are read back. -/
structure Printable (u : HttpUrl) : Prop where
  port : u.nPort < 2 ^ 15
  host : u.sHost ≠ []
  plain : ∀ c ∈ u.sHost, c ≠ 37 ∧ c ≠ 47 ∧ c ≠ 64
  front : u.sHost.head? ≠ some 95 ∧ u.sHost.head? ≠ some 91
  back : u.sHost.getLast? ≠ some 93
  colons : u.nPort = 0 → 58 ∉ u.sHost

theorem hostPort_of {fr : Front} {A : Bytes} (h : (splitPath (hostStart fr)).1 = A) :
    (Scanned.of fr).hostPort = (splitUser A).2 := by
  rw [Scanned.of, h]

/-- Behind nothing but slashes, the parser finds an empty host or a shorter path. -/
theorem slashes_lost (hpath : u.sPath.head? = some 47) (hall : u.sHost.dropWhile (· == 47) = [])
    (hsame : (Scanned.of u.printed).sPath = u.sPath) : (Scanned.of u.printed).bare = [] := by
  have hbare (h : (Scanned.of u.printed).hostText = []) : (Scanned.of u.printed).bare = [] := by
    have hle := (Scanned.bare_le (s := .of u.printed)).1
    rw [h] at hle
    exact List.length_eq_zero_iff.mp (Nat.le_zero.mp hle)
  obtain ⟨q, hq, htrim⟩ := trimBack_path hpath
  have hslashes := List.dropWhile_eq_nil_iff.mp hall
  have hstart : hostStart u.printed = (u.portText ++ trimBack u.sPath).dropWhile (· == 47) :=
    List.dropWhile_append_of_pos hslashes
  by_cases hport : u.nPort = 0
  · have hshort : (hostStart u.printed).length + 1 ≤ u.sPath.length := by
      rw [hstart, portText, if_neg (not_not.mpr hport), List.nil_append, htrim,
        List.dropWhile_cons_of_pos rfl, hq, List.length_cons]
      have hdrop := (List.dropWhile_suffix (l := trimBack q) (· == 47)).length_le
      have hback := (List.rdropWhile_prefix isspace q).length_le
      exact Nat.succ_le_succ (hdrop.trans hback)
    have hsplit := splitPath_length (hostStart u.printed)
    have hlen : (splitPath (hostStart u.printed)).2.length = u.sPath.length := congrArg List.length hsame
    have hnil : (splitPath (hostStart u.printed)).1 = [] := by
      rw [← List.length_eq_zero_iff]
      omega
    have hle := Scanned.hostText_le (s := .of u.printed)
    rw [hostPort_of hnil] at hle
    exact hbare (List.length_eq_zero_iff.mp (Nat.le_zero.mp hle))
  · have hfull : hostStart u.printed = u.portText ++ 47 :: trimBack q := by
      rw [hstart, htrim, portText, if_pos hport]
      rfl
    have hplain := u.portText_plain
    have hauthority : (splitPath (hostStart u.printed)).1 = u.portText := by
      rw [hfull, splitPath_slash (by simp)]
      exact takeWhile_sep _ (fun h => (hplain 47 h).2.1 rfl)
    have hhost : (Scanned.of u.printed).hostPort = [] ++ u.portText := by
      rw [hostPort_of hauthority]
      exact (splitUser_le _).2.2 (fun h => (hplain 64 h).2.2 rfl)
    exact hbare (Scanned.port_printed (u := u) rfl hhost hport).1

theorem hostStart_printed (hsome : u.sHost.dropWhile (· == 47) ≠ []) :
    hostStart u.printed = u.sHost.dropWhile (· == 47) ++ (u.portText ++ trimBack u.sPath) := by
  unfold hostStart printed
  rw [List.dropWhile_append, if_neg]
  rw [List.isEmpty_iff]
  exact hsome

theorem dropWhile_noSlash (hslash : 47 ∉ u.sHost) : u.sHost.dropWhile (· == 47) = u.sHost := by
  rw [List.dropWhile_eq_self_iff]
  intro hpos hhead
  exact hslash (beq_iff_eq.mp hhead ▸ List.getElem_mem hpos)

theorem hostStart_whole (hne : u.sHost ≠ []) (hslash : 47 ∉ u.sHost) :
    hostStart u.printed = u.sHost ++ (u.portText ++ trimBack u.sPath) := by
  have hdrop := dropWhile_noSlash hslash
  have hstart := hostStart_printed (u := u) (hdrop.symm ▸ hne)
  rwa [hdrop] at hstart

theorem scan_toURI (hpath : u.sPath.head? = some 47) (hne : u.sHost ≠ []) (hslash : 47 ∉ u.sHost)
    (hhead : u.sHost.head? ≠ some 95) : scan u.toURI false = some (.of u.printed) := by
  have hstart := hostStart_whole hne hslash
  refine (scan_printed hpath).mpr ⟨?_, ?_, rfl⟩
  · rw [hstart]
    exact List.append_ne_nil_of_left_ne_nil hne _
  · rw [hstart, List.head?_append_of_ne_nil _ hne]
    exact hhead

theorem authority_printed {D : Bytes} (hpath : u.sPath.head? = some 47)
    (hstart : hostStart u.printed = D ++ (u.portText ++ trimBack u.sPath)) (hD : 47 ∉ D) :
    (splitPath (hostStart u.printed)).1 = D ++ u.portText := by
  obtain ⟨q, -, htrim⟩ := trimBack_path hpath
  have hno : 47 ∉ D ++ u.portText := by
    rw [List.mem_append, not_or]
    exact ⟨hD, fun h => (u.portText_plain 47 h).2.1 rfl⟩
  rw [htrim, ← List.append_assoc] at hstart
  rw [hstart, splitPath_slash (by simp)]
  exact takeWhile_sep _ hno

theorem hostPort_printed {D : Bytes} (hpath : u.sPath.head? = some 47)
    (hstart : hostStart u.printed = D ++ (u.portText ++ trimBack u.sPath)) (hD : 47 ∉ D) :
    (Scanned.of u.printed).hostPort = (splitUser D).2 ++ u.portText := by
  rw [hostPort_of (authority_printed hpath hstart hD)]
  exact splitUser_append (fun h => (u.portText_plain 64 h).2.2 rfl)

/-- What is taken for the host comes from the host, and a slash in that cuts it off. -/
theorem slash_cuts (hpath : u.sPath.head? = some 47) (hsome : u.sHost.dropWhile (· == 47) ≠ [])
    (hslash : 47 ∈ u.sHost) : (Scanned.of u.printed).hostText.length < u.sHost.length := by
  have hstart := hostStart_printed hsome
  have hle := (List.dropWhile_suffix (l := u.sHost) (· == 47)).length_le
  by_cases hD : 47 ∈ u.sHost.dropWhile (· == 47)
  · obtain ⟨H, t, hsplit, hH⟩ := List.eq_append_cons_of_mem hD
    have hauthority : (splitPath (hostStart u.printed)).1 = H := by
      rw [hstart, hsplit, List.append_assoc, List.cons_append, splitPath_slash (by simp)]
      exact takeWhile_sep _ hH
    have htext := Scanned.hostText_le (s := .of u.printed)
    rw [hostPort_of hauthority] at htext
    have huser := (splitUser_le H).1
    rw [hsplit, List.length_append, List.length_cons] at hle
    omega
  · have hless : (u.sHost.dropWhile (· == 47)).length < u.sHost.length := by
      refine lt_of_le_of_ne hle (fun heq => hD ?_)
      rw [(List.dropWhile_suffix _).eq_of_length heq]
      exact hslash
    have htext := Scanned.hostText_printed_le (u := u) rfl (hostPort_printed hpath hstart hD)
    have huser := (splitUser_le (u.sHost.dropWhile (· == 47))).1
    omega

theorem portFmt_taken {p : Nat} (h : Scanned.refusedDigits (portFmt p) = false) : p < 2 ^ 15 := by
  by_contra hlarge
  rw [portFmt, if_neg hlarge] at h
  cases h

/-- Every loss on the way makes the host shorter than it was. -/
theorem printable_of_readsBack {v : HttpUrl} (hpath : u.sPath.head? = some 47)
    (h : u.ReadsBack u.toURI false v) : u.Printable := by
  obtain ⟨s, hs, hfinish⟩ := setHttpUrl_some.mp h.taken
  have hbare := h.indexed s hs
  obtain ⟨hstart, hfront, rfl⟩ := (scan_printed hpath).mp hs
  obtain ⟨hport, -, rfl⟩ := Scanned.finish_some.mp hfinish
  have hhost : (Scanned.of u.printed).decoded = u.sHost := h.host
  have hlen := congrArg List.length hhost
  have hle := Scanned.decoded_le (s := .of u.printed)
  have hsome : u.sHost.dropWhile (· == 47) ≠ [] := fun hall => hbare (slashes_lost hpath hall h.path)
  have hslash : 47 ∉ u.sHost := by
    intro hmem
    have := slash_cuts hpath hsome hmem
    omega
  rw [dropWhile_noSlash hslash] at hsome
  have hwhole := hostStart_whole hsome hslash
  have hpair := hostPort_printed hpath hwhole hslash
  obtain ⟨huser, hcut, hkept⟩ := splitUser_le u.sHost
  have htext := Scanned.hostText_printed_le (u := u) rfl hpair
  have hat : 64 ∉ u.sHost := by
    intro hmem
    have := hcut hmem
    omega
  rw [hkept hat] at hpair
  have hcolons (hzero : u.nPort = 0) : 58 ∉ u.sHost := by
    intro hmem
    have := (Scanned.noPort_printed (u := u) rfl hpair hzero).1 hmem
    omega
  obtain ⟨hexact, hdigits⟩ := Scanned.hostText_printed (u := u) rfl hpair hcolons
  obtain ⟨hopen, hclose, hpct⟩ := Scanned.decoded_whole (congrArg List.length (hhost.trans hexact.symm))
  rw [hexact] at hopen hclose hpct
  refine ⟨?_, hsome, fun c hc => ⟨?_, ?_, ?_⟩, ⟨?_, hopen⟩, hclose, hcolons⟩
  · by_cases hzero : u.nPort = 0
    · omega
    · rw [Scanned.portRefused, hdigits, if_neg hzero] at hport
      exact portFmt_taken hport
  · exact fun he => hpct (he ▸ hc)
  · exact fun he => hslash (he ▸ hc)
  · exact fun he => hat (he ▸ hc)
  · rw [hwhole, List.head?_append_of_ne_nil _ hsome] at hfront
    exact hfront

/-- The path has no second slash at its start, and comes from the end of the text. -/
theorem splitPath_tidy (rest : Bytes) :
    ∃ q, (splitPath rest).2 = 47 :: q ∧ q.head? ≠ some 47 ∧ q <:+ rest := by
  unfold splitPath
  simp only
  split
  · have hquery := List.dropWhile_suffix (l := rest) (· != 63)
    have hhead := List.head?_dropWhile_not (· != 63) rest
    split
    · exact ⟨[], rfl, nofun, List.nil_suffix⟩
    · refine ⟨_, rfl, fun hslash => ?_, hquery⟩
      rw [hslash] at hhead
      cases hhead
  · have htail := List.dropWhile_suffix (l := rest) (· != 47)
    generalize rest.dropWhile (· != 47) = tail at htail ⊢
    refine ⟨_, rfl, fun hslash => ?_, (List.dropWhile_suffix _).trans htail⟩
    have hhead := List.head?_dropWhile_not (· == 47) tail
    rw [hslash] at hhead
    cases hhead

theorem splitPath_plain {rest : Bytes} (hslash : 47 ∉ rest) (hquery : 63 ∉ rest) :
    (splitPath rest).2 = [47] := by
  unfold splitPath
  rw [dropWhile_none hslash, dropWhile_none hquery]

theorem splitPath_query {rest : Bytes} (hslash : 47 ∉ rest) : (splitPath (63 :: rest)).1 = [] := by
  have hno : 47 ∉ 63 :: rest := by simp [hslash]
  unfold splitPath
  rw [dropWhile_none hno]
  rfl

theorem trimBack_suffix {s t : Bytes} (h : t <:+ s) (hs : trimBack s = s) : trimBack t = t := by
  unfold trimBack at hs ⊢
  rw [List.rdropWhile_eq_self_iff] at hs ⊢
  intro hne
  obtain ⟨pre, rfl⟩ := h
  have hlast := hs (List.append_ne_nil_of_right_ne_nil pre hne)
  rwa [List.getLast_append_of_ne_nil _ hne] at hlast

/-- The text that is scanned ends without white space, or has only that behind its first byte. -/
theorem trimmed_end (sUrlRaw : Bytes) (unescape : Bool) :
    trimBack (trimmed sUrlRaw unescape) = trimmed sUrlRaw unescape ∨
      ∃ c sp, trimmed sUrlRaw unescape = c :: sp ∧ ∀ b ∈ sp, isspace b = true := by
  unfold trimmed stringTrimBack
  generalize (if unescape = true then urlUnescape sUrlRaw else sUrlRaw) = x
  simp only
  split
  · rename_i hone
    obtain ⟨c, hc⟩ := List.length_eq_one_iff.mp (beq_iff_eq.mp hone)
    have hrev : x.reverse.dropWhile isspace = [c] := List.reverse_injective hc
    have hfirst : isspace c = false := by
      have hhead := List.head?_dropWhile_not isspace x.reverse
      rwa [hrev] at hhead
    have hback := List.takeWhile_append_dropWhile (p := isspace) (l := x.reverse)
    have hsplit : x = c :: (x.reverse.takeWhile isspace).reverse := by
      rw [hrev] at hback
      have hrow := congrArg List.reverse hback
      rw [List.reverse_reverse, List.reverse_append] at hrow
      exact hrow.symm
    refine .inr ⟨c, (x.reverse.takeWhile isspace).reverse, ?_, fun b hb => ?_⟩
    · conv_lhs => rw [hsplit]
      exact List.dropWhile_cons_of_neg (by simp [hfirst])
    · exact List.mem_takeWhile_imp (List.mem_reverse.mp hb)
  · exact .inl (trimBack_suffix (List.dropWhile_suffix _) (List.rdropWhile_idempotent _ _))

theorem trimBack_splitPath {rest : Bytes} (h : trimBack rest = rest) :
    trimBack (splitPath rest).2 = (splitPath rest).2 := by
  obtain ⟨q, hq, -, hsuffix⟩ := splitPath_tidy rest
  rw [hq]
  cases q with
  | nil => decide
  | cons c q => exact trimBack_append [47] (c :: q) nofun (trimBack_suffix hsuffix h)

theorem space_plain {sp : Bytes} (h : ∀ b ∈ sp, isspace b = true) : 47 ∉ sp ∧ 63 ∉ sp :=
  ⟨fun hmem => absurd (h 47 hmem) (by decide), fun hmem => absurd (h 63 hmem) (by decide)⟩

/-- A path with white space at its end has no host in front of it. -/
theorem accepted_path {sUrlRaw : Bytes} {unescape : Bool} (h : setHttpUrl sUrlRaw unescape = some u)
    (hne : u.sHost ≠ []) : trimBack u.sPath = u.sPath := by
  obtain ⟨s, hs, hfinish⟩ := setHttpUrl_some.mp h
  obtain ⟨-, fr, hfr, hstart, -, rfl⟩ := scan_some.mp hs
  obtain ⟨-, -, rfl⟩ := Scanned.finish_some.mp hfinish
  have hsuffix : hostStart fr <:+ trimmed sUrlRaw unescape :=
    (List.dropWhile_suffix _).trans (front_suffix _ fr hfr)
  have hslash : (hostStart fr).head? ≠ some 47 := by
    intro hhead
    have hno := List.head?_dropWhile_not (· == 47) fr.rest
    rw [← hostStart, hhead] at hno
    cases hno
  change trimBack (splitPath (hostStart fr)).2 = (splitPath (hostStart fr)).2
  rcases trimmed_end sUrlRaw unescape with hclean | ⟨c, sp, hlone, hspace⟩
  · exact trimBack_splitPath (trimBack_suffix hsuffix hclean)
  · obtain ⟨hs47, hs63⟩ := space_plain hspace
    rw [hlone, List.suffix_cons_iff] at hsuffix
    rcases hsuffix with hwhole | hblank
    · rw [hwhole] at hslash hstart ⊢
      have hc47 : c ≠ 47 := fun he => hslash (congrArg some he)
      by_cases hc63 : c = 63
      · have hauthority : (splitPath (hostStart fr)).1 = [] := by
          rw [hwhole, hc63]
          exact splitPath_query hs47
        have hle := Scanned.decoded_le (s := .of fr)
        have htext := Scanned.hostText_le (s := .of fr)
        rw [hostPort_of hauthority] at htext
        exact absurd (List.length_eq_zero_iff.mp (Nat.le_zero.mp (hle.trans htext))) hne
      · rw [splitPath_plain]
        · decide
        · rw [List.mem_cons, not_or]
          exact ⟨hc47.symm, hs47⟩
        · rw [List.mem_cons, not_or]
          exact ⟨Ne.symm hc63, hs63⟩
    · rw [splitPath_plain (fun h => hs47 (hblank.subset h)) (fun h => hs63 (hblank.subset h))]
      decide

theorem decoded_plain {s : Scanned} (hopen : s.hostText.head? ≠ some 91)
    (hclose : s.hostText.getLast? ≠ some 93) (hpct : 37 ∉ s.hostText) :
    s.ipv6 = false ∧ s.closed = false ∧ s.bare = s.hostText ∧ s.decoded = s.hostText := by
  have hipv6 : s.ipv6 = false := beq_eq_false_iff_ne.mpr hopen
  have hbare := Scanned.bare_plain hipv6
  have hclosed : s.closed = false := by
    rw [Scanned.closed, hbare]
    exact beq_eq_false_iff_ne.mpr hclose
  refine ⟨hipv6, hclosed, hbare, ?_⟩
  rw [Scanned.decoded, hipv6, Scanned.inner_plain hclosed, hbare]
  exact (urlUnescape_kept _).1 hpct

theorem portFmt_read {p : Nat} (h : p < 2 ^ 15) :
    Scanned.refusedDigits (portFmt p) = false ∧ Scanned.atoiValue (portFmt p) % 2 ^ 16 = p := by
  have hvalue : Scanned.atoiValue (dec p) = p := by
    rw [Scanned.atoiValue, decimal_dec]
    omega
  have hne : (dec p).isEmpty = false := by
    rw [← Bool.not_eq_true, List.isEmpty_iff]
    exact dec_ne p
  have hall : (dec p).all isdigit = true := List.all_eq_true.mpr (dec_digits p)
  rw [portFmt, if_pos h, decDigits_eq_dec]
  refine ⟨?_, by rw [hvalue]; omega⟩
  rw [Scanned.refusedDigits, hvalue, hne, hall]
  simp only [Bool.not_true, Bool.or_self, Bool.false_or, Bool.and_eq_false_iff, decide_eq_false_iff_not]
  omega

/-- A URL is tidy when it has been accepted. -/
theorem accepted_tidy {sUrlRaw : Bytes} {unescape : Bool} (h : setHttpUrl sUrlRaw unescape = some u) :
    (∃ q, u.sPath = 47 :: q ∧ q.head? ≠ some 47) ∧ find (lit ":::") u.sHost = none := by
  obtain ⟨s, hs, hfinish⟩ := setHttpUrl_some.mp h
  obtain ⟨-, fr, -, -, -, rfl⟩ := scan_some.mp hs
  obtain ⟨-, hhost, rfl⟩ := Scanned.finish_some.mp hfinish
  obtain ⟨q, hq, hhead, -⟩ := splitPath_tidy (hostStart fr)
  refine ⟨⟨q, hq, hhead⟩, ?_⟩
  rw [Scanned.hostRefused, Bool.or_eq_false_iff] at hhost
  exact Option.not_isSome_iff_eq_none.mp (Bool.eq_false_iff.mp hhost.2)

theorem path_printed {q : Bytes} (hstart : hostStart u.printed = u.sHost ++ (u.portText ++ u.sPath))
    (hslash : 47 ∉ u.sHost) (hq : u.sPath = 47 :: q) (hhead : q.head? ≠ some 47) :
    (splitPath (hostStart u.printed)).2 = u.sPath := by
  have hno : 47 ∉ u.sHost ++ u.portText := by
    rw [List.mem_append, not_or]
    exact ⟨hslash, fun hmem => (u.portText_plain 47 hmem).2.1 rfl⟩
  have hkept : q.dropWhile (· == 47) = q := by
    rw [List.dropWhile_eq_self_iff]
    intro hpos hfirst
    refine hhead ?_
    rw [List.head?_eq_getElem?, List.getElem?_eq_getElem hpos, beq_iff_eq.mp hfirst]
  rw [hstart, hq, ← List.append_assoc, splitPath_slash (by simp), dropWhile_sep q hno,
    List.dropWhile_cons_of_pos rfl, hkept]

/-- A printable URL is read back as it was. -/
theorem printable_readsBack {sUrlRaw : Bytes} {unescape : Bool}
    (h : setHttpUrl sUrlRaw unescape = some u)
    (hprint : u.Printable) : ∃ v, u.ReadsBack u.toURI false v := by
  obtain ⟨⟨q, hq, hhead⟩, hcolons⟩ := accepted_tidy h
  have hpath : u.sPath.head? = some 47 := by
    rw [hq]
    rfl
  have hclean := accepted_path h hprint.host
  have hslash : 47 ∉ u.sHost := fun hmem => (hprint.plain 47 hmem).2.1 rfl
  have hat : 64 ∉ u.sHost := fun hmem => (hprint.plain 64 hmem).2.2 rfl
  have hpct : 37 ∉ u.sHost := fun hmem => (hprint.plain 37 hmem).1 rfl
  have hstart := hostStart_whole hprint.host hslash
  have hpair := hostPort_printed hpath hstart hslash
  rw [(splitUser_le u.sHost).2.2 hat] at hpair
  obtain ⟨htext, hdigits⟩ := Scanned.hostText_printed (u := u) rfl hpair hprint.colons
  have hport : (Scanned.of u.printed).portRefused = false ∧
      (Scanned.of u.printed).digits.elim 0 (fun d => Scanned.atoiValue d % 2 ^ 16) = u.nPort := by
    rw [Scanned.portRefused, hdigits]
    split
    · rename_i hzero
      exact ⟨rfl, hzero.symm⟩
    · exact portFmt_read hprint.port
  obtain ⟨hipv6, hclosed, hbare, hdecoded⟩ := decoded_plain (s := .of u.printed)
    (htext.symm ▸ hprint.front.2) (htext.symm ▸ hprint.back) (htext.symm ▸ hpct)
  rw [htext] at hbare hdecoded
  have hhost : (Scanned.of u.printed).hostRefused = false := by
    rw [Scanned.hostRefused, hdecoded, hcolons, hclosed, hipv6]
    rfl
  rw [hclean] at hstart
  have hsPath : (Scanned.of u.printed).sPath = u.sPath := path_printed hstart hslash hq hhead
  have hscan := scan_toURI hpath hprint.host hslash hprint.front.1
  refine ⟨_, setHttpUrl_some.mpr ⟨_, hscan, Scanned.finish_some.mpr ⟨hport.1, hhost, rfl⟩⟩, ?_, rfl,
    hdecoded, ?_, hsPath⟩
  · intro s hs
    rw [← Option.some.inj (hscan.symm.trans hs), hbare]
    exact hprint.host
  · unfold getPort
    rw [hport.2]
    rfl

theorem readsBack_escaped (u v : HttpUrl) :
    u.ReadsBack (u.toURIWith true) true v ↔ u.ReadsBack (u.toURIWith false) false v := by
  have hscan := scan_escaped u
  have hset : setHttpUrl (u.toURIWith true) true = setHttpUrl (u.toURIWith false) false := by
    rw [setHttpUrl_scan, setHttpUrl_scan, hscan]
  constructor
  · intro h
    exact ⟨hset ▸ h.taken, hscan ▸ h.indexed, h.scheme, h.host, h.port, h.path⟩
  · intro h
    exact ⟨hset.symm ▸ h.taken, hscan.symm ▸ h.indexed, h.scheme, h.host, h.port, h.path⟩

/-- The printed forms of an accepted URL are read back if and only if it is printable. -/
theorem roundTrip_iff {sUrlRaw : Bytes} {unescape : Bool} (h : setHttpUrl sUrlRaw unescape = some u) :
    ((∃ v, u.ReadsBack (u.toURIWith true) true v) ∧ ∃ v, u.ReadsBack (u.toURIWith false) false v) ↔
      u.Printable := by
  simp only [readsBack_escaped, and_self, toURIWith_plain]
  constructor
  · rintro ⟨v, hv⟩
    obtain ⟨⟨q, hq, -⟩, -⟩ := accepted_tidy h
    exact printable_of_readsBack (by rw [hq]; rfl) hv
  · exact printable_readsBack h

/-- A printable URL with a port. -/
theorem roundTrip_port :
    (∃ v, (⟨8080, lit "h", lit "/a b", [], false⟩ : HttpUrl).ReadsBack
        (toURIWith ⟨8080, lit "h", lit "/a b", [], false⟩ true) true v) ∧
      ∃ v, (⟨8080, lit "h", lit "/a b", [], false⟩ : HttpUrl).ReadsBack
        (toURIWith ⟨8080, lit "h", lit "/a b", [], false⟩ false) false v :=
  (@roundTrip_iff _ (lit "http://h:8080//a%20b") true (by decide)).mpr
    ⟨by decide, by decide, by decide +kernel, by decide, by decide, by decide⟩

/-- A large port is printed as a negative number with its last digit lost, an address without its
brackets, and neither is read back. -/
theorem port_printed_negative :
    setHttpUrl (lit "http://h:40000/x") false =
        some { nPort := 40000, sHost := lit "h", sPath := lit "/x" } ∧
      toURIWith { nPort := 40000, sHost := lit "h", sPath := lit "/x" } false = lit "http://h:-2553/x" ∧
      setHttpUrl (lit "http://h:-2553/x") false = none ∧
      setHttpUrl (lit "[fe80::1]/x") false = some { sHost := lit "fe80::1", sPath := lit "/x" } ∧
      toURIWith { sHost := lit "fe80::1", sPath := lit "/x" } false = lit "http://fe80::1/x" ∧
      setHttpUrl (lit "http://fe80::1/x") false =
        some { nPort := 1, sHost := lit "fe80:", sPath := lit "/x" } := by
  decide +kernel

end HttpUrl

end Acng
