import Acng.Proofs.Catalogue
import Acng.Proofs.RoundTrip

namespace Acng
open Lib

namespace HttpUrl

variable {u : HttpUrl} {up : Bytes}

/-- The user info as it stands in a URL, if that is scanned so far. -/
def userInfo (sUrlRaw : Bytes) : Option Bytes := (scan sUrlRaw false).bind Scanned.userText

/-- An escaped text has percent signs, hex digits and what is allowed. -/
theorem notMem_pctEncode {allowed : UInt8 → Bool} {d : UInt8} (s : Bytes) (hno : allowed d = false)
    (hpct : d ≠ 37) (hhex : hexVal d = none) : d ∉ pctEncode allowed s := by
  intro hd
  obtain ⟨c, -, hc⟩ := List.mem_flatMap.mp hd
  have hdigit {k : Nat} (hk : k < 16) : d ≠ hexDigit k := by
    rintro rfl
    rw [hexVal_hexDigit hk] at hhex
    cases hhex
  have hlt := c.toNat_lt
  split at hc
  · rename_i hyes
    rw [List.mem_singleton.mp hc] at hno
    rw [hno] at hyes
    cases hyes
  · simp only [List.mem_cons, List.not_mem_nil, or_false] at hc
    rcases hc with hc | hc | hc
    · exact hpct hc
    · exact hdigit (by omega) hc
    · exact hdigit (by omega) hc

theorem userinfoEscape_plain (up : Bytes) : 47 ∉ userinfoEscape up ∧ 64 ∉ userinfoEscape up :=
  ⟨notMem_pctEncode up (by decide) (by decide) (by decide),
    notMem_pctEncode up (by decide) (by decide) (by decide)⟩

theorem userinfoEscape_head {up : Bytes} (h : up.head? ≠ some 95) (host : Bytes) :
    (userinfoEscape up ++ 64 :: host).head? ≠ some 95 := by
  cases up with
  | nil =>
    rw [userinfoEscape, pctEncode, List.flatMap_nil, List.nil_append, List.head?_cons]
    decide
  | cons c up =>
    rw [userinfoEscape, pctEncode, List.flatMap_cons, List.append_assoc]
    split
    · exact h
    · rw [List.cons_append, List.head?_cons]
      decide

/-- A URL that has the escaped form in front of its host carries it. -/
theorem userInfo_of (bSSL : Bool) {up host path : Bytes} (hslash : 47 ∉ host) (hat : 64 ∉ host)
    (hreserved : up.head? ≠ some 95) :
    userInfo (toURI { sHost := userinfoEscape up ++ 64 :: host, sPath := 47 :: path, bSSL }) =
      some (userinfoEscape up) := by
  let u : HttpUrl := { sHost := userinfoEscape up ++ 64 :: host, sPath := 47 :: path, bSSL }
  have hne : u.sHost ≠ [] := by simp [u]
  have hno : 47 ∉ u.sHost := by
    simp only [u, List.mem_append, List.mem_cons, not_or]
    exact ⟨(userinfoEscape_plain up).1, by decide, hslash⟩
  have hscan : scan u.toURI false = some (.of u.printed) :=
    scan_toURI rfl hne hno (userinfoEscape_head hreserved host)
  have hport : u.portText = [] := rfl
  have hauthority := authority_printed (u := u) rfl (hostStart_whole hne hno) hno
  rw [hport, List.append_nil] at hauthority
  have huser : rfind 64 u.sHost = some (userinfoEscape up).length := rfind_behind _ hat
  change (scan u.toURI false).bind Scanned.userText = _
  rw [hscan, Option.bind_some, Scanned.of]
  simp only [hauthority, huser, Option.map_some]
  exact congrArg some (List.take_left)

theorem userPass_of {sUrlRaw : Bytes} (hinfo : userInfo sUrlRaw = some (userinfoEscape up))
    (h : setHttpUrl sUrlRaw false = some u) : u.sUserPass = up := by
  obtain ⟨s, hs, hfinish⟩ := setHttpUrl_some.mp h
  obtain ⟨-, -, rfl⟩ := Scanned.finish_some.mp hfinish
  rw [userInfo, hs, Option.bind_some] at hinfo
  have hback := urlUnescape_pctEncode isAllowedUnencodedUserinfoChar (by decide) up []
  rw [List.append_nil] at hback
  change s.userText.elim [] urlUnescape = up
  rw [hinfo]
  exact hback.trans (List.append_nil up)

theorem encodeBase64_injective {a b : Bytes} (h : encodeBase64 a = encodeBase64 b) : a = b := by
  have hdecode := congrArg decodeBase64 h
  rw [decodeBase64_encodeBase64, decodeBase64_encodeBase64] at hdecode
  exact Option.some.inj hdecode

/-- What is encoded of a text: all of it, if its length is an unsigned int. -/
def encodedPart (s : Bytes) : Bytes := s.take (s.length % 2 ^ 32)

theorem encodedPart_short {s : Bytes} (h : s.length < 2 ^ 32) : encodedPart s = s := by
  rw [encodedPart, Nat.mod_eq_of_lt h, List.take_length]

/-- The credentials of a URL are sent as they are if and only if they have no percent sign, as far
as a length is passed on that is their own. -/
theorem credentials_kept_iff {sUrlRaw : Bytes} (hinfo : userInfo sUrlRaw = some (userinfoEscape up))
    (h : setHttpUrl sUrlRaw false = some u) :
    encodeBase64AuthOf u.sUserPass = encodeBase64Of up ↔
      37 ∉ up ∨ (2 ^ 32 ≤ up.length ∧ encodedPart (urlUnescape up) = encodedPart up) := by
  rw [userPass_of hinfo h]
  obtain ⟨hkept, hless⟩ := urlUnescape_kept up
  constructor
  · intro hsame
    have hparts : encodedPart (urlUnescape up) = encodedPart up := encodeBase64_injective hsame
    by_cases hlong : 2 ^ 32 ≤ up.length
    · exact .inr ⟨hlong, hparts⟩
    · refine .inl (fun hmem => ?_)
      have hshort := hless hmem
      rw [encodedPart_short (by omega), encodedPart_short (by omega)] at hparts
      rw [hparts] at hshort
      omega
  · rintro (hplain | ⟨-, hparts⟩)
    · rw [encodeBase64AuthOf, hkept hplain]
    · exact congrArg encodeBase64 hparts

/-- A password with an at sign is sent as it is. -/
theorem escaped_password_kept :
    encodeBase64AuthOf (lit "user:p@w") = encodeBase64Of (lit "user:p@w") :=
  (credentials_kept_iff (u := { sHost := lit "h", sPath := lit "/x", sUserPass := lit "user:p@w" })
    (@userInfo_of false _ (lit "h") (lit "x") (by decide) (by decide) (by decide))
    (by decide)).mpr (.inl (by decide))

/-- A percent sign in front of hex digits is decoded a second time. -/
theorem percent_password_decoded :
    userinfoEscape (lit "u:a%41") = lit "u:a%2541" ∧
      userInfo (lit "http://u:a%2541@h/x") = some (lit "u:a%2541") ∧
      setHttpUrl (lit "http://u:a%2541@h/x") false =
        some { sHost := lit "h", sPath := lit "/x", sUserPass := lit "u:a%41" } ∧
      encodeBase64AuthOf (lit "u:a%41") = encodeBase64Of (lit "u:aA") ∧
      encodeBase64AuthOf (lit "u:a%41") ≠ encodeBase64Of (lit "u:a%41") := by
  decide +kernel

end HttpUrl

end Acng
