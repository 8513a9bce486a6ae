import Acng.Lib.Numeral

namespace Acng
open Lib

/-- `UrlUnescape`. A percent sign without two hex digits behind it is dropped,
and the scan goes on with the byte after it. -/
def urlUnescape : Bytes → Bytes
  | c :: a :: b :: t =>
    if c == 37 then
      match hexVal a, hexVal b with
      | some x, some y => UInt8.ofNat (16 * x + y) :: urlUnescape t
      | _, _ => urlUnescape (a :: b :: t)
    else c :: urlUnescape (a :: b :: t)
  | c :: s => if c == 37 then urlUnescape s else c :: urlUnescape s
  | [] => []
termination_by structural s => s

/-- `trimBack` for `std::string`. It erases nothing when only the first
character is worth keeping, unlike the `string_view` version. -/
def stringTrimBack (s : Bytes) : Bytes :=
  let t := s.rdropWhile isspace
  if t.length == 1 then s else t

structure HttpUrl where
  nPort : Nat := 0
  sHost : Bytes := []
  sPath : Bytes := []
  sUserPass : Bytes := []
  bSSL : Bool := false
deriving DecidableEq, Repr

namespace HttpUrl

def getPort (u : HttpUrl) : Nat := if u.nPort ≠ 0 then u.nPort else if u.bSSL then 443 else 80

/-- `tPortFmter::fmt`: ports other than the two defaults go through `%hi`, and into a buffer for
five characters. -/
def portFmt (p : Nat) : Bytes :=
  if p < 2 ^ 15 then decDigits p else (45 :: decDigits (2 ^ 16 - p)).take 5

def protoPrefix (u : HttpUrl) : Bytes := if u.bSSL then lit "https://" else lit "http://"

/-- `ToURI(false)`, the form that is not escaped. -/
def toURI (u : HttpUrl) : Bytes :=
  u.protoPrefix ++ u.sHost ++ (if u.nPort ≠ 0 then 58 :: portFmt u.nPort else []) ++ u.sPath

/-- How the front of a URL is read: where the host starts, whether an opening
bracket was seen there, whether a port is out of the question, and SSL. -/
structure Front where
  rest : Bytes
  bCheckBrac : Bool := false
  noPort : Bool := false
  bSSL : Bool := false

def front (url : Bytes) : Option Front :=
  if caseEqN 7 (cstr url) (lit "http://") then some { rest := url.drop 7 }
  else if caseEqN 8 (cstr url) (lit "https://") then some { rest := url.drop 8, bSSL := true }
  else if url.head?.any isalnum then some { rest := url }
  else if url.head? == some 91 then some { rest := url, bCheckBrac := true }
  else if (lit "::").isPrefixOf url then some { rest := url, noPort := true }
  else if (find (lit "://") url).isSome then none
  else some { rest := url }

/-- The split at the first slash behind the host. Without one, a question mark
ends the host and stays in the path. -/
def splitPath (rest : Bytes) : Bytes × Bytes :=
  let host := rest.takeWhile (· != 47)
  match rest.dropWhile (· != 47) with
  | [] =>
    match rest.dropWhile (· != 63) with
    | [] => (host, [47])
    | query => (rest.takeWhile (· != 63), 47 :: query)
  | tail => (host, 47 :: tail.dropWhile (· == 47))

/-- Everything before the last `@` is the user info. -/
def splitUser (host : Bytes) : Bytes × Bytes :=
  match rfind 64 host with
  | none => ([], host)
  | some l => (urlUnescape (host.take l), host.drop (l + 1))

/-- Position of the colon in front of the port. A bracketed host is searched
behind its closing bracket, or from the start if there is none. -/
def portPos (bCheckBrac : Bool) (host : Bytes) : Option Nat :=
  if bCheckBrac then
    let from' := match rfind 93 host with
      | none => 0
      | some p => p + 1
    (find [58] (host.drop from')).map (· + from')
  else rfind 58 host

/-- Cuts the port off. `none` is the early `return false`. -/
def splitPort (bCheckBrac noPort : Bool) (host : Bytes) : Option (Nat × Bytes) :=
  if noPort then some (0, host)
  else
    match portPos bCheckBrac host with
    | none => some (0, host)
    | some p =>
      let digits := host.drop (p + 1)
      if digits.isEmpty || !digits.all isdigit then none
      else
        let pVal := toInt32 (strtoll digits)
        if pVal > 65535 then none else some ((pVal % 65536).toNat, host.take p)

/-- Removes one pair of brackets and decodes the percent escapes of a host
without an opening bracket. -/
def stripBrackets (bCheckBrac : Bool) (host : Bytes) : Option Bytes :=
  let ipv6 := host.head? == some 91
  let host := if ipv6 then host.drop 1 else host
  let open' := bCheckBrac || ipv6
  let closed := host.getLast? == some 93
  let host := if closed then host.dropLast else host
  if (if closed then !open' else open') then none
  else some (if ipv6 then host else urlUnescape host)

/-- `tHttpUrl::SetHttpUrl`; `none` stands for the result false. -/
def setHttpUrl (sUrlRaw : Bytes) (unescape : Bool) : Option HttpUrl := do
  let url := trimFront (stringTrimBack (if unescape then urlUnescape sUrlRaw else sUrlRaw))
  if url.isEmpty then none
  let fr ← front url
  -- kill leading slashes in any case
  let rest := fr.rest.dropWhile (· == 47)
  if rest.isEmpty then none
  let (authority, sPath) := splitPath rest
  -- names with an underscore in front are reserved
  if rest.head? == some 95 then none
  let (sUserPass, host) := splitUser authority
  let (nPort, host) ← splitPort fr.bCheckBrac fr.noPort host
  let sHost ← stripBrackets fr.bCheckBrac host
  if (find (lit ":::") sHost).isSome then none
  some { nPort, sHost, sPath, sUserPass, bSSL := fr.bSSL }

end HttpUrl

end Acng
