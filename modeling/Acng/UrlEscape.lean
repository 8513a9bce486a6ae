import Acng.Fingerprint
import Acng.HttpUrl
import Acng.Maintenance
import Acng.Registry

namespace Acng
open Lib

/-- Each byte that is not allowed becomes a percent sign with two hex digits. -/
def pctEncode (allowed : UInt8 → Bool) (s : Bytes) : Bytes :=
  s.flatMap (fun c => if allowed c then [c] else [37, hexDigit (c.toNat / 16), hexDigit (c.toNat % 16)])

def urlEscapeAppend (s sTarget : Bytes) : Bytes := sTarget ++ pctEncode isSafeUrlChar s

def urlEscape (s : Bytes) : Bytes := urlEscapeAppend s []

/-- `from[i]`, which is a zero byte at the end. -/
def charAt (src : Bytes) (i : Nat) : UInt8 := src.getD i 0

/-- `from.length() - 3`, which is unsigned. -/
def lengthMinus3 (src : Bytes) : Nat :=
  if 3 ≤ src.length then src.length - 3 else 2 ^ 64 + src.length - 3

/-- The loop of `UrlUnescapeAppend` from an index on, with its result. -/
def urlUnescapeLoop (src : Bytes) (i : Nat) (ret : Bool) (out : Bytes) : Bool × Bytes :=
  if i < src.length then
    if charAt src i ≠ 37 then urlUnescapeLoop src (i + 1) ret (out ++ [charAt src i])
    else if lengthMinus3 src < i then urlUnescapeLoop src (i + 1) false out
    else
      match hexVal (charAt src (i + 1)), hexVal (charAt src (i + 2)) with
      | some x, some y => urlUnescapeLoop src (i + 3) ret (out ++ [UInt8.ofNat (16 * x + y)])
      | _, _ => urlUnescapeLoop src (i + 1) false out
  else (ret, out)
termination_by src.length - i

def urlUnescapeAppend (src out : Bytes) : Bool × Bytes := urlUnescapeLoop src 0 true out

/-- Letters, digits and four more are unreserved; the sub-delims and the colon follow. -/
def isAllowedUnencodedUserinfoChar (c : UInt8) : Bool :=
  isalnum c || (lit "-._~").contains c || ([33, 36, 38, 39, 40, 41, 42, 43, 44, 59, 61] : Bytes).contains c ||
    c == 58

def userinfoEscape (s : Bytes) : Bytes := pctEncode isAllowedUnencodedUserinfoChar s

/-- `tHttpUrl::ToURI`. The host alone is printed without escapes only. -/
def HttpUrl.toURIWith (u : HttpUrl) (bUrlEscaped : Bool) (hostOnly : Bool := false) : Bytes :=
  let port := if u.nPort ≠ 0 then 58 :: HttpUrl.portFmt u.nPort else []
  if bUrlEscaped then urlEscapeAppend u.sPath (urlEscapeAppend u.sHost u.protoPrefix ++ port)
  else u.protoPrefix ++ u.sHost ++ port ++ if hostOnly then [] else u.sPath

/-- `EncodeBase64` on the data of a string. The length is passed as an unsigned int. -/
def encodeBase64Of (s : Bytes) : Bytes := encodeBase64 (s.take (s.length % 2 ^ 32))

/-- `EncodeBase64Auth`, with the length as it is passed. `AppendRequest` puts it behind `Basic` for the
proxy and for the host, whose `sUserPass` it is given. -/
def encodeBase64AuthOf (sPwdString : Bytes) : Bytes := encodeBase64Of (urlUnescape sPwdString)

end Acng
