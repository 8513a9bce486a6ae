import Acng.HttpUrl
import Acng.Header
import Acng.FileItem
import Acng.Lib.Paths

namespace Acng
open Lib

inductive MatchType
  | solid | volatile
deriving DecidableEq, Repr

/-- A rewrite rule: a path on some host, and the repository that it belongs to. The path
is surrounded by slashes. -/
structure Remap where
  path : Bytes
  repName : Bytes
  front : path.head? = some 47
  back : path.getLast? = some 47

/-- The settings that `Prepare` reads. There are no local directories. The functions stand
for the patterns of the user, which see C strings, and for the Base64 decoder of the
crypto library. -/
structure ServeCfg where
  pUserPorts : Option (Nat → Bool) := none
  reportpage : Bytes := lit "acng-report.html"
  patrace : Bool := false
  offlinemode : Bool := false
  matchUncacheable : Bytes → Bool := fun _ => false
  getFiletype : Bytes → Option MatchType
  decodeBase64 : Bytes → Option Bytes := fun _ => none
  mapUrl2pVname : Bytes → List Remap := fun _ => []

/-- What a request ends in, as far as `TFileItemRegistry::Create`. -/
inductive Prepared
  | early (response : Bytes)
  | userInfo
  | maintWork (sFileLoc : Bytes)
  | create (sFileLoc : Bytes) (attr : SpecialPurposeAttr) (bPtMode : Bool)
deriving DecidableEq, Repr

namespace Prepared

def reportInvport : Prepared :=
  .early (lit "403 Configuration error (confusing proxy mode) or prohibited port (see AllowUserPorts)")

def reportInvpath : Prepared := .early (lit "403 Invalid path specification")

def reportNotallowed : Prepared := .early (lit "403 Forbidden file type or location")

end Prepared

/-- The expression `\.\.($|%|/)` at one position. -/
def badStuffAt : Bytes → Bool
  | 46 :: 46 :: t => t.head?.all (fun c => c == 37 || c == 47)
  | _ => false

/-- `rex::Match(s, NASTY_PATH)`: `regexec` on the C string. -/
def nastyPath (s : Bytes) : Bool := (cstr s).tails.any badStuffAt

/-- The two ways to ask for HTTPS through a plain URL. -/
def rewriteHttps (s : Bytes) : Bytes :=
  let s := if (lit "/HTTPS///").isPrefixOf s then lit "https://" ++ s.drop 6 else s
  if caseEqN 15 (cstr s) (lit "http://https///") then lit "https://" ++ s.drop 13 else s

/-- `makeHostPortKey`. -/
def hostPortKey (u : HttpUrl) : Bytes :=
  UInt8.ofNat (u.getPort % 256) :: UInt8.ofNat (u.getPort / 256) :: u.sHost

/-- The longest rule whose path is a real part of the requested one. -/
def bestRemap (sPath : Bytes) (rules : List Remap) : Option Remap :=
  rules.foldl (fun best r =>
    if (best.elim 0 fun b => b.path.length) < r.path.length && r.path.length < sPath.length &&
        r.path.isPrefixOf sPath then some r
    else best) none

/-- `GetRepNameAndPathResidual`. -/
def getRepNameAndPathResidual (cfg : ServeCfg) (u : HttpUrl) : Option (Bytes × Bytes) :=
  (bestRemap u.sPath (cfg.mapUrl2pVname (hostPortKey u))).map
    fun r => (r.repName, u.sPath.drop r.path.length)

/-- The relative path of the cached file. -/
def fileLoc (cfg : ServeCfg) (u : HttpUrl) : Bytes :=
  match getRepNameAndPathResidual cfg u with
  | some (name, rest) => if name.isEmpty then u.sHost ++ u.sPath else name ++ 47 :: rest
  | none => u.sHost ++ u.sPath

/-- `ExpandEncapsulatedCmd`. -/
def expandEncapsulatedCmd (cfg : ServeCfg) (input : Bytes) : Bytes :=
  match (find (lit "&orig=") input).or (find (lit "?orig=") input) with
  | none => input
  | some pos =>
    match cfg.decodeBase64 ((input.drop (pos + 6)).takeWhile (· != 38)) with
    | none => input
    | some data =>
      input ++ 38 :: (match find [63] data with
        | none => data
        | some q => data.drop (q + 1))

/-- Whether `DispatchMaintWork` finds something special. A command of slashes only makes
`compare` throw, which is `none`. -/
def isMaintWork (cfg : ServeCfg) (cmdRaw : Bytes) : Option Bool :=
  let cmd := (expandEncapsulatedCmd cfg cmdRaw).dropWhile (· == 47)
  if cmd.isEmpty then none
  else
    let word := cmd.takeWhile (· != 63)
    some (word == lit "style.css" || word == cfg.reportpage)

/-- The loop over `Cache-Control`: whether the value ends in `no-cache`, or in `no-store`. -/
def cacheControl : Bytes → Bool × Bool
  | 110 :: 111 :: t =>
    let (noCache, noStore) := cacheControl t
    (noCache || caseEq t (lit "-cache"), noStore || caseEq t (lit "-store"))
  | _ :: t => cacheControl t
  | [] => (false, false)

/-- What is decided about the requested data: a page for the user, a refusal, or its type
with the pass-through flag. -/
inductive DataType
  | userInfo
  | refused
  | known (type : MatchType) (bPtMode : Bool)
deriving DecidableEq, Repr

def dataType (cfg : ServeCfg) (h : Header) (u : HttpUrl) : DataType :=
  let (noCache, noStore) := cacheControl ((h.h .cacheControl).getD [])
  let bPtMode := cfg.matchUncacheable (cstr u.toURI) || noStore
  let type : Option MatchType := if noCache then some .volatile else none
  let isDir := (lit "/").isSuffixOf u.sPath
  -- directories are proxied unless acngfs asks
  let (type, bPtMode) := if isDir && (h.h .xOrig).isNone then (some .volatile, true) else (type, bPtMode)
  if isDir && type.isNone then .userInfo
  else
    match type.or (if bPtMode then some .solid else cfg.getFiletype (cstr u.sPath)) with
    | some type => .known type bPtMode
    | none => if cfg.patrace then .known .volatile bPtMode else .refused

/-- The part of `job::Prepare` behind the checks of the URL. The attributes take the end
of the range from the job before `ParseRange` has set it. -/
def serve (cfg : ServeCfg) (h : Header) (sReqPath : Bytes) (u : HttpUrl) : Prepared :=
  let u := { u with sPath := squeeze 47 u.sPath }
  let special := if !cfg.reportpage.isEmpty || u.sHost == lit "style.css" then isMaintWork cfg sReqPath
    else some false
  match special with
  | none => .reportInvpath
  | some true => .maintWork sReqPath
  | some false =>
    match dataType cfg h u with
    | .userInfo => .userInfo
    | .refused => .reportNotallowed
    | .known type bPtMode =>
      .create (fileLoc cfg u)
        { bVolatile := !cfg.offlinemode && type == .volatile, bHeadOnly := h.type == .head } bPtMode

def portAllowed (cfg : ServeCfg) (nPort : Nat) : Bool :=
  match cfg.pUserPorts with
  | some test => test nPort
  | none => nPort == 80

/-- `job::Prepare` up to the creation of the item. -/
def prepare (cfg : ServeCfg) (h : Header) : Prepared :=
  if h.type ≠ .get ∧ h.type ≠ .head then .reportInvpath
  else
    let sReqPath := urlUnescape h.status.msg
    -- "clever" file system browsing attempt?
    if nastyPath sReqPath || (find (lit "/_actmp") sReqPath).isSome ||
        (lit "/_").isPrefixOf sReqPath then .reportNotallowed
    else
      let sReqPath := rewriteHttps sReqPath
      match HttpUrl.setHttpUrl sReqPath false with
      | none => .userInfo
      | some u =>
        if !portAllowed cfg u.getPort then .reportInvport else serve cfg h sReqPath u

end Acng
