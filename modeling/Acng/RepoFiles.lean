import Acng.MetaFile
import Acng.Remap

namespace Acng
open Lib

/-- `keyEq`: `strcasecmp` with the C string of a key. -/
def keyEq (name key : Bytes) : Bool := caseEq name (cstr key)

def sPopularPath : Bytes := lit "/debian/"

/-- What `ReadRewriteFile` takes a line for, in the order in which it tries. -/
inductive RewriteLine
  | comment
  | url (url : HttpUrl)
  | blank
  | field (key val : Bytes)
  | bad
deriving DecidableEq, Repr

namespace RewriteLine

def ofLine (line : Bytes) : RewriteLine :=
  let sLine := trimFront line
  if sLine.head? = some 35 then .comment
  else
    match HttpUrl.setHttpUrl sLine true with
    | some entry => .url entry
    | none =>
      if sLine.isEmpty then .blank
      else
        match parseKeyValLine sLine with
        | some (key, val) => .field key val
        | none => .bad

end RewriteLine

/-- The state of `ReadRewriteFile`: the mappings that went to `mapUrl2pVname`, each with
`addMapping`, and the block that is read. -/
structure RewriteReader where
  added : List Mapping := []
  hosts : List Bytes := []
  paths : List Bytes := []
deriving DecidableEq, Repr

namespace RewriteReader

/-- The hosts of a field. -/
def siteOf (key val : Bytes) : List Bytes :=
  if keyEq (lit "Site") key || keyEq (lit "Alias") key || keyEq (lit "Aliases") key then
    splitWalk isspace val
  else []

/-- The path of a field. -/
def archiveOf (key val : Bytes) : List Bytes :=
  if keyEq (lit "Archive-http") key || keyEq (lit "X-Archive-http") key then
    [if sPopularPath = val then sPopularPath else fixPostPreSlashes val]
  else []

/-- The mappings of the hosts of a block to its paths. -/
def product (sRepName : Bytes) (hosts paths : List Bytes) : List Mapping :=
  hosts.flatMap (fun host => paths.map (fun path =>
    { url := { sHost := host, sPath := path }, repName := sRepName }))

/-- The end of a block. Without a result the program ends there. -/
def commit (sRepName : Bytes) (st : RewriteReader) : Option RewriteReader :=
  if st.hosts.isEmpty && st.paths.isEmpty then some st
  else if !st.hosts.isEmpty && st.paths.isEmpty then
    -- the warning about the path that is missing; the hosts stay
    some st
  else if !st.paths.isEmpty && st.hosts.isEmpty then none
  else some { added := st.added ++ product sRepName st.hosts st.paths }

def readLine (sRepName : Bytes) (st : RewriteReader) (line : Bytes) : Option RewriteReader :=
  match RewriteLine.ofLine line with
  | .comment => some st
  | .url url => some { st with added := st.added ++ [⟨url, sRepName⟩] }
  | .blank => st.commit sRepName
  | .field key val =>
    some { st with hosts := st.hosts ++ siteOf key val, paths := st.paths ++ archiveOf key val }
  | .bad => none

end RewriteReader

/-- `ReadRewriteFile` on a file that was opened with an additional line end: the mappings that it adds.
Without a result the program ended with a message. -/
def readRewriteFile (sRepName text : Bytes) : Option (List Mapping) :=
  ((fileLines text ++ [[]]).foldlM (RewriteReader.readLine sRepName) {}).map RewriteReader.added

namespace HttpUrl

/-- The host without its brackets, where `SetHttpUrl` finds out that they do not match. -/
def bracketless (host : Bytes) : Bytes :=
  let host := if host.head? == some 91 then host.drop 1 else host
  if host.getLast? == some 93 then host.dropLast else host

/-- `tHttpUrl::SetHttpUrl` with the object that it leaves, which is an error for the result
false. -/
def setHttpUrlEntry (sUrlRaw : Bytes) (unescape : Bool) : Except HttpUrl HttpUrl :=
  let url := trimFront (stringTrimBack (if unescape then urlUnescape sUrlRaw else sUrlRaw))
  if url.isEmpty then .error {}
  else
    match front url with
    | none => .error {}
    | some fr =>
      let rest := fr.rest.dropWhile (· == 47)
      if rest.isEmpty then .error { bSSL := fr.bSSL }
      else
        let (authority, sPath) := splitPath rest
        if rest.head? == some 95 then .error { sPath, bSSL := fr.bSSL }
        else
          let (sUserPass, host) := splitUser authority
          match splitPort fr.bCheckBrac fr.noPort host with
          | none => .error { sHost := host, sPath, sUserPass, bSSL := fr.bSSL }
          | some (nPort, host) =>
            match stripBrackets fr.bCheckBrac host with
            | none =>
              .error { nPort, sHost := bracketless host, sPath, sUserPass, bSSL := fr.bSSL }
            | some sHost =>
              let entry := { nPort, sHost, sPath, sUserPass, bSSL := fr.bSSL }
              if (find (lit ":::") sHost).isSome then .error entry else .ok entry

end HttpUrl

/-- The lines that `tCfgIter::Next` returns. -/
def cfgLines (text : Bytes) : List Bytes :=
  ((fileLines text ++ [[]]).map trimFront).filter (fun sLine =>
    !(sLine.isEmpty || sLine.head? == some 35))

/-- The state of `ReadBackendsFile`: the URL object, and the backends that have been added. -/
structure BackendsReader where
  entry : HttpUrl := {}
  backends : List HttpUrl := []
deriving DecidableEq, Repr

namespace BackendsReader

def add (st : BackendsReader) (entry : HttpUrl) : BackendsReader :=
  { backends := st.backends ++ [{ entry with sPath := fixPostPreSlashes entry.sPath }] }

def setField (entry : HttpUrl) (key val : Bytes) : HttpUrl :=
  if keyEq (lit "Site") key then { entry with sHost := val }
  else if keyEq (lit "Archive-http") key || keyEq (lit "X-Archive-http") key then
    { entry with sPath := val }
  else entry

def readLine (st : BackendsReader) (sLine : Bytes) : Option BackendsReader :=
  let sLine := stringTrimBack sLine
  match HttpUrl.setHttpUrlEntry sLine true with
  | .ok entry => some (st.add entry)
  | .error entry =>
    if sLine.isEmpty && !entry.sHost.isEmpty && !entry.sPath.isEmpty then some (st.add entry)
    else
      match parseKeyValLine sLine with
      | some (key, val) => some { st with entry := setField entry key val }
      | none => none

end BackendsReader

/-- `ReadBackendsFile` on the content of the file: the backends that it adds. Without a result the
program ended with a message. -/
def readBackendsFile (text : Bytes) : Option (List HttpUrl) :=
  ((cfgLines text).foldlM BackendsReader.readLine {}).map BackendsReader.backends

end Acng
