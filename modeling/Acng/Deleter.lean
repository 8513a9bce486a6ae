import Acng.FileReader
import Acng.Lib.LittleEndian
import Acng.Maintenance
import Mathlib.Data.List.Sort

namespace Acng
open Lib

def base36 : Bytes := lit "0123456789ABCDEFGHIJKLMNOPQRSTUVWXYZ"

/-- `to_base36`. -/
def toBase36 (val : Nat) : Bytes :=
  if val < 36 then [base36.getD val 0] else toBase36 (val / 36) ++ [base36.getD (val % 36) 0]
termination_by val
decreasing_by omega

/-- The value of a digit in base 36. -/
def base36Value (c : UInt8) : Nat :=
  if isdigit c then c.toNat - 48 else if c < 97 then c.toNat - 55 else c.toNat - 87

/-- `strtoul` in base 36, with the rest behind the digits. -/
def strtoul36 (s : Bytes) : Nat × Bytes :=
  let (neg, r) := sign ((cstr s).dropWhile isspace)
  let digits := r.takeWhile isalnum
  if digits.isEmpty then (0, cstr s)
  else
    let v := digits.foldl (fun n d => 36 * n + base36Value d) 0
    let v := if 2 ^ 64 ≤ v then 2 ^ 64 - 1 else if neg then (2 ^ 64 - v) % 2 ^ 64 else v
    (v, r.dropWhile isalnum)

/-- `m_pathMemory` in the order of its keys, each with its id. -/
abbrev PathMemory := List (Bytes × Nat)

namespace PathMemory

/-- `AddLookupGetKey`: the id of the path in the changed memory. -/
def addLookupGetKey (m : PathMemory) (sFilePathRel : Bytes) : PathMemory × Nat :=
  match m.find? (fun kv => kv.1 == sFilePathRel) with
  | some kv => (m, kv.2)
  | none =>
    let id := m.length % 2 ^ 32
    (m.orderedInsert (fun a b => a.1 ≤ b.1) (sFilePathRel, id), id)

/-- The memory after a number of calls. -/
def ofPaths (paths : List Bytes) : PathMemory :=
  paths.foldl (fun m path => (addLookupGetKey m path).1) []

end PathMemory

/-- `compress` and `uncompress` of zlib. The second one is told how much room there is. -/
structure Zlib where
  compress : Bytes → Bytes
  uncompress : Nat → Bytes → Option Bytes

/-- A record of the catalogue: an id and a length of four bytes each, and a string. -/
def addLine (id : Nat) (s : Bytes) : Bytes :=
  littleEndian 4 id ++ littleEndian 4 s.length ++ s

/-- The records of the catalogue, the first one for the command. -/
def catalogue (cmd : Bytes) (m : PathMemory) : Bytes :=
  addLine 0 cmd ++ m.flatMap (fun kv => addLine kv.2 kv.1)

/-- The value of the hidden field in `BuildCompressedDelFileCatalog`. The length of the compressed
data is cut down to 16 bits. -/
def buildCompressedDelFileCatalog (z : Zlib) (cmd : Bytes) (m : PathMemory) : Bytes :=
  let buf := catalogue cmd m
  let gz := z.compress buf
  encodeBase64 ((littleEndian 4 buf.length ++ gz).take (gz.length % 2 ^ 16 + 4))

/-- `BADCHARS`. -/
def badChars : Bytes := [60, 62, 34, 39, 124, 9]

/-- What the constructor of `tDeleter` makes of the parameters: the tags and the last blob, with
its name in front. -/
structure DeleteForm where
  files : List Nat := []
  blob : Bytes := []
deriving DecidableEq, Repr

namespace DeleteForm

/-- One parameter. The tags are kept as 32-bit numbers. -/
def addToken (form : DeleteForm) (tok : Bytes) : DeleteForm :=
  if (lit "kf=").isPrefixOf tok then
    let (val, rest) := strtoul36 (tok.drop 3)
    if rest.head?.all (· == 38) then { form with files := val % 2 ^ 32 :: form.files } else form
  else if (lit "blob=").isPrefixOf tok then { form with blob := tok }
  else form

def ofParams (params : Bytes) : DeleteForm :=
  (splitWalk (· == 38) params).foldl addToken {}

end DeleteForm

/-- What the constructor takes for the files to work on. A blob that makes no sense leaves nothing to
do. The last two cases would be faults of the program. -/
inductive Selection
  | fatalError
  | gaveUp
  | selected (filePaths : List Bytes) (redoLink : Bytes)
  | overread
  | running
deriving DecidableEq, Repr

namespace Selection

def filePaths : Selection → List Bytes
  | selected filePaths _ => filePaths
  | _ => []

end Selection

/-- The loop over the records. Each read says if it would leave the buffer. -/
def recordLoop (files : List Nat) : Nat → Bytes → List Bytes → Bytes → Selection
  | 0, _, _, _ => .running
  | fuel + 1, redoLink, filePaths, buf =>
    if buf.length < 8 then .selected filePaths redoLink
    else
      match readBytes 4 buf with
      | none => .overread
      | some (id, buf) =>
        match readBytes 4 buf with
        | none => .overread
        | some (slen, buf) =>
          if buf.length < readLittleEndian slen then .gaveUp
          else
            match readBytes (readLittleEndian slen) buf with
            | none => .overread
            | some (s, buf) =>
              if redoLink.isEmpty then recordLoop files fuel s filePaths buf
              else if files.contains (readLittleEndian id) then
                recordLoop files fuel redoLink (filePaths ++ [s]) buf
              else recordLoop files fuel redoLink filePaths buf

/-- What the constructor needs from the system: the decoders, and whether a file is there. -/
structure DeleterTools where
  z : Zlib
  decodeBase64 : Bytes → Option Bytes
  access : Bytes → Bool

/-- The buffer that the blob stands for; `none` if the constructor returns. -/
def unpackBlob (tools : DeleterTools) (blob : Bytes) : Option Bytes := do
  if blob.isEmpty then some []
  else
    let gzBuf ← tools.decodeBase64 (blob.drop 5)
    if gzBuf.length < 8 then none
    else
      let ulen := readLittleEndian (gzBuf.take 4)
      -- no way...
      if 100000 < ulen then none else tools.z.uncompress ulen (gzBuf.drop 4)

/-- The front part of the constructor of `tDeleter`, up to the selected files. -/
def selectFiles (tools : DeleterTools) (cmd : Bytes) : Selection :=
  match find [63] cmd with
  | none => .fatalError
  | some qpos =>
    if cmd.any badChars.contains then .fatalError
    else
      let form := DeleteForm.ofParams (cmd.drop (qpos + 1))
      match unpackBlob tools form.blob with
      | none => .gaveUp
      | some buf => recordLoop form.files (buf.length + 1) [] [] buf

/-- `sfxXzBz2GzLzma`. -/
def sfxXzBz2GzLzma : List Bytes := [lit ".xz", lit ".bz2", lit ".gz", lit ".lzma"]

/-- `sfxMiscRelated`. -/
def sfxMiscRelated : List Bytes :=
  [[], lit ".xz", lit ".bz2", lit ".gz", lit ".lzma", lit ".gpg", lit ".diff/Index"]

def relKey : Bytes := lit "/Release"

def inRelKey : Bytes := lit "/InRelease"

/-- The cache directory with its slash. -/
structure CacheDir where
  path : Bytes
  noNul : 0 ∉ path
  slash : path.getLast? = some 47

/-- The path without the suffix of a compressed file. -/
def baseOf (path : Bytes) : Bytes :=
  sfxXzBz2GzLzma.foldl (fun bname sfx =>
    if sfx.isSuffixOf path then path.take (path.length - sfx.length) else bname) path

/-- The names that may belong to a path. -/
def relatedNames (path : Bytes) : List Bytes :=
  sfxMiscRelated.map (baseOf path ++ ·) ++
    (if relKey.isSuffixOf path then [baseOf path ++ (path.take (path.length - relKey.length) ++ inRelKey)]
    else []) ++
    (if inRelKey.isSuffixOf path then
      [baseOf path ++ (path.take (path.length - inRelKey.length) ++ relKey)]
    else [])

/-- Those of them that are other files on the disk. -/
def extraFiles (tools : DeleterTools) (cache : CacheDir) (path : Bytes) : List Bytes :=
  (relatedNames path).filter (fun cand => cand != path && tools.access (cstr (cache.path ++ cand)))

/-- The paths that `doFile` hands to `unlink` or `truncate`, as C strings. Only a deleted file takes
its head file with it. -/
def doFile (cache : CacheDir) (del : Bool) (path : Bytes) : List Bytes :=
  if del then [cstr (cache.path ++ path), cstr (cache.path ++ path ++ lit ".head")]
  else [cstr (cache.path ++ path)]

/-- The rest of the constructor: the stricter checks, and the files it works on unless it only asks
for a confirmation. -/
def handedPaths (tools : DeleterTools) (cache : CacheDir) (type : MaintWorkType) (cmd : Bytes)
    (filePaths : List Bytes) : List Bytes :=
  if filePaths.any (fun path => path.any badChars.contains || nastyPath path) then []
  else if type = .workDELETECONFIRM || type = .workTRUNCATECONFIRM then []
  else
    let del := type = .workDELETE
    let extra := if (find (lit "cleanRelated=") cmd).isSome then
      filePaths.flatMap (extraFiles tools cache) else []
    filePaths.flatMap (fun path => doFile cache del path ++ extra.flatMap (doFile cache del))

end Acng
