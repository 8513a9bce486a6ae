import Acng.Registry
import Acng.FileGroups
import Acng.HeadStorage
import Acng.Lib.SymLinks
import Acng.Lib.InStream

namespace Acng
open Lib

/-- How the system finds directory entries. The directories stay as they are. -/
structure PathNaming (π : Type) where
  place : Bytes → π
  leads : π → Bytes → π
  canonical : π → Bytes
  leads_canonical : ∀ p q, leads p (canonical q) = q

abbrev FileTree (π : Type) := LinkedFiles π Bytes Bytes

def maxSymlinks : Nat := 40

section Calls

variable {π : Type} [DecidableEq π] (nm : PathNaming π) (disk : FileTree π)

/-- The device and the number of the file, as one number. -/
def PathNaming.stat (path : Bytes) : Option Nat := disk.stat nm.leads maxSymlinks (nm.place path)

def PathNaming.read (path : Bytes) : Option Bytes := disk.read nm.leads maxSymlinks (nm.place path)

def PathNaming.follow (path : Bytes) : Option π := Lib.follow nm.leads disk.node maxSymlinks (nm.place path)

def PathNaming.trail (path : Bytes) : List π := Lib.trail nm.leads disk.node maxSymlinks (nm.place path)

def PathNaming.write (path : Bytes) (content : Bytes) : FileTree π :=
  disk.write nm.leads maxSymlinks (nm.place path) content

end Calls

/-- How a copy goes if it can be made, and what a failed one leaves in the target. -/
inductive CopyResult
  | done
  | failed (left : Option Bytes)
deriving DecidableEq, Repr

/-- Which calls of one `LinkOrCopy` succeed if they can. -/
structure LinkIo where
  lstat : Bool := true
  realpath : Bool := true
  unlink : Bool := true
  symlink : Bool := true
  link : Bool := true
  copy : CopyResult := .done
deriving DecidableEq, Repr

/-- Where `LinkOrCopy` returns. -/
inductive LinkExit
  | noRealpath
  | symlinked (ok : Bool)
  | noSource
  | sameFile
  | notUnlinked
  | linked
  | copied
  | compared (sameSize : Bool)
deriving DecidableEq, Repr

/-- What is returned there. -/
def LinkExit.result : LinkExit → Bool
  | .noRealpath => false
  | .symlinked ok => ok
  | .noSource => false
  | .sameFile => true
  | .notUnlinked => false
  | .linked => true
  | .copied => false
  | .compared sameSize => sameSize

/-- A link or a copy was made. -/
def LinkExit.made : LinkExit → Bool
  | .symlinked ok => ok
  | .linked => true
  | .copied => true
  | _ => false

section Import

variable {π : Type} [DecidableEq π] (nm : PathNaming π)

/-- `FileCopy`: whether the error code tells an error. -/
def fileCopy (result : CopyResult) (disk : FileTree π) (sFrom sTo : Bytes) : Bool × FileTree π :=
  match nm.read disk sFrom with
  | none => (true, disk)
  | some content =>
    if nm.stat disk sTo = nm.stat disk sFrom then (true, disk)
    else
      match result with
      | .done => if (nm.follow disk sTo).isSome then (false, nm.write disk sTo content) else (true, disk)
      | .failed (some left) => (true, nm.write disk sTo left)
      | .failed none => (true, disk)

/-- `LinkOrCopy` behind the checks. -/
def linkThenCopy (io : LinkIo) (disk : FileTree π) (sFrom sTo : Bytes) : LinkExit × FileTree π :=
  if io.link && (disk.node (nm.place sFrom)).isSome && (disk.node (nm.place sTo)).isNone then
    (.linked, disk.link (nm.place sFrom) (nm.place sTo))
  else
    match fileCopy nm io.copy disk sFrom sTo with
    -- no error code is false
    | (false, disk) => (.copied, disk)
    | (true, disk) =>
      -- make sure the copy is ok
      match nm.read disk sFrom, nm.read disk sTo with
      | some source, some target => (.compared (target.length = source.length), disk)
      | _, _ => (.compared false, disk)

def linkOrCopy (io : LinkIo) (disk : FileTree π) (sFrom sTo : Bytes) : LinkExit × FileTree π :=
  match if io.lstat then disk.node (nm.place sFrom) else none with
  | some (.link _) =>
    match if io.realpath && (nm.stat disk sFrom).isSome then nm.follow disk sFrom else none with
    | none => (.noRealpath, disk)
    | some real =>
      let disk := if io.unlink then disk.unlink (nm.place sTo) else disk
      if io.symlink && (disk.node (nm.place sTo)).isNone then
        (.symlinked true, disk.symlink (nm.canonical real) (nm.place sTo))
      else (.symlinked false, disk)
  | _ =>
    match nm.stat disk sFrom with
    | none => (.noSource, disk)
    | some stinfo =>
      match nm.stat disk sTo with
      | none => linkThenCopy nm io disk sFrom sTo
      | some toinfo =>
        -- same file, don't care
        if stinfo = toinfo then (.sameFile, disk)
        else if !io.unlink then (.notUnlinked, disk)
        else linkThenCopy nm io (disk.unlink (nm.place sTo)) sFrom sTo

structure ImpFileInfo where
  sPath : Bytes
  bFileUsed : Bool := false
deriving DecidableEq, Repr

/-- A file of the import directory for which the flag was set, with what it had in it. -/
structure Matched where
  source : Bytes
  dest : Bytes
  content : Option Bytes
deriving DecidableEq, Repr

/-- The state of an import. The last two are not kept by the program: what was matched, and which entries were
deleted from the import directory. -/
structure ImportState (π : Type) where
  disk : FileTree π
  importMap : Fingerprint → Option ImpFileInfo
  matched : List Matched := []
  deleted : List π := []

/-- What the calls for one entry do. -/
structure ImportIo where
  unlink : Bool := true
  link : LinkIo := {}
  unlinkHead : Bool := true
  head : DumpIo

def destAbs (cfg : RegistryCfg) (entry : RemoteFileInfo) : Bytes :=
  cfg.absPath (cfg.normalizePath (entry.sDirectory ++ entry.sFileName))

def destHeadAbs (cfg : RegistryCfg) (entry : RemoteFileInfo) : Bytes := destAbs cfg entry ++ lit ".head"

/-- The flag is set. -/
def ImportState.use (st : ImportState π) (fpr : Fingerprint) (hit : ImpFileInfo) (dest : Bytes)
    (content : Option Bytes) : ImportState π :=
  { st with
    importMap := Function.update st.importMap fpr (some { hit with bFileUsed := true })
    matched := ⟨hit.sPath, dest, content⟩ :: st.matched }

def sameFile (disk : FileTree π) (sDestAbs sFromAbs : Bytes) : Bool :=
  (nm.stat disk sDestAbs).isSome && nm.stat disk sDestAbs == nm.stat disk sFromAbs

/-- `HandlePkgEntry` up to the label `gen_header`: whether it gets there. -/
def beforeHeader (cfg : RegistryCfg) (io : ImportIo) (st : ImportState π) (entry : RemoteFileInfo)
    (hit : ImpFileInfo) : Bool × ImportState π :=
  let sDestAbs := destAbs cfg entry
  if sameFile nm st.disk sDestAbs hit.sPath then
    ((nm.stat st.disk (destHeadAbs cfg entry)).isNone,
      st.use entry.fpr hit sDestAbs (nm.read st.disk hit.sPath))
  else
    let disk := if io.unlink then st.disk.unlink (nm.place sDestAbs) else st.disk
    let r := linkOrCopy nm io.link disk hit.sPath sDestAbs
    (r.1.result, { st with disk := r.2 })

/-- From that label on. No result is a call that does not return. -/
def genHeader (cfg : RegistryCfg) (io : ImportIo) (st : ImportState π) (entry : RemoteFileInfo)
    (hit : ImpFileInfo) (content : Option Bytes) : Option (ImportState π) :=
  let sDestHeadAbs := destHeadAbs cfg entry
  let disk := if io.unlinkHead then st.disk.unlink (nm.place sDestHeadAbs) else st.disk
  match storeHeadToStorage sDestHeadAbs (nm.read disk sDestHeadAbs) io.head entry.fpr.size none none with
  | none => none
  | some (stored, head) =>
    let disk := match head with
      | none => disk
      | some head => nm.write disk sDestHeadAbs head
    -- junk may remain but that's a job for cleanup later
    if !stored then some { st with disk }
    else some ({ st with disk : ImportState π }.use entry.fpr hit (destAbs cfg entry) content)

def handlePkgEntry (cfg : RegistryCfg) (io : ImportIo) (st : ImportState π) (entry : RemoteFileInfo) :
    Option (ImportState π) :=
  match st.importMap entry.fpr with
  | none => some st
  | some hit =>
    match beforeHeader nm cfg io st entry hit with
    | (false, st') => some st'
    | (true, st') => genHeader nm cfg io st' entry hit (nm.read st.disk hit.sPath)

/-- One pass of the loop that deletes imported files, with the result of its `unlink`. -/
def deleteUsed (st : ImportState π) (fpr : Fingerprint) (ok : Bool) : ImportState π :=
  match st.importMap fpr with
  | none => st
  | some info =>
    let place := nm.place info.sPath
    if info.bFileUsed && ok && (st.disk.node place).isSome then
      { st with disk := st.disk.unlink place, deleted := place :: st.deleted }
    else st

/-- The entries of the index files, one after the other. -/
def handleEntries (cfg : RegistryCfg) (st : ImportState π) (entries : List (RemoteFileInfo × ImportIo)) :
    Option (ImportState π) :=
  entries.foldlM (fun st entry => handlePkgEntry nm cfg entry.2 st entry.1) st

/-- The loop over the map, in any order and with the result of each `unlink`. -/
def deleteAll (st : ImportState π) (unlinks : List (Fingerprint × Bool)) : ImportState π :=
  unlinks.foldl (fun st pass => deleteUsed nm st pass.1 pass.2) st

/-- `Action` once the map is made. Either loop may be left early. -/
def importFiles (cfg : RegistryCfg) (st : ImportState π) (entries : List (RemoteFileInfo × ImportIo))
    (unlinks : List (Fingerprint × Bool)) : Option (ImportState π) :=
  (handleEntries nm cfg st entries).map (fun st => deleteAll nm st unlinks)

end Import

/-- `tImpFileInfo` with the modification time. -/
structure KeyInfo extends ImpFileInfo where
  mtime : Int := 0
deriving DecidableEq, Repr

abbrev KeyEntry := Fingerprint × KeyInfo

/-- The conversion to `CSTYPES`, which is a byte. No result is a value without a name. -/
def toCsType (csType : Int) : Option CsType :=
  let byte := csType % 256
  if byte = 0 then some .invalid
  else if byte = 1 then some .md5
  else if byte = 2 then some .sha1
  else if byte = 3 then some .sha256
  else if byte = 4 then some .sha512
  else none

/-- What an import knows of the files in its directory. The last one is not kept by the program: the files that
were read for their fingerprints. -/
structure ImportKeys where
  importMap : List KeyEntry := []
  importRest : List KeyEntry := []
  precachedList : List Bytes := []
  checked : List Bytes := []
deriving DecidableEq, Repr

def ImportKeys.load (keys : ImportKeys) (e : KeyEntry) : ImportKeys :=
  { keys with
    importMap := OrdMap.insert Fingerprint.lt e.1 e.2 keys.importMap
    precachedList := e.2.sPath :: keys.precachedList }

/-- The variables in `_LoadKeyCache`. What is not read keeps its value. -/
structure KeyVars where
  cs : Bytes := []
  fpr : Fingerprint := {}
  csType : Int := 0
  sPath : Bytes := []
  mtime : Int := 0
deriving DecidableEq, Repr

def KeyVars.entry (v : KeyVars) : KeyEntry := (v.fpr, { sPath := v.sPath, mtime := v.mtime })

/-- The size, the type and the checksum of a record. No result is the return in the loop. -/
def readKey (input : InStream) (v : KeyVars) : Option (InStream × KeyVars) :=
  let (input, cs) := input.getline v.cs
  if strtoll cs < 0 then none
  else
    let size := strtoll cs
    let (input, csType) := input.readInt (-2 ^ 31) (2 ^ 31 - 1) v.csType
    let (input, cs) := input.getline cs -- newline
    let (input, cs) := input.getline cs -- checksum line
    match (toCsType csType).bind (fun csType => { v.fpr with size }.setCs cs csType) with
    | none => none
    | some fpr => some (input, { v with cs, fpr, csType })

/-- The path and the time of a record. -/
def readPath (sSrcPath : Bytes) (input : InStream) (v : KeyVars) : InStream × KeyVars :=
  let (input, sPath) := input.getline v.sPath
  let sPath := sSrcPath ++ 47 :: sPath
  let (input, mtime) := input.readInt (-2 ^ 63) (2 ^ 63 - 1) v.mtime
  let (input, cs) := input.getline v.cs -- newline
  (input, { v with cs, sPath, mtime })

/-- One pass of the loop up to the `stat`. -/
def keyPass (sSrcPath : Bytes) (input : InStream) (v : KeyVars) : Option (InStream × KeyVars) :=
  (readKey input v).map (fun r => readPath sSrcPath r.1 r.2)

theorem readKey_shrinks {input input' : InStream} {v v' : KeyVars} (h : readKey input v = some (input', v'))
    (hgood : input'.good = true) : input'.rest.length < input.rest.length := by
  simp only [readKey] at h
  split at h
  · exact absurd h (by simp)
  · split at h
    · exact absurd h (by simp)
    · simp only [Option.some.injEq, Prod.mk.injEq] at h
      obtain ⟨rfl, -⟩ := h
      obtain ⟨h3, hl3⟩ := InStream.getline_good hgood
      obtain ⟨h2, hl2⟩ := InStream.getline_good h3
      obtain ⟨h1, hl1⟩ := InStream.readInt_good h2
      obtain ⟨-, hl0⟩ := InStream.getline_good h1
      omega

theorem readPath_shrinks {sSrcPath : Bytes} {input : InStream} {v : KeyVars}
    (hgood : (readPath sSrcPath input v).1.good = true) :
    input.good = true ∧ (readPath sSrcPath input v).1.rest.length < input.rest.length := by
  obtain ⟨h2, hl2⟩ := InStream.getline_good hgood
  obtain ⟨h1, hl1⟩ := InStream.readInt_good h2
  obtain ⟨h0, hl0⟩ := InStream.getline_good h1
  exact ⟨h0, hl2.trans (hl1.trans_lt hl0)⟩

/-- A pass behind which the loop goes on has read something. -/
theorem keyPass_shrinks {sSrcPath : Bytes} {input input' : InStream} {v v' : KeyVars}
    (h : keyPass sSrcPath input v = some (input', v')) (hgood : input'.good = true) :
    input'.rest.length < input.rest.length := by
  obtain ⟨r, hr, hpath⟩ := Option.map_eq_some_iff.mp h
  obtain rfl : (readPath sSrcPath r.1 r.2).1 = input' := congrArg Prod.fst hpath
  obtain ⟨hkey, hlt⟩ := readPath_shrinks hgood
  exact hlt.trans (readKey_shrinks hr hkey)

/-- The loop of `_LoadKeyCache`. `stat` gives modification times. -/
def loadKeys (sSrcPath : Bytes) (stat : Bytes → Option Int) (keys : ImportKeys) (input : InStream) (v : KeyVars) :
    ImportKeys :=
  match _hpass : keyPass sSrcPath input v with
  | none => keys
  | some (input', v') =>
    let keys := if stat (cstr v'.sPath) = some v'.mtime then keys.load v'.entry else keys
    if _hgood : input'.good = true then loadKeys sSrcPath stat keys input' v' else keys
termination_by input.rest.length
decreasing_by exact keyPass_shrinks _hpass _hgood

def fmtSig : Bytes := lit "FMT5"

/-- `_LoadKeyCache`, with what is in the file if it can be opened. -/
def loadKeyCache (sSrcPath : Bytes) (stat : Bytes → Option Int) (cache : Option Bytes) : ImportKeys :=
  match cache with
  | none => {}
  | some text =>
    let (input, cs) := InStream.getline { rest := text } []
    if cs != fmtSig then {} else loadKeys sSrcPath stat {} input { cs }

/-- The settings of an import, with `FILE_INVALID != GetFiletype` and the checksums of a file's content. -/
structure ImportCfg where
  sSrcPath : Bytes
  known : Bytes → Bool
  checksum : CsType → Bytes → Bytes
  checksum_length : ∀ ctp content, (checksum ctp content).length = ctp.len

/-- A file the walk comes to, with what `ScanFile` reads for each checksum. -/
structure ImportFile where
  sPath : Bytes
  mtime : Int
  scan : CsType → Option Bytes

def ImportCfg.fingerprint (cfg : ImportCfg) (ctp : CsType) (content : Bytes) : Fingerprint :=
  { size := content.length, csType := ctp, csum := cfg.checksum ctp content }

/-- One pass of the loop in `ProcessRegular`. -/
def checkFile (cfg : ImportCfg) (file : ImportFile) (keys : ImportKeys) (ctp : CsType) : ImportKeys :=
  match file.scan ctp with
  | none => keys
  | some content =>
    -- ultra small files, looking like garbage
    if content.length < 50 then keys
    else
      let fpr := cfg.fingerprint ctp content
      let node := (keys.importMap.lookup fpr).getD { sPath := [] }
      if node.sPath.isEmpty then
        { keys with
          importMap := OrdMap.insert Fingerprint.lt fpr { node with sPath := file.sPath, mtime := file.mtime }
            keys.importMap }
      else if node.sPath ≠ file.sPath then
        { keys with importRest := keys.importRest ++ [(fpr, { sPath := file.sPath, mtime := file.mtime })] }
      else keys

/-- `ProcessRegular` behind the search for index files. -/
def ImportCfg.processRegular (cfg : ImportCfg) (keys : ImportKeys) (file : ImportFile) : ImportKeys :=
  if (lit ".head").isSuffixOf file.sPath || !cfg.known file.sPath || keys.precachedList.contains file.sPath then keys
  else
    [CsType.md5, .sha1, .sha512].foldl (checkFile cfg file) { keys with checked := file.sPath :: keys.checked }

/-- A record of the key cache up to its path, and the whole one. -/
def keyHead (e : KeyEntry) : Bytes :=
  dec e.1.size ++ 10 :: (dec e.1.csType.ctorIdx ++ 10 :: bytesToHexString e.1.csum)

def keyText (sSrcPath : Bytes) (e : KeyEntry) : Bytes :=
  keyHead e ++ 10 :: (e.2.sPath.drop (sSrcPath.length + 1) ++ 10 :: (dec e.2.mtime ++ [10]))

def keyCacheText (sSrcPath : Bytes) (entries : List KeyEntry) : Bytes :=
  fmtSig ++ 10 :: entries.flatMap (keyText sSrcPath)

/-- What becomes of the key cache when it is written. A kill or a full disk leaves a part of it. -/
inductive KeySave
  | whole
  | cut (n : Nat)
  | notOpened (unlinked : Bool)
deriving DecidableEq, Repr

/-- The entries with their whole record in the first bytes behind the signature. -/
def wholeRecords (sSrcPath : Bytes) : Nat → List KeyEntry → List KeyEntry
  | _, [] => []
  | n, e :: entries =>
    let size := (keyText sSrcPath e).length
    if size ≤ n then e :: wholeRecords sSrcPath (n - size) entries else []

/-- The import directory and the key cache between two imports. The last one is not kept by the program: the
entries whose records are in the key cache. -/
structure ImportDir where
  stat : Bytes → Option Int
  cache : Option Bytes := none
  entries : List KeyEntry := []

/-- What decides an import: the files it walks over, the fingerprints for which the flag gets set, the results
of `unlink`, and how the key cache is written. -/
structure ImportCalls where
  walk : List ImportFile
  used : List Fingerprint
  unlinks : Fingerprint → Bool
  save : KeySave := .whole

def importKeys (cfg : ImportCfg) (dir : ImportDir) (walk : List ImportFile) : ImportKeys :=
  walk.foldl cfg.processRegular (loadKeyCache cfg.sSrcPath dir.stat dir.cache)

/-- The loop that deletes imported stuff and keeps the other entries. -/
def leaveBehind (calls : ImportCalls) : List KeyEntry → (Bytes → Option Int) → List KeyEntry × (Bytes → Option Int)
  | [], stat => ([], stat)
  | e :: entries, stat =>
    let used := calls.used.contains e.1
    if used && calls.unlinks e.1 then leaveBehind calls entries (Function.update stat e.2.sPath none)
    else
      let r := leaveBehind calls entries stat
      ((e.1, { e.2 with bFileUsed := used }) :: r.1, r.2)

/-- `Action` from the load of the key cache on. -/
def runImport (cfg : ImportCfg) (dir : ImportDir) (calls : ImportCalls) : ImportDir :=
  let keys := importKeys cfg dir calls.walk
  if keys.importMap.isEmpty then dir
  else
    let r := leaveBehind calls keys.importMap dir.stat
    let left := r.1 ++ keys.importRest
    let stat := r.2
    match calls.save with
    | .whole => { stat, cache := some (keyCacheText cfg.sSrcPath left), entries := left }
    | .cut n =>
      { stat
        cache := some ((keyCacheText cfg.sSrcPath left).take n)
        entries := wholeRecords cfg.sSrcPath (n - 5) left }
    | .notOpened true => { stat }
    | .notOpened false => { dir with stat }

/-- Anything else changes the files, and there are imports. -/
inductive ImportAct
  | change (stat : Bytes → Option Int)
  | action (calls : ImportCalls)

def ImportDir.step (cfg : ImportCfg) (dir : ImportDir) : ImportAct → ImportDir
  | .change stat => { dir with stat }
  | .action calls => runImport cfg dir calls

def ImportDir.run (cfg : ImportCfg) (dir : ImportDir) (acts : List ImportAct) : ImportDir :=
  acts.foldl (ImportDir.step cfg) dir

end Acng
