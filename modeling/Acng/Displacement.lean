import Acng.Lib.Files
import Acng.SendData

namespace Acng
open Lib

/-- The files on the disk, by the components of their paths. -/
abbrev Cache := Files (List Bytes) Bytes

/-- What a path says to the kernel. There are no symbolic links, and `..` is a name. -/
def resolve (p : Bytes) : List Bytes :=
  ((cstr p).splitOn 47).filter (fun c => !c.isEmpty && c != [46])

/-- `GetDirPart`. -/
def dirPart (p : Bytes) : Bytes :=
  match rfind 47 p with
  | none => []
  | some pos => p.take (pos + 1)

/-- A temporary name from three random numbers. -/
def tmpName (sPathAbs : Bytes) (rand : Nat → Nat) (k : Nat) : Bytes :=
  dirPart sPathAbs ++ lit "./" ++ dec (rand k) ++ dec (rand (k + 1)) ++ dec (rand (k + 2))

/-- An item whose files are in the cache, next to those of other items. The descriptor has the
file and the position in it. -/
structure StoredItem where
  fi : FileItem
  filefd : Option (Nat × Nat) := none
deriving DecidableEq, Repr

namespace StoredItem

/-- `SABSPATH`, where `base` stands for `CACHE_BASE`. -/
def pathAbs (base : Bytes) (it : StoredItem) : Bytes := base ++ it.fi.sPathRel

def pathHead (base : Bytes) (it : StoredItem) : Bytes := base ++ it.fi.sPathRel ++ lit ".head"

def withError (it : StoredItem) : StoredItem := { it with fi := it.fi.withError }

/-- The client side opens the file. -/
def getFileFd (base : Bytes) (fs : Cache) (it : StoredItem) : Option Nat := fs.names (resolve (it.pathAbs base))

/-- The text that `StoreHeadToStorage` writes. -/
def headText (fi : FileItem) (contLen : Int) (lastModified : Option HttpDate) : Bytes :=
  lit "HTTP/1.1 200 OK\r\n" ++
    (if 0 ≤ contLen then lit "Content-Length: " ++ dec contLen ++ crlf else []) ++
    (match lastModified with
      | some d => if d.isSet then lit "Last-Modified: " ++ d.buf ++ crlf else []
      | none => []) ++
    (if fi.responseOrigin.isEmpty then [] else lit "X-Original-Source: " ++ fi.responseOrigin ++ crlf) ++
    crlf

/-- A damaged file is one that was only created. -/
def storeHead (fs : Cache) (p : List Bytes) (text : Bytes) : HeadIo → Cache
  | .lost => fs
  | .torn => (fs.openFile p []).2.write (fs.openFile p []).1 []
  | .stored => (fs.openFile p []).2.write (fs.openFile p []).1 text

def saveHeader (base : Bytes) (fs : Cache) (it : StoredItem) (truncatedKeepOnlyOrigInfo : Bool)
    (io : HeadIo := .stored) : Cache :=
  storeHead fs (resolve (it.pathHead base))
    (if truncatedKeepOnlyOrigInfo then headText it.fi (-1) none
      else headText it.fi it.fi.nContentLength (some it.fi.responseModDate)) io

/-- The local function of `SafeOpenOutFile` that puts an empty file in place. -/
def replaceFile (base : Bytes) (rand : Nat → Nat) (fs : Cache) (it : StoredItem) (io : ReplaceIo) :
    Bool × Cache × StoredItem :=
  let sPathAbs := resolve (it.pathAbs base)
  let tname := resolve (tmpName (it.pathAbs base) rand 0)
  let tname2 := resolve (tmpName (it.pathAbs base) rand 3)
  let it := { it with fi := { it.fi with bWriterMustReplaceFile := false }, filefd := none }
  if !io.createTmp then (false, fs, it.withError)
  else
    let (tmp, fs) := fs.openFile tname []
    if !io.moveOld then (false, fs, it.withError)
    else
      let didNotExist := (fs.names sPathAbs).isNone
      let fs := fs.rename sPathAbs tname2
      if !io.moveNew then (false, fs, it.withError)
      else
        let fs := fs.rename tname sPathAbs
        (true, if didNotExist then fs else fs.unlink tname2, { it with filefd := some (tmp, 0) })

/-- `open(path, O_WRONLY|O_CREAT)`. -/
def openFile (base : Bytes) (fs : Cache) (it : StoredItem) (ok : Bool) : Cache × StoredItem :=
  if ok then
    let (fd, fs) := fs.openFile (resolve (it.pathAbs base)) []
    (fs, { it with filefd := some (fd, 0) })
  else (fs, it)

def obtainFd (base : Bytes) (rand : Nat → Nat) (fs : Cache) (it : StoredItem) (io : StoreIo) :
    Bool × Cache × StoredItem :=
  let r := if it.fi.bWriterMustReplaceFile || it.fi.nContentLength < 0 then
      replaceFile base rand fs it io.replaceOrdered
    else (true, fs, it)
  if !r.1 then r
  else
    let (fs, it) := if r.2.2.filefd.isNone then openFile base r.2.1 r.2.2 io.openFile else r.2
    if it.filefd.isNone then replaceFile base (fun k => rand (k + 6)) fs it io.replaceUnopened
    else (true, fs, it)

def startWriting (base : Bytes) (fs : Cache) (it : StoredItem) (io : StoreIo) (sizeOnDisk : Int) :
    Bool × Cache × StoredItem :=
  let it := if it.fi.nSizeChecked < 0 then { it with fi := { it.fi with nSizeChecked := 0 } } else it
  let it := { it with filefd := it.filefd.map (fun (fd : Nat × Nat) => (fd.1, it.fi.nSizeChecked.toNat)) }
  if it.fi.nSizeChecked > sizeOnDisk then (false, fs, it.withError)
  else (true, it.saveHeader base fs false io.head, { it with fi := { it.fi with status := .dlReceiving } })

/-- The size of the file behind the descriptor. -/
def sizeOnDisk (fs : Cache) (it : StoredItem) : Int :=
  match it.filefd with
  | none => -1
  | some fd => (fs.data fd.1).length

def safeOpenOutFile (base : Bytes) (rand : Nat → Nat) (fs : Cache) (it : StoredItem) (io : StoreIo) :
    Bool × Cache × StoredItem :=
  let it := { it with filefd := none }
  if it.fi.spattr.bNoStore then (false, fs, it)
  else
    let r := it.obtainFd base rand fs io
    if !r.1 then r
    else
      let (_, fs, it) := r
      if !io.seekEnd then (false, fs, it.withError)
      else if it.sizeOnDisk fs > it.fi.nContentLength then
        let r := replaceFile base (fun k => rand (k + 12)) fs it io.replaceLonger
        if !r.1 then r else r.2.2.startWriting base r.2.1 io 0
      else it.startWriting base fs io (it.sizeOnDisk fs)

/-- The write loop. -/
def writeChunk (fs : Cache) (it : StoredItem) (fd pos : Nat) (chunk : Bytes) : Cache × StoredItem :=
  (fs.write fd (FileItem.writeAt (fs.data fd) pos chunk),
    { fi := { it.fi with nSizeChecked := it.fi.nSizeChecked + chunk.length }
      filefd := some (fd, pos + chunk.length) })

def dlAddData (base : Bytes) (rand : Nat → Nat) (fs : Cache) (it : StoredItem) (chunk : Bytes)
    (io : StoreIo) : Cache × StoredItem :=
  let r := if it.filefd.isNone then it.safeOpenOutFile base rand fs io else (true, fs, it)
  if !r.1 then r.2
  else
    let (_, fs, it) := r
    match it.filefd with
    | none => (fs, it.withError)
    | some (fd, pos) =>
      if it.fi.status < .dlGotHead then (fs, it.withError)
      else if .complete < it.fi.status then (fs, it)
      else
        match io.written with
        | none => it.writeChunk fs fd pos chunk
        | some n =>
          let (fs, it) := it.writeChunk fs fd pos (chunk.take n)
          (fs, it.withError)

def dlFinish (base : Bytes) (fs : Cache) (it : StoredItem) (forceUpdateHeader : Bool) (io : HeadIo) :
    Cache × StoredItem :=
  if it.fi.spattr.bNoStore then (fs, it)
  else if .complete < it.fi.status then (fs, it)
  else
    let it := { it with fi := { it.fi with status := .complete } }
    if it.fi.nContentLength < 0 || forceUpdateHeader then
      let it := { it with fi := it.fi.fixLength }
      if it.fi.eDestroy = .keep then (it.saveHeader base fs false io, it) else (fs, it)
    else (fs, it)

/-- The destructor. A file that is not there cannot be truncated. -/
def destroy (base : Bytes) (fs : Cache) (it : StoredItem) : Cache :=
  let sPathAbs := resolve (it.pathAbs base)
  if it.fi.spattr.bNoStore || it.fi.sPathRel.isEmpty then fs
  else
    match it.fi.eDestroy with
    | .keep => fs
    | .truncate =>
      it.saveHeader base (match fs.names sPathAbs with
        | some i => fs.write i []
        | none => fs) true
    | .abandoned => fs.unlink sPathAbs
    | .delete => (fs.unlink sPathAbs).unlink (resolve (it.pathHead base))
    | .deleteKeepHead => it.saveHeader base (fs.unlink sPathAbs) true

end StoredItem

/-- What `link` and `unlink` meet besides missing and existing files. -/
structure DisplaceIo where
  link : Bool := true
  unlink : Bool := true
deriving DecidableEq, Repr

def replPathAbs (base : Bytes) (it : StoredItem) (now : Int) : Bytes :=
  base ++ (it.fi.sPathRel ++ lit "." ++ dec now)

/-- The evasive maneuver of `TFileItemRegistry::Create`. There is no result if the old file
cannot be moved out of the way. -/
def displace (base : Bytes) (now : Int) (io : DisplaceIo) (fs : Cache) (it : StoredItem) :
    Option (Cache × StoredItem) :=
  let path := resolve (it.pathAbs base)
  let repl := resolve (replPathAbs base it now)
  let abandoned :=
    { it with fi := { it.fi with sPathRel := replPathAbs base it now, eDestroy := .abandoned } }
  if it.fi.sPathRel.isEmpty then none
  else if (fs.names path).isNone then some (fs, abandoned)
  else if !io.link || (fs.names repl).isSome then none
  else
    let fs := fs.link path repl
    some (if io.unlink then fs.unlink path else fs, abandoned)

/-- What is done with an item, by its downloader, its clients and its last user. -/
inductive ItemOp
  | addData (rand : Nat → Nat) (chunk : Bytes) (io : StoreIo)
  | finish (forceUpdateHeader : Bool) (io : HeadIo)
  | setError (errState : RemoteStatus) (kmode : EDestroyMode)
  | openFd
  | destroy

/-- The cache with the displaced item, the one in its place, and the files that clients of the
displaced item have open. -/
structure Sides where
  fs : Cache
  old : Option StoredItem
  new : Option StoredItem
  readers : List (Option Nat) := []

namespace Sides

/-- One operation of an item, with the item if it is still there and what was opened. -/
def operate (base : Bytes) (fs : Cache) (it : StoredItem) : ItemOp → Cache × Option StoredItem
  | .addData rand chunk io =>
    let r := it.dlAddData base rand fs chunk io
    (r.1, some r.2)
  | .finish force io =>
    let r := it.dlFinish base fs force io
    (r.1, some r.2)
  | .setError errState kmode => (fs, some { it with fi := it.fi.dlSetError errState kmode })
  | .openFd => (fs, some it)
  | .destroy => (it.destroy base fs, none)

/-- A step of the displaced item, or of the new one. -/
def step (base : Bytes) (s : Sides) (displaced : Bool) (op : ItemOp) : Sides :=
  match (if displaced then s.old else s.new) with
  | none => s
  | some it =>
    let r := operate base s.fs it op
    if displaced then
      { s with
        fs := r.1, old := r.2
        readers := match op with
          | .openFd => it.getFileFd base s.fs :: s.readers
          | _ => s.readers }
    else { s with fs := r.1, new := r.2 }

/-- Something holds before each step. -/
def Always (base : Bytes) (P : Sides → Bool → ItemOp → Prop) : Sides → List (Bool × ItemOp) → Prop
  | _, [] => True
  | s, (displaced, op) :: ops => P s displaced op ∧ Always base P (s.step base displaced op) ops

/-- The operation does not need the path of the item. To open the file or to remove it in the
mode ABANDONED, the path must be the same with another `CACHE_BASE` in front of it. -/
def Direct (base : Bytes) (it : StoredItem) : ItemOp → Prop
  | .addData _ _ _ => it.filefd.isSome = true ∨ it.fi.spattr.bNoStore = true
  | .finish force _ =>
    it.fi.spattr.bNoStore = true ∨ .complete < it.fi.status ∨ (0 ≤ it.fi.nContentLength ∧ force = false) ∨
      it.fi.eDestroy ≠ .keep
  | .setError _ _ => True
  | .openFd => resolve (base ++ it.fi.sPathRel) = resolve it.fi.sPathRel
  | .destroy =>
    resolve (base ++ it.fi.sPathRel) = resolve it.fi.sPathRel ∧ it.fi.eDestroy = .abandoned ∧
      it.fi.spattr.bNoStore = false

/-- A step of the displaced item does not show in the files of the new one, nor a step of the
new one in the moved copy. The clients of the displaced item have this copy open, and it is
there until the item is destroyed, which removes exactly this name. -/
structure Isolated (base rel : Bytes) (moved : List Bytes) (m : Nat) (s : Sides) (displaced : Bool)
    (op : ItemOp) : Prop where
  untouched : displaced = true → ∀ p, p = resolve (base ++ rel) ∨ p = resolve (base ++ rel ++ lit ".head") →
    (s.step base displaced op).fs.get p = s.fs.get p
  kept : displaced = false → (s.step base displaced op).fs.names moved = s.fs.names moved ∧
    (s.step base displaced op).fs.data m = s.fs.data m
  read : ∀ fd ∈ (s.step base displaced op).readers, fd = some m
  there : (s.step base displaced op).old.isSome = true → (s.step base displaced op).fs.names moved = some m
  removed : displaced = true → op = .destroy → s.old.isSome = true →
    (s.step base displaced op).fs.names = Function.update s.fs.names moved none

end Sides

end Acng
