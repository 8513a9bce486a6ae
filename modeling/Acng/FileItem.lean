import Acng.Header
import Mathlib.Order.Lattice
import Mathlib.Order.Basic

namespace Acng
open Lib

inductive FiStatus
  | fresh | inited | dlPending | dlGotHead | dlReceiving | complete | dlError | dlStop
deriving DecidableEq, Repr

def FiStatus.rank : FiStatus → Nat
  | .fresh => 0 | .inited => 1 | .dlPending => 2 | .dlGotHead => 3
  | .dlReceiving => 4 | .complete => 5 | .dlError => 6 | .dlStop => 7

instance : LinearOrder FiStatus :=
  LinearOrder.lift' FiStatus.rank (by intro a b h; cases a <;> cases b <;> simp_all [FiStatus.rank])

/-- What the destructor does to the cached files, in the documented order of severity. -/
inductive EDestroyMode
  | keep | deleteKeepHead | truncate | abandoned | delete
deriving DecidableEq, Repr

def EDestroyMode.rank : EDestroyMode → Nat
  | .keep => 0 | .deleteKeepHead => 1 | .truncate => 2 | .abandoned => 3 | .delete => 4

instance : LinearOrder EDestroyMode :=
  LinearOrder.lift' EDestroyMode.rank
    (by intro a b h; cases a <;> cases b <;> simp_all [EDestroyMode.rank])

structure SpecialPurposeAttr where
  bVolatile : Bool := false
  bHeadOnly : Bool := false
  bNoStore : Bool := false
  nRangeLimit : Int := -1
deriving DecidableEq, Repr

/-- A `.head` file: the values it holds, or contents without the expected
status line. -/
inductive HeadFile
  | garbled
  | fields (contLen : Option Int) (lastModified : Option HttpDate) (origSrc : Option Bytes)
deriving DecidableEq, Repr

/-- The two files at one cache path. -/
structure Disk where
  file : Option Bytes := none
  head : Option HeadFile := none
deriving DecidableEq, Repr

/-- Outcome of one careful replacement of the data file. -/
structure ReplaceIo where
  createTmp : Bool := true
  moveOld : Bool := true
  moveNew : Bool := true
deriving DecidableEq, Repr

/-- Outcome of writing a `.head` file: written, not even opened, or damaged. -/
inductive HeadIo
  | stored | lost | torn
deriving DecidableEq, Repr

/-- Outcomes of the file operations behind one `DlAddData`. `written` is the
number of bytes that reach the file before a write fails for good. -/
structure StoreIo where
  replaceOrdered : ReplaceIo := {}
  replaceUnopened : ReplaceIo := {}
  replaceLonger : ReplaceIo := {}
  openFile : Bool := true
  seekEnd : Bool := true
  head : HeadIo := .stored
  written : Option Nat := none
deriving DecidableEq, Repr

/-- `fileitem_with_storage` together with the files at its path. The open
descriptor is its write position in the current data file. -/
structure FileItem where
  sPathRel : Bytes := []
  disk : Disk := {}
  nIncommingCount : Nat := 0
  nSizeCachedInitial : Int := -1
  nContentLength : Int := -1
  responseStatus : RemoteStatus := {}
  responseOrigin : Bytes := []
  responseModDate : HttpDate := {}
  bWriterMustReplaceFile : Bool := false
  nDlRefsCount : Nat := 0
  spattr : SpecialPurposeAttr := {}
  nSizeChecked : Int := -1
  status : FiStatus := .fresh
  eDestroy : EDestroyMode := .keep
  nTimeDlStarted : Int := 0
  filefd : Option Nat := none
deriving DecidableEq, Repr

namespace FileItem

def isVolatile (fi : FileItem) : Bool := fi.spattr.bVolatile

/-- The last condition fuses the requested mode into the stored one. -/
def dlSetError (fi : FileItem) (errState : RemoteStatus) (kmode : EDestroyMode) : FileItem :=
  { fi with
    responseStatus := errState, status := .dlError,
    eDestroy := if kmode < fi.eDestroy then kmode else fi.eDestroy }

def markFaulty (fi : FileItem) (killFile : Bool) : FileItem :=
  fi.dlSetError ⟨500, lit "Bad Cache Item"⟩ (if killFile then .delete else .truncate)

/-- The storage item's own `withError`; its result is always false. -/
def withError (fi : FileItem) (destruction : EDestroyMode := .keep) : FileItem :=
  fi.dlSetError ⟨500, lit "Cache Error, check apt-cacher.err"⟩ destruction

def dlRefCountAdd (fi : FileItem) : FileItem :=
  { fi with nDlRefsCount := (fi.nDlRefsCount + 1) % 2 ^ 32 }

/-- The counter is an unsigned int: it would wrap around below zero. -/
def dlRefCountDec (fi : FileItem) (reason : RemoteStatus) : FileItem :=
  let fi := { fi with nDlRefsCount := (fi.nDlRefsCount + (2 ^ 32 - 1)) % 2 ^ 32 }
  if fi.nDlRefsCount > 0 then fi
  else if fi.status < .complete then fi.dlSetError reason fi.eDestroy
  else fi

def fileSize (d : Disk) : Int :=
  match d.file with
  | none => -1
  | some b => b.length

/-- `ParseHeadFromStorage`. A file that cannot be read makes it return -1, which
is true as a bool, and the values stay as they were. -/
def parseHeadFromStorage (fi : FileItem) : Bool × FileItem :=
  match fi.disk.head with
  | none => (true, fi)
  | some .garbled => (false, fi)
  | some (.fields contLen lastModified origSrc) =>
    (true, { fi with
      nContentLength := contLen.getD fi.nContentLength
      responseModDate := lastModified.getD fi.responseModDate
      responseOrigin := origSrc.getD fi.responseOrigin })

def errorClean (fi : FileItem) : FileItem :=
  { fi with
    nSizeCachedInitial := -1, nSizeChecked := -1, nContentLength := -1
    bWriterMustReplaceFile := true, status := .inited }

/-- `fileitem_with_storage::Setup`. -/
def setup (fi : FileItem) : FileItem :=
  if fi.status > .fresh then fi
  else
    let fi := { fi with
      status := .inited, nSizeCachedInitial := fileSize fi.disk, nSizeChecked := -1 }
    match fi.parseHeadFromStorage with
    | (false, fi) => fi.errorClean
    | (true, fi) =>
      let fi := { fi with responseStatus := ⟨200, lit "OK"⟩ }
      if fi.isVolatile then fi
      else if fi.spattr.bHeadOnly then { fi with status := .dlGotHead }
      else if 0 ≤ fi.nContentLength then
        -- file larger than it could ever be?
        if fi.nContentLength < fi.nSizeCachedInitial then fi.errorClean
        else if fi.nSizeCachedInitial = fi.nContentLength then
          { fi with nSizeChecked := fi.nSizeCachedInitial, status := .complete }
        else { fi with spattr := { fi.spattr with bVolatile := true } }
      else { fi with spattr := { fi.spattr with bVolatile := true } }

/-- `StoreHeadToStorage`. Its result is the byte count or -1, both true as a
bool, so no failure is ever reported. -/
def storeHead (fi : FileItem) (io : HeadIo) (contLen : Int) (lastModified : Option HttpDate) :
    Bool × FileItem :=
  match io with
  | .lost => (true, fi)
  | .torn => (true, { fi with disk := { fi.disk with head := some .garbled } })
  | .stored =>
    (true, { fi with disk := { fi.disk with head := some (.fields
      (if 0 ≤ contLen then some contLen else none)
      (lastModified.filter HttpDate.isSet)
      (if fi.responseOrigin.isEmpty then none else some fi.responseOrigin)) } })

def saveHeader (fi : FileItem) (truncatedKeepOnlyOrigInfo : Bool) (io : HeadIo := .stored) :
    Bool × FileItem :=
  if truncatedKeepOnlyOrigInfo then fi.storeHead io (-1) none
  else fi.storeHead io fi.nContentLength (some fi.responseModDate)

/-- `fileitem::DlStarted`. -/
def dlStarted (lib : DateLib) (fi : FileItem) (rawHeader : Nat) (modDate : HttpDate)
    (origin : Bytes) (status : RemoteStatus) (bytes2seek bytesAnnounced : Int) : Bool × FileItem :=
  let fi := { fi with nIncommingCount := fi.nIncommingCount + rawHeader }
  -- hot restart? Can only jump to the previous position if the state appears sane
  if .dlGotHead ≤ fi.status &&
      ((fi.nContentLength ≠ bytesAnnounced && fi.nContentLength ≠ -1) ||
        !(fi.responseModDate.eq lib modDate) || bytes2seek > fi.nSizeChecked) then (false, fi)
  else
    let fi := if .dlGotHead ≤ fi.status then fi else { fi with nContentLength := -1 }
    let fi := { fi with status := .dlGotHead }
    if 0 ≤ bytes2seek && (0 ≤ fi.nSizeChecked && bytes2seek < fi.nSizeChecked) then (false, fi)
    else
      (true, { fi with
        nSizeChecked := if 0 ≤ bytes2seek then bytes2seek else fi.nSizeChecked
        responseStatus := status, responseOrigin := origin
        responseModDate := modDate, nContentLength := bytesAnnounced })

/-- The local function of `SafeOpenOutFile` that puts an empty file in place. -/
def replaceFile (fi : FileItem) (io : ReplaceIo) : Bool × FileItem :=
  let fi := { fi with filefd := none, bWriterMustReplaceFile := false }
  if !io.createTmp then (false, fi.withError)
  else if !io.moveOld then (false, fi.withError)
  else if !io.moveNew then (false, { fi with disk := { fi.disk with file := none } }.withError)
  else (true, { fi with disk := { fi.disk with file := some [] }, filefd := some 0 })

/-- `open(path, O_WRONLY|O_CREAT)`. -/
def openFile (fi : FileItem) (ok : Bool) : FileItem :=
  if ok then
    { fi with disk := { fi.disk with file := some (fi.disk.file.getD []) }, filefd := some 0 }
  else fi

/-- Replacement if ordered or when acting on chunked transfers, then a plain
open, then replacement because the old file may be a link to a read-only one. -/
def obtainFd (fi : FileItem) (io : StoreIo) : Bool × FileItem :=
  let r := if fi.bWriterMustReplaceFile || fi.nContentLength < 0 then fi.replaceFile io.replaceOrdered
    else (true, fi)
  if !r.1 then r
  else
    let fi := if r.2.filefd.isNone then r.2.openFile io.openFile else r.2
    if fi.filefd.isNone then fi.replaceFile io.replaceUnopened else (true, fi)

/-- The part of `SafeOpenOutFile` behind the size check: the seek to the
resume position, the check of that position and the store of the head. -/
def startWriting (fi : FileItem) (io : StoreIo) (sizeOnDisk : Int) : Bool × FileItem :=
  let fi := if fi.nSizeChecked < 0 then { fi with nSizeChecked := 0 } else fi
  let fi := { fi with filefd := some fi.nSizeChecked.toNat }
  if fi.nSizeChecked > sizeOnDisk then (false, fi.withError)
  else
    let r := fi.saveHeader false io.head
    if !r.1 then (false, r.2.withError) else (true, { r.2 with status := .dlReceiving })

/-- `fileitem_with_storage::SafeOpenOutFile`. The copy of an old Release file to
the side store and the preallocation, which keeps the size, touch neither the
item nor the two files. -/
def safeOpenOutFile (fi : FileItem) (io : StoreIo) : Bool × FileItem :=
  let fi := { fi with filefd := none }
  if fi.spattr.bNoStore then (false, fi)
  else
    let r := fi.obtainFd io
    if !r.1 then r
    else
      let fi := r.2
      if !io.seekEnd then (false, fi.withError)
      else if fileSize fi.disk > fi.nContentLength then
        -- remote files may shrink
        let r := fi.replaceFile io.replaceLonger
        if !r.1 then r else r.2.startWriting io 0
      else fi.startWriting io (fileSize fi.disk)

/-- `write` at an offset inside or at the end of a file. -/
def writeAt (file : Bytes) (pos : Nat) (data : Bytes) : Bytes :=
  file.take pos ++ data ++ file.drop (pos + data.length)

/-- The write loop. The descriptor and the checked size advance together. -/
def writeChunk (fi : FileItem) (pos : Nat) (chunk : Bytes) : FileItem :=
  { fi with
    disk := { fi.disk with file := fi.disk.file.map (fun f => writeAt f pos chunk) }
    filefd := some (pos + chunk.length)
    nSizeChecked := fi.nSizeChecked + chunk.length }

/-- `fileitem_with_storage::DlAddData`. -/
def dlAddData (fi : FileItem) (chunk : Bytes) (io : StoreIo := {}) : Bool × FileItem :=
  let fi := { fi with nIncommingCount := fi.nIncommingCount + chunk.length }
  let r := if fi.filefd.isNone then fi.safeOpenOutFile io else (true, fi)
  if !r.1 then r
  else
    let fi := r.2
    match fi.filefd with
    | none => (false, fi.withError)
    | some pos =>
      if fi.status < .dlGotHead then (false, fi.withError)
      else if .complete < fi.status then (false, fi)
      else
        match io.written with
        | none => (true, fi.writeChunk pos chunk)
        | some n => (false, (fi.writeChunk pos (chunk.take n)).withError)

/-- The length that only the end of a chunked transfer tells. -/
def fixLength (fi : FileItem) : FileItem :=
  { fi with nContentLength := if fi.nContentLength < 0 then fi.nSizeChecked else fi.nContentLength }

/-- `fileitem::DlFinish`. -/
def dlFinish (fi : FileItem) (forceUpdateHeader : Bool) (io : HeadIo := .stored) : FileItem :=
  if fi.spattr.bNoStore then fi
  else if .complete < fi.status then fi
  else
    let fi := { fi with status := .complete }
    -- fix the header after chunked transfers
    if fi.nContentLength < 0 || forceUpdateHeader then
      if fi.eDestroy = .keep then (fi.fixLength.saveHeader false io).2 else fi.fixLength
    else fi

/-- `~fileitem_with_storage`: the files that are left. In the mode KEEP the path
of the truncation is still empty, so nothing happens there. -/
def destroy (fi : FileItem) : Disk :=
  if fi.spattr.bNoStore || fi.sPathRel.isEmpty then fi.disk
  else
    let onlyOrigin := (fi.saveHeader true).2.disk.head
    match fi.eDestroy with
    | .keep => fi.disk
    | .truncate => { file := fi.disk.file.map (fun _ => []), head := onlyOrigin }
    | .abandoned => { fi.disk with file := none }
    | .delete => { file := none, head := none }
    | .deleteKeepHead => { file := none, head := onlyOrigin }

end FileItem

end Acng
