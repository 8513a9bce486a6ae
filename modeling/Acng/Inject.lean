import Acng.FileItem
import Acng.Fingerprint
import Mathlib.Logic.Function.Basic

namespace Acng
open Lib

/-- `tIfileAttribs`, the flags of an index file. -/
structure IfileAttribs where
  vfile_ondisk : Bool := false
  uptodate : Bool := false
  parseignore : Bool := false
  hideDlErrors : Bool := false
  forgiveDlErrors : Bool := false
  alreadyparsed : Bool := false
deriving DecidableEq, Repr

/-- The cache below its directory and `m_metaFilesRel`. A path that is not in the map has the flags of
`attr_dummy_pure`. -/
structure CacheState where
  disk : Bytes → Disk := fun _ => {}
  flags : Bytes → IfileAttribs := fun _ => {}

namespace CacheState

/-- `SetFlags`, where nothing is remembered of an empty path. -/
def setFlags (st : CacheState) (sPathRel : Bytes) (change : IfileAttribs → IfileAttribs) :
    CacheState :=
  if sPathRel.isEmpty then st
  else { st with flags := Function.update st.flags sPathRel (change (st.flags sPathRel)) }

def setDisk (st : CacheState) (sPathRel : Bytes) (disk : Disk) : CacheState :=
  { st with disk := Function.update st.disk sPathRel disk }

end CacheState

/-- What happens outside of `Inject`: the item that `Create` returns, if the old file was moved out of
the way for it, and the outcomes of the file operations. An item that nobody feeds has no open
file. -/
structure InjectIo where
  item : Option FileItem := some {}
  moved : Bool := false
  store : StoreIo := {}
  head : HeadIo := .stored
  closed : ∀ fi ∈ item, fi.status ≤ .inited → fi.filefd = none := by simp

/-- The part of `Inject` that plays the downloader. -/
def FileItem.inject (lib : DateLib) (io : InjectIo) (fi : FileItem) (data : Bytes) (contLen : Int)
    (lastModified : HttpDate) (forceOrig : Option Bytes) : Bool × FileItem :=
  let fi := fi.setup
  if fi.status > .inited then (false, fi)
  else
    let started := fi.dlStarted lib 0 lastModified (forceOrig.getD fi.responseOrigin)
      ⟨200, lit "OK"⟩ 0 contLen
    if !started.1 then started
    else
      let added := started.2.dlAddData data io.store
      if !added.1 then added
      else
        let fi := if (data.length : Int) = contLen then added.2.dlFinish true io.head else added.2
        (fi.status == .complete, fi)

/-- `cacheman::Inject` with the file that is read. -/
def CacheState.injectFile (lib : DateLib) (io : InjectIo) (st : CacheState) (file : Option Bytes)
    (toRel : Bytes) (bSetIfileFlags : Bool) (contLen : Int) (lastModified : HttpDate)
    (forceOrig : Option Bytes) : Bool × CacheState :=
  if (st.flags toRel).uptodate then (true, st)
  else
    match file with
    | none => (false, st)
    | some data =>
      -- incomplete might be ok, too large is just wrong
      if 0 ≤ contLen && contLen < data.length then (false, st)
      else
        match io.item with
        | none => (false, st)
        | some fi =>
          let disk := if io.moved then { st.disk toRel with file := none } else st.disk toRel
          let r := FileItem.inject lib io { fi with disk } data
            (if contLen < 0 then data.length else contLen) lastModified forceOrig
          let st := st.setDisk toRel r.2.disk
          if r.1 && bSetIfileFlags then
            (true, st.setFlags toRel (fun atts => { atts with uptodate := true, vfile_ondisk := true }))
          else (r.1, st)

/-- `cacheman::Inject` from another path in the cache. -/
def CacheState.inject (lib : DateLib) (io : InjectIo) (st : CacheState) (fromRel toRel : Bytes)
    (bSetIfileFlags : Bool) (contLen : Int) (lastModified : HttpDate) (forceOrig : Option Bytes) :
    Bool × CacheState :=
  st.injectFile lib io (st.disk fromRel).file toRel bSetIfileFlags contLen lastModified forceOrig

namespace Fingerprint

/-- `CheckFile` with the checksums of the library. -/
def checkFile (hash : CsType → Bytes → Bytes) (self : Fingerprint) (file : Option Bytes) : Bool :=
  file.any (fun data => (data.length : Int) == self.size && hash self.csType data == self.csum)

end Fingerprint

end Acng
