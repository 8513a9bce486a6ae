import Acng.DlJob
import Acng.HeadStorage

namespace Acng
open Lib

namespace FileItem

/-- An item as its constructor leaves it, with the data file that is at its path. -/
def created (sPathRel : Bytes) (spattr : SpecialPurposeAttr) (file : Option Bytes) : FileItem :=
  { sPathRel, spattr, disk := { file } }

/-- `Setup` behind a good head. -/
def adoptHead (fi : FileItem) : FileItem :=
  -- report this for all good loading
  let fi := { fi with responseStatus := ⟨200, lit "OK"⟩ }
  if fi.isVolatile then fi
  else if fi.spattr.bHeadOnly then { fi with status := .dlGotHead }
  else if 0 ≤ fi.nContentLength then
    -- file larger than it could ever be?
    if fi.nContentLength < fi.nSizeCachedInitial then fi.errorClean
    else if fi.nSizeCachedInitial = fi.nContentLength then
      { fi with nSizeChecked := fi.nSizeCachedInitial, status := .complete }
    else { fi with spattr := { fi.spattr with bVolatile := true } }
  else { fi with spattr := { fi.spattr with bVolatile := true } }

/-- `fileitem_with_storage::Setup` on the contents of the head file. There is no result if the
reading of that file does not end. -/
def setupBy (lib : DateLib) (fi : FileItem) (head : Option Bytes) (io : ReadIo) : Option FileItem :=
  if fi.status > .fresh then some fi
  else
    let fi := { fi with status := .inited, nSizeCachedInitial := fileSize fi.disk, nSizeChecked := -1 }
    (Acng.parseHeadFromStorage lib ⟨fi.nContentLength, fi.responseModDate, fi.responseOrigin⟩ {} head io).map
      fun (ok, v) =>
        let fi := { fi with
          nContentLength := v.contLen, responseModDate := v.lastModified, responseOrigin := v.origSrc }
        if ok then fi.adoptHead else fi.errorClean

end FileItem

end Acng
