import Acng.Lib.OrdMap
import Acng.Patch

namespace Acng
open Lib

/-- `m_metaFilesRel`. -/
structure MetaFiles where
  entries : List (Bytes × IfileAttribs)
  sorted : OrdMap.Sorted bytesLt entries

namespace MetaFiles

/-- `find`. -/
def find? (m : MetaFiles) (sPathRel : Bytes) : Option IfileAttribs := m.entries.lookup sPathRel

/-- `GetFlags`. -/
def getFlags (m : MetaFiles) (sPathRel : Bytes) : IfileAttribs := (m.find? sPathRel).getD {}

/-- `SetFlags`. -/
def setFlags (m : MetaFiles) (sPathRel : Bytes) (change : IfileAttribs → IfileAttribs) : MetaFiles :=
  if sPathRel.isEmpty then m
  else
    { entries := OrdMap.insert bytesLt sPathRel (change (m.getFlags sPathRel)) m.entries
      sorted := OrdMap.sorted_insert _ _ m.sorted }

end MetaFiles

/-- What `GetGoodReleaseFiles` has in hand: the file found for each directory and the descriptors. -/
structure GoodReleases where
  t : List (Bytes × Bytes) := []
  files : MetaFiles

namespace GoodReleases

def ignore (path : Bytes) (st : GoodReleases) : GoodReleases :=
  { st with files := st.files.setFlags path (fun f => { f with parseignore := true }) }

def keep (dir fn : Bytes) (st : GoodReleases) : GoodReleases :=
  { st with t := OrdMap.insert bytesLt dir fn st.t }

/-- One round of the loop over `m_metaFilesRel`. -/
def round (st : GoodReleases) (path : Bytes) : GoodReleases :=
  let inr := inRelKey.isSuffixOf path
  if !inr && !relKey.isSuffixOf path then st
  else if !(st.files.getFlags path).vfile_ondisk then st
  else
    let df := splitDirPath path
    let fn := (st.t.lookup df.1).getD []
    if inr then (if fn.isEmpty then st else st.ignore path).keep df.1 df.2
    else if fn.isEmpty then st.keep df.1 df.2
    else st.ignore path

end GoodReleases

/-- `GetGoodReleaseFiles`. -/
def MetaFiles.getGoodReleaseFiles (m : MetaFiles) : List Bytes × MetaFiles :=
  let st := (m.entries.map Prod.fst).foldl GoodReleases.round { files := m }
  (st.t.map (fun kv => kv.1 ++ kv.2), st.files)

end Acng
