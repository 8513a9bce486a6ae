import Acng.Prepare

namespace Acng
open Lib

/-- `_FixPostPreSlashes`. -/
def fixPostPreSlashes (val : Bytes) : Bytes :=
  let val := if val.getLast? ≠ some 47 then val ++ [47] else val
  if val.head? ≠ some 47 then 47 :: val else val

theorem fixPostPreSlashes_front (val : Bytes) : (fixPostPreSlashes val).head? = some 47 := by
  unfold fixPostPreSlashes
  simp only
  generalize (if val.getLast? ≠ some 47 then val ++ [47] else val) = v
  split
  · rfl
  · rename_i hfront
    exact not_not.mp hfront

theorem fixPostPreSlashes_back (val : Bytes) : (fixPostPreSlashes val).getLast? = some 47 := by
  have hback : (if val.getLast? ≠ some 47 then val ++ [47] else val).getLast? = some 47 := by
    split
    · exact List.getLast?_concat
    · rename_i hback
      exact not_not.mp hback
  unfold fixPostPreSlashes
  simp only
  generalize (if val.getLast? ≠ some 47 then val ++ [47] else val) = v at hback ⊢
  split
  · rw [List.getLast?_cons, hback]
    rfl
  · exact hback

/-- One mapping of the configuration: the URL gives its host, its port and its path. -/
structure Mapping where
  url : HttpUrl
  repName : Bytes
deriving DecidableEq, Repr

namespace Mapping

/-- The rule that is stored for it. -/
def rule (m : Mapping) : Remap where
  path := fixPostPreSlashes m.url.sPath
  repName := m.repName
  front := fixPostPreSlashes_front _
  back := fixPostPreSlashes_back _

/-- A URL of the configuration, with the repository that it is for. -/
def ofToken (token repname : Bytes) : Option Mapping :=
  (HttpUrl.setHttpUrl token true).map (fun url => ⟨url, repname⟩)

end Mapping

/-- `mapUrl2pVname[url.GetHostPortKey()].emplace_back`. -/
def addMapping (mapUrl2pVname : Bytes → List Remap) (m : Mapping) : Bytes → List Remap :=
  fun key => if key = hostPortKey m.url then mapUrl2pVname key ++ [m.rule] else mapUrl2pVname key

/-- `AddRemapInfo` for a URL that is no backend. Without a result the program ends there. -/
def addRemapInfo (mapUrl2pVname : Bytes → List Remap) (token repname : Bytes) :
    Option (Bytes → List Remap) :=
  (Mapping.ofToken token repname).map (addMapping mapUrl2pVname)

/-- The map after all mappings have been read. -/
def mapOf (ms : List Mapping) : Bytes → List Remap := ms.foldl addMapping (fun _ => [])

end Acng
