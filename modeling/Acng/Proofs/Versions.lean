import Acng.Lib.Scan
import Acng.Mirror

namespace Acng
open Lib Expiration

/-- Nothing in the version means anything to a shell. -/
def CleanVersion (ver : Bytes) : Prop := ∀ c ∈ ver, versionChar c = true

instance (ver : Bytes) : Decidable (CleanVersion ver) :=
  inferInstanceAs (Decidable (∀ c ∈ ver, versionChar c = true))

def VersionCompare.Clean (c : VersionCompare) : Prop := CleanVersion c.ver1 ∧ CleanVersion c.ver2

instance (c : VersionCompare) : Decidable c.Clean := inferInstanceAs (Decidable (_ ∧ _))

/-- `std::sort` compares elements of the range, and each of them if there is more than one. -/
structure VersionTools.Lawful (tools : VersionTools) : Prop where
  members : ∀ ids, ∀ pair ∈ (tools.sort ids).1, pair.1 ∈ ids ∧ pair.2 ∈ ids
  all : ∀ ids, 2 ≤ ids.length → ∀ id ∈ ids, ∃ other,
    (id, other) ∈ (tools.sort ids).1 ∨ (other, id) ∈ (tools.sort ids).1

def MirrorTools.Lawful (tools : MirrorTools) : Prop :=
  ∀ versions, ∀ pair ∈ tools.sortPairs versions, pair.1 ∈ versions ∧ pair.2 ∈ versions

namespace Expiration

variable {tools : VersionTools}

end Expiration

namespace PkgMirror

variable {tools : MirrorTools}

end PkgMirror

end Acng
