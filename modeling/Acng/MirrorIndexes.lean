import Acng.Deleter
import Acng.Lib.Restart

namespace Acng
open Lib

def sfxXzBz2GzLzmaNone : List Bytes := sfxXzBz2GzLzma ++ [[]]

/-- The suffix of a path, which is empty if it is none of the others. -/
def mySuffix (mine : Bytes) : Bytes := (sfxXzBz2GzLzmaNone.find? (·.isSuffixOf mine)).getD []

def myBase (mine : Bytes) : Bytes := mine.take (mine.length - (mySuffix mine).length)

/-- One brother is erased: how many were so far, and the set. -/
def delBro (mine : Bytes) (found : Nat × List Bytes) (suf : Bytes) : Nat × List Bytes :=
  if suf = mySuffix mine then found
  else if myBase mine ++ suf ∈ found.2 then (found.1 + 1, found.2.erase (myBase mine ++ suf))
  else found

/-- `delBros`: how many were deleted, and the set. -/
def delBros (srcs : List Bytes) (mine : Bytes) : Nat × List Bytes := sfxXzBz2GzLzmaNone.foldl (delBro mine) (0, srcs)

/-- The set without the brothers of the first path that is chosen and has some. -/
def delBrosOf (chosen : Bytes → Bool) (srcs : List Bytes) : Option (List Bytes) :=
  srcs.findSome? fun src =>
    if chosen src && (delBros srcs src).1 != 0 then some (delBros srcs src).2 else none

/-- What happens between two labels `restart_clean`. -/
def clean (uptodate : Bytes → Bool) (srcs : List Bytes) : Option (List Bytes) := delBrosOf uptodate srcs

/-- What happens between two labels `restart_clean2`. -/
def clean2 (srcs : List Bytes) : Option (List Bytes) :=
  sfxXzBz2GzLzma.findSome? fun s => delBrosOf (fun src => s.isSuffixOf src) srcs

/-- The index files that a mirror job works on, with so many restarts at most. The set is a list without duplicates,
in any order. -/
def stripVariants (uptodate : Bytes → Bool) (scans : Nat) (srcs : List Bytes) : Option (List Bytes) :=
  (restart (clean uptodate) scans srcs).bind (restart clean2 scans)

end Acng
