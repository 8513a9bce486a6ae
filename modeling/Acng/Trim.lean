import Acng.HttpUrl

namespace Acng
open Lib

/-- `SPACECHARS`, the junk if no other is given. -/
def spaceChars : Bytes := [32, 12, 10, 13, 9, 11]

/-- `find_first_not_of`; `none` is `npos`. -/
def findFirstNotOf (junk s : Bytes) : Option Nat := s.findIdx? (fun c => !junk.contains c)

/-- `find_last_not_of`; `none` is `npos`. -/
def findLastNotOf (junk s : Bytes) : Option Nat := (findFirstNotOf junk s.reverse).map (s.length - 1 - ·)

/-! The trimmers of `std::string`. -/
namespace StdString

def trimFront (s junk : Bytes) : Bytes :=
  match findFirstNotOf junk s with
  | none => []
  | some pos => if 0 < pos then s.drop pos else s

def trimBack (s junk : Bytes) : Bytes :=
  match findLastNotOf junk s with
  | none => []
  | some pos => if 0 < pos then s.take (pos + 1) else s

def trimBoth (s junk : Bytes) : Bytes := trimFront (trimBack s junk) junk

end StdString

/-! The trimmers of `string_view`. -/
namespace StringView

def trimFront (s junk : Bytes) : Bytes := s.drop ((findFirstNotOf junk s).getD s.length)

def trimBack (s junk : Bytes) : Bytes :=
  s.take (s.length - match findLastNotOf junk s with
    | some pos => s.length - pos - 1
    | none => s.length)

def trimBoth (s junk : Bytes) : Bytes := trimFront (trimBack s junk) junk

end StringView

end Acng
