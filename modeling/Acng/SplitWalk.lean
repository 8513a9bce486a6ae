import Acng.Trim

namespace Acng
open Lib

/-- The parameters of the template `tSplitWalkBase`. -/
structure SplitMode where
  stringSeparator : Bool
  strictDelimiter : Bool
deriving DecidableEq, Repr

/-- `tSplitWalkBase`, but for its separators. -/
structure SplitWalk where
  m_input : Bytes
  m_slice_len : Nat := 0
  m_first : Bool := true
deriving DecidableEq, Repr

namespace SplitWalk

/-- `while(startsWith(m_input, m_seps))`. An empty string would be there for ever; nobody passes one. -/
def skipSeps (m_seps s : Bytes) : Bytes :=
  if _h : m_seps ≠ [] ∧ m_seps.isPrefixOf s = true then skipSeps m_seps (s.drop m_seps.length) else s
termination_by s.length
decreasing_by
  have hpos := List.length_pos_iff.mpr _h.1
  have hle := (List.isPrefixOf_iff_prefix.mp _h.2).length_le
  rw [List.length_drop]
  omega

/-- `find` for a string, `find_first_of` for characters. -/
def findSep (mode : SplitMode) (m_seps m_input : Bytes) : Option Nat :=
  if mode.stringSeparator then find m_seps m_input else m_input.findIdx? m_seps.contains

/-- `m_input` behind the last slice, without what is dropped in front of the next one. -/
def advance (mode : SplitMode) (m_seps : Bytes) (m_first : Bool) (m_input : Bytes) : Bytes :=
  if mode.strictDelimiter then
    if m_first then m_input else m_input.drop (if mode.stringSeparator then m_seps.length else 1)
  else if mode.stringSeparator then skipSeps m_seps m_input
  else StringView.trimFront m_input m_seps

def next (mode : SplitMode) (m_seps : Bytes) (w : SplitWalk) : Bool × SplitWalk :=
  if w.m_input.length = w.m_slice_len then (false, w)
  else
    let m_input := advance mode m_seps w.m_first (w.m_input.drop w.m_slice_len)
    if !mode.strictDelimiter && m_input.isEmpty then (false, { w with m_input })
    else
      (true, {
        m_input
        m_slice_len := (findSep mode m_seps m_input).getD m_input.length
        m_first := w.m_first && !mode.strictDelimiter })

def view (w : SplitWalk) : Bytes := w.m_input.take w.m_slice_len

/-- The slices, with so many calls of `Next` at most until it returns false. -/
def iterate (mode : SplitMode) (m_seps : Bytes) : Nat → SplitWalk → Option (List Bytes)
  | 0, _ => none
  | calls + 1, w =>
    match w.next mode m_seps with
    | (false, _) => some []
    | (true, w) => (iterate mode m_seps calls w).map (w.view :: ·)

end SplitWalk

end Acng
