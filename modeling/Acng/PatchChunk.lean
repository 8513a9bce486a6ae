import Acng.FileReader

namespace Acng
open Lib

/-- The lines with the dummy entry in front, and the two numbers that are global in the source: they
are needed for the last line that was changed. -/
structure PatchSequence (α : Type) where
  idx : List α
  rangeStart : Nat := 0
  rangeLast : Nat := 0
deriving DecidableEq, Repr

namespace PatchSequence

variable {α : Type}

/-- `deque::insert` in front of a place. Without a result the place is behind the end. -/
def insertAt (idx : List α) (pos : Nat) (lines : List α) : Option (List α) :=
  if pos ≤ idx.length then some (idx.take pos ++ lines ++ idx.drop pos) else none

/-- `deque::erase` of the places from the first up to the last one, which stays. -/
def eraseRange (idx : List α) (first last : Nat) : Option (List α) :=
  if first ≤ last ∧ last ≤ idx.length then some (idx.take first ++ idx.drop last) else none

/-- `idx[pos] = line`. -/
def assign (idx : List α) (pos : Nat) (line : α) : Option (List α) :=
  if pos < idx.length then some (idx.set pos line) else none

/-- The loop that replaces lines in place: the lines, the number that it got to and the payload
that is left. -/
def replaceLoop (rangeLast : Nat) : List α → Nat → List α → Option (List α × Nat × List α)
  | idx, rangeStart, [] => some (idx, rangeStart, [])
  | idx, rangeStart, line :: diffPayload =>
    if rangeStart ≤ rangeLast then
      match assign idx rangeStart line with
      | none => none
      | some idx => replaceLoop rangeLast idx (rangeStart + 1) diffPayload
    else some (idx, rangeStart, line :: diffPayload)

/-- The second part of `patchChunk`, where the numbers have been accepted. -/
def applyChunk (st : PatchSequence α) (append : Bool) (diffPayload : List α) :
    Option (PatchSequence α) :=
  if append then
    (insertAt st.idx (st.rangeStart + 1) diffPayload).map (fun idx => { st with idx })
  else
    match replaceLoop st.rangeLast st.idx st.rangeStart diffPayload with
    | none => none
    | some (idx, rangeStart, rest) =>
      if !rest.isEmpty then
        (insertAt idx rangeStart rest).map (fun idx => { st with idx, rangeStart })
      else if (rangeStart + (2 ^ 64 - 1)) % 2 ^ 64 ≠ st.rangeLast then
        (eraseRange idx rangeStart (st.rangeLast + 1)).map
          (fun idx => { st with idx, rangeStart })
      else some { st with idx, rangeStart }

/-- The numbers of a command line and whether it appends, or with the number that was read until
then the command that is not known. `strtoul` is `strtoull` here. -/
def parseCommand (st : PatchSequence α) (pline : Bytes) : Bool × PatchSequence α × Bool :=
  let (n, pEnd) := strtoull pline
  if pEnd = cstr pline then (false, st, false)
  else
    let st := { st with rangeStart := n }
    match pEnd with
    | 44 :: pline =>
      let (n, pEnd) := strtoull pline
      if pEnd = cstr pline || (pEnd.head? ≠ some 99 && pEnd.head? ≠ some 100) then (false, st, false)
      else (true, { st with rangeLast := n }, false)
    | 97 :: _ => (true, { st with rangeLast := n }, true)
    | 99 :: _ | 100 :: _ => (true, { st with rangeLast := n }, false)
    | _ => (false, st, false)

/-- `patchChunk`, with its result. Without one an entry was touched that is not in the list. -/
def patchChunk (st : PatchSequence α) (pline : Bytes) (diffPayload : List α) :
    Option (Bool × PatchSequence α) :=
  match st.parseCommand pline with
  | (false, st, _) => some (false, st)
  | (true, st, append) =>
    if st.rangeStart > st.idx.length ∨ st.rangeLast > st.idx.length ∨ st.rangeStart > st.rangeLast
    then some (false, st)
    else (st.applyChunk append diffPayload).map (fun st => (true, st))

end PatchSequence

/-- A line number as it is written. -/
structure LineNumber where
  digits : Bytes
  some_digit : digits ≠ []
  all_digits : ∀ d ∈ digits, isdigit d = true

namespace LineNumber

def value (n : LineNumber) : Nat := decimal n.digits

end LineNumber

/-- The commands of ed that a patch has, with their own lines. -/
inductive EdCommand (α : Type)
  | append (after : LineNumber) (payload : List α)
  | change (first : LineNumber) (last : Option LineNumber) (payload : List α)
  | delete (first : LineNumber) (last : Option LineNumber)

namespace EdCommand

variable {α : Type}

def rangeText (first : LineNumber) (last : Option LineNumber) : Bytes :=
  first.digits ++ last.elim [] (fun last => 44 :: last.digits)

/-- The command line. -/
def text : EdCommand α → Bytes
  | append after _ => after.digits ++ [97]
  | change first last _ => rangeText first last ++ [99]
  | delete first last => rangeText first last ++ [100]

def payload : EdCommand α → List α
  | append _ payload => payload
  | change _ _ payload => payload
  | delete _ _ => []

def first : EdCommand α → Nat
  | append after _ => after.value
  | change first _ _ | delete first _ => first.value

def last : EdCommand α → Nat
  | append after _ => after.value
  | change first last _ | delete first last => (last.getD first).value

def appends : EdCommand α → Bool
  | append _ _ => true
  | _ => false

/-- The addresses that ed accepts for so many lines. -/
def Valid (n : Nat) : EdCommand α → Prop
  | append after _ => after.value ≤ n
  | change first last _ | delete first last =>
    1 ≤ first.value ∧ first.value ≤ (last.getD first).value ∧ (last.getD first).value ≤ n

/-- What ed makes of the lines. -/
def result (lines : List α) : EdCommand α → List α
  | append after payload => lines.take after.value ++ payload ++ lines.drop after.value
  | change first last payload =>
    lines.take (first.value - 1) ++ payload ++ lines.drop (last.getD first).value
  | delete first last => lines.take (first.value - 1) ++ lines.drop (last.getD first).value

end EdCommand

end Acng
