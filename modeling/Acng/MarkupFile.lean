import Acng.Lib.Mapped

namespace Acng
open Lib

/-- What a table tells: the value of a property, and for a condition 0 (yes), more (no), or less than it
(there is none of this name). -/
structure MarkupTable where
  prop : Bytes → Bytes
  checkCondition : Bytes → Int

/-- What was sent, and the end of what was read. -/
structure MarkupSent where
  chunks : List Bytes := []
  reach : Nat := 0
deriving DecidableEq

namespace MarkupSent

def touch (sent : MarkupSent) (upto : Nat) : MarkupSent := { sent with reach := max sent.reach upto }

/-- `memchr`, which looks no further than to what it finds. -/
def search (m : Mapped) (c : UInt8) (p len : Nat) (sent : MarkupSent) : Option Nat × MarkupSent :=
  match m.memchr c p len with
  | some i => (some i, sent.touch (i + 1))
  | none => (none, sent.touch (p + len))

def sendChunk (m : Mapped) (p len : Nat) (sent : MarkupSent) : MarkupSent where
  chunks := sent.chunks ++ [m.string p len]
  reach := if len = 0 then sent.reach else max sent.reach (p + len)

def sendProp (tab : MarkupTable) (key : Bytes) (sent : MarkupSent) : MarkupSent :=
  { sent with chunks := sent.chunks ++ [tab.prop key] }

def sendIfElse (tab : MarkupTable) (m : Mapped) (pszBeginSep pszEnd : Nat) (sent : MarkupSent) : MarkupSent :=
  let sep := m.get pszBeginSep
  let key := pszBeginSep + 1
  match (sent.touch key).search m sep key (pszEnd - key) with
  | (none, sent) => sent
  | (some valYes, sent) =>
    let sel := tab.checkCondition (m.string key (valYes - key))
    if sel < 0 then sent
    else
      match sent.search m sep (valYes + 1) (pszEnd - (valYes + 1)) with
      | (none, sent) => sent
      | (some valNo, sent) =>
        if sel = 0 then sent.sendChunk m (valYes + 1) (valNo - (valYes + 1))
        else sent.sendChunk m (valNo + 1) (pszEnd - valNo - 1)

/-- Behind the two characters that start a key, with the loop that goes on. If the key is unclosed, the rest is sent
with its length from before. -/
def key (tab : MarkupTable) (m : Mapped) (next : Nat → MarkupSent → Option MarkupSent) (propStart restlen : Nat)
    (sent : MarkupSent) : Option MarkupSent :=
  match sent.search m 125 (propStart + 2) (m.text.length - propStart + 2) with
  | (none, sent) => some (sent.sendChunk m propStart restlen)
  | (some propEnd, sent) =>
    next (propEnd + 1)
      (if propStart + 6 < propEnd ∧ m.get (propStart + 2) = 58 then sent.sendIfElse tab m (propStart + 3) propEnd
      else sent.sendProp tab (m.string (propStart + 2) (propEnd - propStart - 2)))

/-- The loop of `tMarkupFileSend::Run`, for so many rounds at most. -/
def run (tab : MarkupTable) (m : Mapped) : Nat → Nat → MarkupSent → Option MarkupSent
  | 0, _, _ => none
  | rounds + 1, pr, sent =>
    let pend := m.text.length
    if pr < pend then
      let restlen := pend - pr
      match sent.search m 36 pr restlen with
      | (none, sent) => some (sent.sendChunk m pr restlen)
      | (some propStart, sent) =>
        let sent := if propStart + 1 < pend then sent.touch (propStart + 2) else sent
        if propStart + 1 < pend ∧ m.get (propStart + 1) = 123 then
          key tab m (run tab m rounds) propStart restlen (sent.sendChunk m pr (propStart - pr))
        else run tab m rounds (propStart + 1) (sent.sendChunk m pr (propStart + 1 - pr))
    else some sent

end MarkupSent

/-! The expansion that a template stands for. -/
namespace MarkupTable

variable (tab : MarkupTable)

/-- `sep cond sep yes sep no`, without the first separator. What lacks a part says nothing. -/
def branch (sep : UInt8) (body : Bytes) : Bytes :=
  match body.dropWhile (· != sep) with
  | [] => []
  | _ :: branches =>
    match branches.dropWhile (· != sep) with
    | [] => []
    | _ :: no =>
      let sel := tab.checkCondition (body.takeWhile (· != sep))
      if sel < 0 then [] else if sel = 0 then branches.takeWhile (· != sep) else no

/-- What stands for the text between the braces. A colon and four characters or more make a condition. -/
def replacement : Bytes → Bytes
  | [] => tab.prop []
  | c :: key =>
    match key with
    | [] => tab.prop [c]
    | sep :: body => if c = 58 ∧ 3 ≤ body.length then tab.branch sep body else tab.prop (c :: sep :: body)

def expand : Bytes → Bytes
  | [] => []
  | c :: s =>
    if c = 36 ∧ s.head? = some 123 then
      if 125 ∈ s.tail then
        tab.replacement (s.tail.takeWhile (· != 125)) ++ expand (s.tail.dropWhile (· != 125)).tail
      else c :: s
    else c :: expand s
termination_by s => s.length
decreasing_by
  · have hle := (List.dropWhile_suffix (l := s.tail) (· != 125)).length_le
    rw [List.length_tail] at hle
    rw [List.length_tail, List.length_cons]
    omega
  · exact Nat.lt_succ_self _

end MarkupTable

end Acng
