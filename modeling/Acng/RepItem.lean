import Acng.Lib.Bytes

namespace Acng
open Lib

/-- Marks the lines of a task's output that are for the caller. -/
def maark : Bytes := lit "41d_a6aeb8-26dfa"

/-- The bytes that tell the two types of control lines. -/
structure ControLineType where
  beforeError : UInt8
  error : UInt8
  distinct : beforeError ≠ error

namespace ControLineType

/-- The values of the enumeration. `DlAddData` compares the byte behind the key with them. -/
def value : ControLineType := ⟨1, 2, by decide⟩

/-- What the tasks write behind the key: these values as `int`. -/
def written : ControLineType := ⟨49, 50, by decide⟩

end ControLineType

/-- `tRepItem`. The strings of `cerr` are lines. -/
structure RepItem where
  prevRest : Bytes := []
  warningCollector : List Bytes := []
  cerr : List Bytes := []
deriving DecidableEq, Repr

/-- The ways through the loop of `DlAddData`. -/
inductive RepRound
  | returned (item : RepItem)
  | again (item : RepItem) (input : Bytes)
  | outside

namespace RepItem

/-- What is done with a message. -/
def report (item : RepItem) (types : ControLineType) (msgType : UInt8) (msg : Bytes) : RepItem :=
  if msgType = types.beforeError then
    { item with warningCollector := item.warningCollector ++ [msg] }
  else if msgType = types.error then { item with cerr := item.cerr ++ item.warningCollector ++ [msg] }
  else item

/-- The loop of `DlAddData` once. A newline directly behind the key gives a message whose length is
below zero. -/
def round (item : RepItem) (input : Bytes) : RepRound :=
  match find maark input with
  | none =>
    match rfind 10 input with
    | some pos => .returned { item with prevRest := input.drop (pos + 1) }
    | none => .returned item
  | some pos =>
    let input := input.drop pos
    match input.idxOf? 10 with
    | none => .returned { item with prevRest := input }
    | some nEnd =>
      match (input.take nEnd).drop maark.length with
      | [] => .outside
      | msgType :: msg =>
        let input := input.drop msg.length
        if msg.isEmpty then .again item input else .again (item.report .value msgType msg) input

/-- So many rounds of the loop at most. Without a result it has not returned. -/
def loop : Nat → RepItem → Bytes → Option RepItem
  | 0, _, _ => none
  | fuel + 1, item, input =>
    match item.round input with
    | .returned item => some item
    | .again item input => loop fuel item input
    | .outside => none

def dlAddData (fuel : Nat) (item : RepItem) (chunk : Bytes) : Option RepItem :=
  if !item.prevRest.isEmpty then
    loop fuel { item with prevRest := item.prevRest ++ chunk } (item.prevRest ++ chunk)
  else loop fuel item chunk

/-- One call for each piece. -/
def dlAddDataAll (fuel : Nat) (item : RepItem) : List Bytes → Option RepItem
  | [] => some item
  | chunk :: chunks => (item.dlAddData fuel chunk).bind (fun item => item.dlAddDataAll fuel chunks)

end RepItem

/-- The complete lines of a text, and what is behind them. -/
def completeLines (s : Bytes) : List Bytes × Bytes := ((s.splitOn 10).dropLast, (s.splitOn 10).getLastD [])

/-- The type and the text of a line with a key. -/
def controlLine (line : Bytes) : Option (UInt8 × Bytes) :=
  (find maark line).bind fun pos =>
    match line.drop (pos + maark.length) with
    | [] => none
    | msgType :: text => some (msgType, text)

/-- What a control line says. -/
inductive ControlMessage
  | warning (text : Bytes)
  | error (text : Bytes)
deriving DecidableEq, Repr

def ControLineType.message (types : ControLineType) (line : Bytes) : Option ControlMessage :=
  (controlLine line).bind fun (msgType, text) =>
    if msgType = types.beforeError then some (.warning text)
    else if msgType = types.error then some (.error text)
    else none

/-- A warning waits for the next error. -/
def RepItem.tell (item : RepItem) : ControlMessage → RepItem
  | .warning text => { item with warningCollector := item.warningCollector ++ [text] }
  | .error text => { item with cerr := item.cerr ++ item.warningCollector ++ [text] }

/-- The warnings that wait and the lines that are written to `cerr` for the control lines of a stream. -/
def controlReport (types : ControLineType) (stream : Bytes) : List Bytes × List Bytes :=
  let item := ((completeLines stream).1.filterMap types.message).foldl RepItem.tell {}
  (item.warningCollector, item.cerr)

end Acng
