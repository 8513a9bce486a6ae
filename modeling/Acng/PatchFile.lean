import Acng.PatchChunk

namespace Acng
open Lib

/-- The lines that `strchr` finds one after the other, each with its newline, and what is left behind
them. A NUL ends the search. -/
def strchrLines : Bytes → List Bytes × Bytes
  | [] => ([], [])
  | c :: s =>
    if c = 10 then ([10] :: (strchrLines s).1, (strchrLines s).2)
    else if c = 0 then ([], c :: s)
    else
      match strchrLines s with
      | ([], rest) => ([], c :: rest)
      | (line :: lines, rest) => ((c :: line) :: lines, rest)

/-- The last search stays in the file as it is mapped: there are zeros up to the end of its last
page. -/
def strchrEnds (pageSize : Nat) (buf rest : Bytes) : Bool :=
  rest.contains 0 || buf.length % pageSize != 0

/-- How `patch_file` ends: with the text that it writes, at a command that is bad, or with an access
outside of its memory. -/
inductive PatchEnd
  | written (text : Bytes)
  | badLine
  | fault
deriving DecidableEq, Repr

/-- The variables of the loop over the script. There is a command if its length is not zero. -/
structure PatchRun where
  lines : PatchSequence Bytes
  chunk : List Bytes := []
  patchCmd : Option Bytes := none
  patchCmdLen : Nat := 0

namespace PatchRun

/-- The end of a hunk. -/
def finishHunk (run : PatchRun) : Except PatchEnd PatchRun :=
  match run.patchCmd with
  | none => .error .fault
  | some patchCmd =>
    match run.lines.patchChunk patchCmd run.chunk with
    | none => .error .fault
    | some (false, _) => .error .badLine
    | some (true, lines) => .ok { run with lines, chunk := [], patchCmdLen := 0 }

/-- The loop for one line of the script, with the text behind it. -/
def round (run : PatchRun) (line rest : Bytes) : Except PatchEnd PatchRun :=
  if line.length = 2 && line.head? == some 46 then run.finishHunk
  else if run.patchCmdLen ≠ 0 then .ok { run with chunk := run.chunk ++ [line] }
  else if (lit "s/.//\n").isPrefixOf (line ++ rest) then
    -- the fix for the last line
    if run.lines.rangeStart = 0 then .ok run
    else
      match PatchSequence.assign run.lines.idx run.lines.rangeStart (lit ".\n") with
      | none => .error .fault
      | some idx => .ok { run with lines := { run.lines with idx } }
  else if line.head? == some 119 then .ok run
  else
    let run := { run with patchCmd := some (line ++ rest), patchCmdLen := line.length }
    if 2 < line.length && (line)[line.length - 2]? == some 100 then run.finishHunk else .ok run

def rounds (run : PatchRun) (rest : Bytes) : List Bytes → Except PatchEnd PatchRun
  | [] => .ok run
  | line :: lines =>
    match run.round line (lines.flatten ++ rest) with
    | .error fin => .error fin
    | .ok run => run.rounds rest lines

end PatchRun

/-- `patch_file` on files that can be opened. Behind a line of the script without a newline it goes on
at the address one. -/
def patchFile (pageSize : Nat) (base script : Bytes) : PatchEnd :=
  let (lines, last) := strchrLines base
  if last ≠ [] && !strchrEnds pageSize base last then .fault
  else
    let lines := [] :: (lines ++ if last = [] then [] else [last])
    let (hunks, rest) := strchrLines script
    match ({ lines := { idx := lines } } : PatchRun).rounds rest hunks with
    | .error fin => fin
    | .ok run =>
      if rest = [] then .written run.lines.idx.flatten
      else if !strchrEnds pageSize script rest then .fault
      else
        match run.round rest [] with
        | .error fin => fin
        | .ok _ => .fault

/-- A line of a text, without its newline. -/
structure TextLine where
  text : Bytes
  plain : ∀ c ∈ text, c ≠ 10 ∧ c ≠ 0

namespace TextLine

def bytes (line : TextLine) : Bytes := line.text ++ [10]

def dot : TextLine := ⟨lit ".", by decide +kernel⟩

def dots : TextLine := ⟨lit "..", by decide +kernel⟩

def isDot (line : TextLine) : Bool := line.text == lit "."

/-- The line without its first character. -/
def tail (line : TextLine) : TextLine := ⟨line.text.tail, fun c hc => line.plain c (List.mem_of_mem_tail hc)⟩

end TextLine

/-- A text file. What is behind its last newline is not empty if it is there. -/
structure TextFile where
  lines : List TextLine
  last : Option { line : TextLine // line.text ≠ [] }

namespace TextFile

def bytes (file : TextFile) : Bytes :=
  file.lines.flatMap TextLine.bytes ++ file.last.elim [] (fun last => last.1.text)

/-- The lines as ed reads them: it ends the last one. -/
def edLines (file : TextFile) : List TextLine := file.lines ++ file.last.elim [] (fun last => [last.1])

end TextFile

def EdCommand.map (f : α → β) : EdCommand α → EdCommand β
  | append after payload => append after (payload.map f)
  | change first last payload => change first last (payload.map f)
  | delete first last => delete first last

/-- What a script of diff is made of. The command `a` may do without an address. -/
inductive EdItem
  | command (cmd : EdCommand TextLine)
  | appendHere (payload : List TextLine)
  | undot
  | write

/-- The buffer of ed and the number of its current line. -/
structure EdBuffer where
  lines : List TextLine
  current : Nat

/-- The lines of ed's input up to the one that ends it. -/
def inputLines (payload : List TextLine) : List Bytes := payload.map TextLine.bytes ++ [lit ".\n"]

def EdItem.text : EdItem → List Bytes
  | .command (.delete first last) => [(EdCommand.delete first last : EdCommand TextLine).text ++ [10]]
  | .command cmd => (cmd.text ++ [10]) :: inputLines cmd.payload
  | .appendHere payload => lit "a\n" :: inputLines payload
  | .undot => [lit "s/.//\n"]
  | .write => [lit "w\n"]

namespace EdBuffer

def step (st : EdBuffer) : EdItem → EdBuffer
  | .command cmd =>
    { lines := cmd.result st.lines
      current := if cmd.appends then cmd.last + cmd.payload.length else cmd.first - 1 + cmd.payload.length }
  | .appendHere payload =>
    { lines := st.lines.take st.current ++ payload ++ st.lines.drop st.current
      current := st.current + payload.length }
  | .undot => { st with lines := st.lines.modify (st.current - 1) TextLine.tail }
  | .write => st

end EdBuffer

/-- `print_ed_hunk` of diff from a command on. A line that is a lone dot would end the input, so that it gets
a second dot, which is taken away behind the end of the input. -/
def insertItems (start : List TextLine → EdItem) (front : List TextLine) : List TextLine → List EdItem
  | [] => [start front]
  | line :: payload =>
    if line.isDot then
      start (front ++ [.dots]) :: .undot ::
        if payload.isEmpty then [] else insertItems .appendHere [] payload
    else insertItems start (front ++ [line]) payload

/-- A hunk of a script, its lines as they are. -/
def EdCommand.items : EdCommand TextLine → List EdItem
  | append after payload => insertItems (fun payload => .command (append after payload)) [] payload
  | change first last payload => insertItems (fun payload => .command (change first last payload)) [] payload
  | delete first last => [.command (delete first last)]

/-- The lines below a command that it does not touch. -/
def EdCommand.below (cmd : EdCommand α) : Nat := if cmd.appends then cmd.first else cmd.first - 1

/-- The commands go from the end of a text to its beginning. -/
def Descending : Nat → List (EdCommand α) → Prop
  | _, [] => True
  | n, cmd :: hunks => cmd.Valid n ∧ Descending cmd.below hunks

/-- A script of diff. There may be a `w` at its end, and its last newline may be missing. -/
structure EdScript where
  hunks : List (EdCommand TextLine)
  write : Bool
  newline : Bool

namespace EdScript

def items (script : EdScript) : List EdItem :=
  script.hunks.flatMap EdCommand.items ++ if script.write then [.write] else []

def text (script : EdScript) : Bytes :=
  let text := (script.items.flatMap EdItem.text).flatten
  if script.newline then text else text.dropLast

/-- The text that ed writes. -/
def result (script : EdScript) (base : TextFile) : Bytes :=
  (script.items.foldl EdBuffer.step ⟨base.edLines, base.edLines.length⟩).lines.flatMap TextLine.bytes

end EdScript

end Acng
