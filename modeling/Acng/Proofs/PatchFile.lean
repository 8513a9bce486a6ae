import Acng.PatchFile
import Acng.Proofs.PatchChunk

namespace Acng
open Lib

/-- A line with its newline and no other one. -/
def Terminated (line : Bytes) : Prop := ∃ l : TextLine, line = l.bytes

theorem terminated_append {s : Bytes} (h : ∀ c ∈ s, c ≠ 10 ∧ c ≠ 0) : Terminated (s ++ [10]) :=
  ⟨⟨s, h⟩, rfl⟩

theorem strchrLines_cons {c : UInt8} (hc : c ≠ 10 ∧ c ≠ 0) {s line : Bytes} {lines : List Bytes}
    (h : (strchrLines s).1 = line :: lines) :
    strchrLines (c :: s) = ((c :: line) :: lines, (strchrLines s).2) := by
  rw [strchrLines, if_neg hc.1, if_neg hc.2]
  cases hs : strchrLines s with
  | mk ls rest =>
    rw [hs] at h
    obtain rfl : ls = line :: lines := h
    rfl

theorem strchrLines_line {line : Bytes} (h : Terminated line) (s : Bytes) :
    strchrLines (line ++ s) = (line :: (strchrLines s).1, (strchrLines s).2) := by
  obtain ⟨⟨text, plain⟩, rfl⟩ := h
  change strchrLines (text ++ [10] ++ s) = _
  induction text with
  | nil => rfl
  | cons c text ih =>
    obtain ⟨hc, htext⟩ := List.forall_mem_cons.mp plain
    have hrest := ih htext
    rw [List.cons_append, List.cons_append, strchrLines_cons hc (congrArg Prod.fst hrest), hrest]
    rfl

theorem strchrLines_lines {lines : List Bytes} (h : ∀ line ∈ lines, Terminated line) (s : Bytes) :
    strchrLines (lines.flatten ++ s) = (lines ++ (strchrLines s).1, (strchrLines s).2) := by
  induction lines with
  | nil => rfl
  | cons line lines ih =>
    obtain ⟨hline, hlines⟩ := List.forall_mem_cons.mp h
    rw [List.flatten_cons, List.append_assoc, strchrLines_line hline, ih hlines]
    rfl

theorem strchrLines_plain {s : Bytes} (h : ∀ c ∈ s, c ≠ 10 ∧ c ≠ 0) : strchrLines s = ([], s) := by
  induction s with
  | nil => rfl
  | cons c s ih =>
    obtain ⟨hc, hs⟩ := List.forall_mem_cons.mp h
    rw [strchrLines, if_neg hc.1, if_neg hc.2, ih hs]

theorem strchrLines_all {lines : List Bytes} (h : ∀ line ∈ lines, Terminated line) :
    strchrLines lines.flatten = (lines, []) := by
  have := strchrLines_lines h []
  rwa [List.append_nil, strchrLines, List.append_nil] at this

/-- A line that may lack its newline. -/
def LineLike (line : Bytes) : Prop := Terminated line ∨ (10 : UInt8) ∉ line

theorem count_terminated {line : Bytes} (h : Terminated line) : line.count 10 = 1 := by
  obtain ⟨⟨text, plain⟩, rfl⟩ := h
  have hnone : text.count 10 = 0 := List.count_eq_zero.mpr (fun hmem => (plain 10 hmem).1 rfl)
  rw [TextLine.bytes, List.count_append, hnone]
  rfl

theorem count_lines {lines : List Bytes} (h : ∀ line ∈ lines, Terminated line) :
    lines.flatten.count 10 = lines.length := by
  induction lines with
  | nil => rfl
  | cons line lines ih =>
    obtain ⟨hline, hlines⟩ := List.forall_mem_cons.mp h
    rw [List.flatten_cons, List.count_append, count_terminated hline, ih hlines, List.length_cons,
      Nat.add_comm]

theorem count_lineLike {lines : List Bytes} (h : ∀ line ∈ lines, LineLike line) :
    lines.flatten.count 10 ≤ lines.length ∧
      (lines.flatten.count 10 = lines.length → ∀ line ∈ lines, Terminated line) := by
  induction lines with
  | nil => exact ⟨Nat.le_refl _, fun _ line hmem => absurd hmem (by simp)⟩
  | cons line lines ih =>
    obtain ⟨hline, hlines⟩ := List.forall_mem_cons.mp h
    obtain ⟨hle, hall⟩ := ih hlines
    rw [List.flatten_cons, List.count_append, List.length_cons]
    obtain hline | hline := hline
    · rw [count_terminated hline]
      refine ⟨by omega, fun heq => List.forall_mem_cons.mpr ⟨hline, hall (by omega)⟩⟩
    · rw [List.count_eq_zero.mpr hline]
      exact ⟨by omega, fun heq => by omega⟩

/-- Texts of as many lines are different if the lines are. -/
theorem flatten_inj {lines lines' : List Bytes} (h : ∀ line ∈ lines, LineLike line)
    (h' : ∀ line ∈ lines', Terminated line) (hlen : lines.length = lines'.length)
    (heq : lines.flatten = lines'.flatten) : lines = lines' := by
  have hcount : lines.flatten.count 10 = lines.length := by
    rw [heq, count_lines h', hlen]
  have hlines := strchrLines_all ((count_lineLike h).2 hcount)
  rw [heq, strchrLines_all h'] at hlines
  exact (congrArg Prod.fst hlines).symm

namespace PatchRun

variable (run : PatchRun)

theorem finishHunk_error {fin : PatchEnd} (h : run.finishHunk = .error fin) :
    ∀ text, fin ≠ .written text := by
  intro text
  unfold finishHunk at h
  split at h
  · cases h
    simp
  · split at h
    · cases h
      simp
    · cases h
      simp
    · cases h

theorem round_error {line rest : Bytes} {fin : PatchEnd} (h : run.round line rest = .error fin) :
    ∀ text, fin ≠ .written text := by
  unfold round at h
  split at h
  · exact finishHunk_error _ h
  · split at h
    · cases h
    · split at h
      · split at h
        · cases h
        · split at h
          · cases h
            simp
          · cases h
      · split at h
        · cases h
        · dsimp only at h
          split at h
          · exact finishHunk_error _ h
          · cases h

theorem rounds_error {rest : Bytes} {lines : List Bytes} {fin : PatchEnd}
    (h : run.rounds rest lines = .error fin) : ∀ text, fin ≠ .written text := by
  induction lines generalizing run with
  | nil => cases h
  | cons line lines ih =>
    rw [rounds] at h
    cases hround : run.round line (lines.flatten ++ rest) with
    | error fin' =>
      rw [hround] at h
      cases h
      exact round_error _ hround
    | ok run' =>
      rw [hround] at h
      exact ih _ h

/-- There is no command whose lines are collected. -/
structure Idle : Prop where
  patchCmdLen : run.patchCmdLen = 0
  chunk : run.chunk = []

theorem round_dot (rest : Bytes) : run.round (lit ".\n") rest = run.finishHunk := rfl

theorem round_payload (hlen : run.patchCmdLen ≠ 0) (line : TextLine) (hdot : line.isDot = false)
    (rest : Bytes) :
    run.round line.bytes rest = .ok { run with chunk := run.chunk ++ [line.bytes] } := by
  have hno : ¬((line.bytes.length = 2 && line.bytes.head? == some 46) = true) := by
    intro h
    rw [Bool.and_eq_true, decide_eq_true_eq, TextLine.bytes, List.length_append] at h
    obtain ⟨hlength, hhead⟩ := h
    obtain ⟨c, hc⟩ := List.length_eq_one_iff.mp (Nat.succ.inj hlength)
    rw [hc] at hhead
    obtain rfl : c = 46 := by simpa using hhead
    rw [TextLine.isDot, hc] at hdot
    exact absurd hdot (by decide)
  rw [round, if_neg hno, if_pos hlen]

theorem rounds_payload (hlen : run.patchCmdLen ≠ 0) (payload : List TextLine)
    (hdots : ∀ line ∈ payload, line.isDot = false) (rest : Bytes) (more : List Bytes) :
    run.rounds rest (payload.map TextLine.bytes ++ more) =
      { run with chunk := run.chunk ++ payload.map TextLine.bytes }.rounds rest more := by
  induction payload generalizing run with
  | nil => simp
  | cons line payload ih =>
    obtain ⟨hline, hpayload⟩ := List.forall_mem_cons.mp hdots
    rw [List.map_cons, List.cons_append, rounds, run.round_payload hlen line hline]
    refine (ih _ ?_ hpayload).trans ?_
    · exact hlen
    · simp only [List.append_assoc, List.singleton_append]

theorem rounds_input (hlen : run.patchCmdLen ≠ 0) (payload : List TextLine)
    (hdots : ∀ line ∈ payload, line.isDot = false) (rest : Bytes) (more : List Bytes) :
    run.rounds rest (inputLines payload ++ more) =
      ({ run with chunk := run.chunk ++ payload.map TextLine.bytes }.finishHunk).bind
        (fun run => run.rounds rest more) := by
  rw [inputLines, List.append_assoc, run.rounds_payload hlen payload hdots, List.singleton_append, rounds,
    round_dot]
  cases ({ run with chunk := run.chunk ++ payload.map TextLine.bytes } : PatchRun).finishHunk <;> rfl

/-- A line that is none of the other ones is the first one of a hunk. A deletion has no more lines. -/
theorem round_start (hidle : run.Idle) {c : UInt8} (hc : c ≠ 46 ∧ c ≠ 115 ∧ c ≠ 119) (line rest : Bytes) :
    run.round (c :: line) rest =
      if (2 < (c :: line).length && (c :: line)[(c :: line).length - 2]? == some 100) = true then
        { run with patchCmd := some (c :: line ++ rest)
                   patchCmdLen := (c :: line).length }.finishHunk
      else .ok { run with patchCmd := some (c :: line ++ rest), patchCmdLen := (c :: line).length } := by
  have hdot : ¬(((c :: line).length = 2 && (c :: line).head? == some 46) = true) := by
    simp [hc.1]
  have hfix : ¬((lit "s/.//\n").isPrefixOf (c :: line ++ rest) = true) := by
    intro h
    have hhead := (List.cons_prefix_cons.mp (List.isPrefixOf_iff_prefix.mp h)).1
    exact hc.2.1 hhead.symm
  have hwrite : ¬(((c :: line).head? == some 119) = true) := by
    simp [hc.2.2]
  rw [round, if_neg hdot, if_neg (fun h => h hidle.patchCmdLen), if_neg hfix, if_neg hwrite]

end PatchRun

namespace EdCommand

variable {α : Type}

/-- The letter of a command. -/
def letter : EdCommand α → UInt8
  | append _ _ => 97
  | change _ _ _ => 99
  | delete _ _ => 100

theorem text_eq (cmd : EdCommand α) : ∃ c front, isdigit c = true ∧
    (∀ d ∈ front, d ≠ 10 ∧ d ≠ 0) ∧ cmd.text = c :: (front ++ [cmd.letter]) := by
  have hdigit : ∀ d : UInt8, isdigit d = true → d ≠ 10 ∧ d ≠ 0 := by
    intro d hd
    have hgraph := isdigit_graph d hd
    refine ⟨?_, hgraph.2.2.2.1⟩
    rintro rfl
    exact absurd hd (by decide)
  have hnumber : ∀ (n : LineNumber) (back : Bytes), (∀ d ∈ back, d ≠ 10 ∧ d ≠ 0) →
      ∃ c front, isdigit c = true ∧ (∀ d ∈ front, d ≠ 10 ∧ d ≠ 0) ∧ n.digits ++ back = c :: front := by
    intro n back hback
    obtain ⟨c, digits, hdigits⟩ := List.exists_cons_of_ne_nil n.some_digit
    have hall := n.all_digits
    rw [hdigits] at hall ⊢
    obtain ⟨hc, hmore⟩ := List.forall_mem_cons.mp hall
    refine ⟨c, digits ++ back, hc, ?_, rfl⟩
    intro d hd
    exact (List.mem_append.mp hd).elim (fun h => hdigit d (hmore d h)) (hback d)
  have hrange : ∀ (first : LineNumber) (last : Option LineNumber), ∃ c front, isdigit c = true ∧
      (∀ d ∈ front, d ≠ 10 ∧ d ≠ 0) ∧ rangeText first last = c :: front := by
    intro first last
    cases last with
    | none => exact hnumber first [] (by simp)
    | some last =>
      refine hnumber first (44 :: last.digits) ?_
      refine List.forall_mem_cons.mpr ⟨by decide, ?_⟩
      exact fun d hd => hdigit d (last.all_digits d hd)
  cases cmd with
  | append after payload =>
    obtain ⟨c, front, hc, hfront, heq⟩ := hrange after none
    rw [rangeText, Option.elim_none, List.append_nil] at heq
    exact ⟨c, front, hc, hfront, by rw [text, heq]; rfl⟩
  | change first last payload =>
    obtain ⟨c, front, hc, hfront, heq⟩ := hrange first last
    exact ⟨c, front, hc, hfront, by rw [text, heq]; rfl⟩
  | delete first last =>
    obtain ⟨c, front, hc, hfront, heq⟩ := hrange first last
    exact ⟨c, front, hc, hfront, by rw [text, heq]; rfl⟩

theorem text_terminated (cmd : EdCommand α) : Terminated (cmd.text ++ [10]) := by
  obtain ⟨c, front, hc, hfront, heq⟩ := cmd.text_eq
  refine terminated_append ?_
  rw [heq]
  refine List.forall_mem_cons.mpr ⟨?_, ?_⟩
  · refine ⟨?_, (isdigit_graph c hc).2.2.2.1⟩
    rintro rfl
    exact absurd hc (by decide)
  · intro d hd
    obtain hd | hd := List.mem_append.mp hd
    · exact hfront d hd
    · obtain rfl := List.mem_singleton.mp hd
      cases cmd <;> simp [letter]

section Map

variable {β : Type} (f : α → β) (cmd : EdCommand α)

@[simp] theorem map_text : (cmd.map f).text = cmd.text := by cases cmd <;> rfl

@[simp] theorem map_payload : (cmd.map f).payload = cmd.payload.map f := by cases cmd <;> rfl

@[simp] theorem map_first : (cmd.map f).first = cmd.first := by cases cmd <;> rfl

@[simp] theorem map_last : (cmd.map f).last = cmd.last := by cases cmd <;> rfl

@[simp] theorem map_appends : (cmd.map f).appends = cmd.appends := by cases cmd <;> rfl

@[simp] theorem map_valid (n : Nat) : (cmd.map f).Valid n ↔ cmd.Valid n := by cases cmd <;> exact Iff.rfl

theorem map_result (lines : List α) : (cmd.map f).result (lines.map f) = (cmd.result lines).map f := by
  cases cmd <;> simp [map, result]

end Map

/-- Where the number of the first line gets to. -/
def stop (cmd : EdCommand α) : Nat :=
  if cmd.appends then cmd.first else cmd.first + min cmd.payload.length (cmd.last + 1 - cmd.first)

end EdCommand

/-- A command with valid addresses: ed's result, and where the first number is left. -/
theorem PatchSequence.patchChunk_valid {α : Type} (st : PatchSequence α) (cmd : EdCommand α)
    (rest : Bytes) {dummy : α} {lines : List α} (hidx : st.idx = dummy :: lines)
    (hvalid : cmd.Valid lines.length) (hsize : lines.length + 1 < 2 ^ 63) :
    ∃ st', st.patchChunk (cmd.text ++ rest) cmd.payload = some (true, st') ∧
      st'.idx = dummy :: cmd.result lines ∧ st'.rangeStart = cmd.stop := by
  have hlength : st.idx.length = lines.length + 1 := by rw [hidx, List.length_cons]
  have hbounds : cmd.first ≤ cmd.last ∧ cmd.last ≤ lines.length ∧
      (cmd.appends = false → 1 ≤ cmd.first) := by
    cases cmd with
    | append after payload => exact ⟨Nat.le_refl _, hvalid, by simp [EdCommand.appends]⟩
    | change first last payload => exact ⟨hvalid.2.1, hvalid.2.2, fun _ => hvalid.1⟩
    | delete first last => exact ⟨hvalid.2.1, hvalid.2.2, fun _ => hvalid.1⟩
  obtain ⟨horder, hlast, hfirst⟩ := hbounds
  rw [st.patchChunk_text cmd rest (by omega), if_pos ⟨horder, by omega⟩]
  cases happ : cmd.appends with
  | true =>
    obtain ⟨heq, hresult⟩ := cmd.result_of_appends lines happ
    rw [applyChunk, if_pos rfl, insertAt, if_pos (by simp only; omega)]
    refine ⟨_, rfl, ?_, ?_⟩
    · simp only [hidx, hresult, heq]
      simp
    · simp only [EdCommand.stop, happ, if_true]
  | false =>
    obtain ⟨out, hout, hidx', hstart⟩ := applyChunk_inside
      { st with rangeStart := cmd.first, rangeLast := cmd.last } cmd.payload (by simp only; omega) horder
      (by simp only; omega)
    rw [hout]
    refine ⟨out, rfl, ?_, ?_⟩
    · obtain ⟨k, hk⟩ := Nat.exists_eq_succ_of_ne_zero (Nat.one_le_iff_ne_zero.mp (hfirst happ))
      simp only [hidx, hk] at hidx'
      rw [hidx', cmd.result_of_range lines happ, hk]
      simp
    · rw [hstart]
      simp [EdCommand.stop, happ]

theorem EdCommand.map_stop {α β : Type} (f : α → β) (cmd : EdCommand α) : (cmd.map f).stop = cmd.stop := by
  simp [stop]

namespace PatchRun

variable {run : PatchRun}

theorem finishHunk_valid (run : PatchRun) (cmd : EdCommand TextLine) {x : Bytes}
    (hcmd : run.patchCmd = some (cmd.text ++ x)) (hchunk : run.chunk = cmd.payload.map TextLine.bytes)
    {lines : List Bytes} (hidx : run.lines.idx = [] :: lines) (hvalid : cmd.Valid lines.length)
    (hsize : lines.length + 1 < 2 ^ 63) :
    ∃ run' : PatchRun, run'.Idle ∧ run'.lines.idx = [] :: (cmd.map TextLine.bytes).result lines ∧
      run'.lines.rangeStart = cmd.stop ∧ run.finishHunk = .ok run' := by
  obtain ⟨st', hpatch, hidx', hstart⟩ := run.lines.patchChunk_valid (cmd.map TextLine.bytes) x hidx
    ((cmd.map_valid TextLine.bytes _).mpr hvalid) hsize
  rw [EdCommand.map_text, EdCommand.map_payload, ← hchunk] at hpatch
  rw [EdCommand.map_stop] at hstart
  refine ⟨{ run with lines := st', chunk := [], patchCmdLen := 0 }, ⟨rfl, rfl⟩, hidx', hstart, ?_⟩
  simp only [finishHunk, hcmd, hpatch]

/-- The first line of a command. A deletion is finished there. -/
theorem round_command (run : PatchRun) (hidle : run.Idle) (cmd : EdCommand TextLine) (rest : Bytes) :
    run.round (cmd.text ++ [10]) rest =
      if cmd.letter = 100 then
        { run with patchCmd := some (cmd.text ++ [10] ++ rest)
                   patchCmdLen := (cmd.text ++ [10]).length }.finishHunk
      else .ok { run with patchCmd := some (cmd.text ++ [10] ++ rest)
                          patchCmdLen := (cmd.text ++ [10]).length } := by
  obtain ⟨c, front, hc, -, htext⟩ := cmd.text_eq
  have hother : c ≠ 46 ∧ c ≠ 115 ∧ c ≠ 119 := by
    refine ⟨?_, ?_, ?_⟩ <;>
    · rintro rfl
      exact absurd hc (by decide)
  have hline : cmd.text ++ [10] = c :: (front ++ [cmd.letter] ++ [10]) := by rw [htext]; rfl
  have hsecond : (cmd.text ++ [10])[(cmd.text ++ [10]).length - 2]? = some cmd.letter := by
    rw [htext]
    simp
  have hlong : 2 < (cmd.text ++ [10]).length := by
    rw [htext]
    simp
  have hstart := run.round_start hidle hother (front ++ [cmd.letter] ++ [10]) rest
  rw [← hline, hsecond] at hstart
  rw [hstart]
  simp only [hlong, decide_true, Bool.true_and, beq_iff_eq, Option.some.injEq]

theorem text_command (cmd : EdCommand TextLine) :
    (EdItem.command cmd).text =
      (cmd.text ++ [10]) :: if cmd.letter = 100 then [] else inputLines cmd.payload := by
  cases cmd <;> rfl

/-- The lines of a command that has no line of a lone dot. -/
theorem rounds_command (hidle : run.Idle) (cmd : EdCommand TextLine)
    (hdots : ∀ line ∈ cmd.payload, line.isDot = false) {lines : List Bytes}
    (hidx : run.lines.idx = [] :: lines) (hvalid : cmd.Valid lines.length)
    (hsize : lines.length + 1 < 2 ^ 63) (rest : Bytes) (more : List Bytes) :
    ∃ run' : PatchRun, run'.Idle ∧ run'.lines.idx = [] :: (cmd.map TextLine.bytes).result lines ∧
      run'.lines.rangeStart = cmd.stop ∧
      run.rounds rest ((EdItem.command cmd).text ++ more) = run'.rounds rest more := by
  rw [text_command, List.cons_append, rounds, round_command run hidle]
  by_cases hletter : cmd.letter = 100
  · have hpayload : cmd.payload = [] := by
      cases cmd with
      | delete first last => rfl
      | _ => exact absurd hletter (by simp [EdCommand.letter])
    simp only [hletter, if_true, List.nil_append]
    obtain ⟨run', hrun', hidx', hstart, hfinish⟩ := finishHunk_valid
      { run with patchCmd := some (cmd.text ++ [10] ++ (more.flatten ++ rest))
                 patchCmdLen := (cmd.text ++ [10]).length } cmd (by rw [List.append_assoc])
      (by rw [hpayload]; exact hidle.chunk) hidx hvalid hsize
    exact ⟨run', hrun', hidx', hstart, by rw [hfinish]⟩
  · simp only [hletter, if_false]
    rw [rounds_input _ (by simp) _ hdots]
    obtain ⟨run', hrun', hidx', hstart, hfinish⟩ := finishHunk_valid
      { run with patchCmd := some (cmd.text ++ [10] ++ ((inputLines cmd.payload ++ more).flatten ++ rest))
                 patchCmdLen := (cmd.text ++ [10]).length
                 chunk := run.chunk ++ cmd.payload.map TextLine.bytes } cmd (by rw [List.append_assoc])
      (by rw [hidle.chunk, List.nil_append]) hidx hvalid hsize
    exact ⟨run', hrun', hidx', hstart, by rw [hfinish]; rfl⟩

/-- The command `a` without an address is not known. -/
theorem rounds_appendHere (hidle : run.Idle) (payload : List TextLine)
    (hdots : ∀ line ∈ payload, line.isDot = false) (rest : Bytes) (more : List Bytes) :
    run.rounds rest ((EdItem.appendHere payload).text ++ more) = .error .badLine := by
  have hround : ∀ rest, run.round (lit "a\n") rest =
      .ok { run with patchCmd := some (lit "a\n" ++ rest), patchCmdLen := 2 } :=
    fun rest => run.round_start hidle (by decide) [10] rest
  rw [EdItem.text, List.cons_append, rounds, hround]
  simp only
  rw [rounds_input _ (by simp) _ hdots]
  have hparse : ∀ x, run.lines.parseCommand (lit "a\n" ++ x) = (false, run.lines, false) := by
    intro x
    have hread : strtoull (lit "a\n" ++ x) = (0, cstr (lit "a\n" ++ x)) := rfl
    rw [PatchSequence.parseCommand, hread]
    simp only [if_true]
  simp only [finishHunk, PatchSequence.patchChunk, hparse]
  rfl

theorem rounds_undot (hidle : run.Idle) (rest : Bytes) (more : List Bytes) :
    run.rounds rest (EdItem.undot.text ++ more) =
      if run.lines.rangeStart = 0 then run.rounds rest more
      else if run.lines.rangeStart < run.lines.idx.length then
        { run with lines :=
          { run.lines with idx := run.lines.idx.set run.lines.rangeStart (lit ".\n") } }.rounds rest more
      else .error .fault := by
  have hround : run.round (lit "s/.//\n") (more.flatten ++ rest) =
      if run.lines.rangeStart = 0 then .ok run
      else if run.lines.rangeStart < run.lines.idx.length then
        .ok { run with lines :=
          { run.lines with idx := run.lines.idx.set run.lines.rangeStart (lit ".\n") } }
      else .error .fault := by
    have hfix : (lit "s/.//\n").isPrefixOf (lit "s/.//\n" ++ (more.flatten ++ rest)) = true :=
      List.isPrefixOf_iff_prefix.mpr (List.prefix_append _ _)
    rw [round, if_neg (by decide), if_neg (fun h => h hidle.patchCmdLen), if_pos hfix]
    unfold PatchSequence.assign
    split
    · rfl
    · by_cases hin : run.lines.rangeStart < run.lines.idx.length
      · simp only [hin, if_true]
      · simp only [hin, if_false]
  rw [EdItem.text, List.singleton_append, rounds, hround]
  by_cases hzero : run.lines.rangeStart = 0
  · simp only [hzero, if_true]
  · by_cases hin : run.lines.rangeStart < run.lines.idx.length
    · simp only [hzero, hin, if_true, if_false]
    · simp only [hzero, hin, if_false]

theorem rounds_write (hidle : run.Idle) (rest : Bytes) (more : List Bytes) :
    run.rounds rest (EdItem.write.text ++ more) = run.rounds rest more := by
  have hround : run.round (lit "w\n") (more.flatten ++ rest) = .ok run := by
    have hfix : ¬((lit "s/.//\n").isPrefixOf (lit "w\n" ++ (more.flatten ++ rest)) = true) := by
      intro h
      exact absurd (List.cons_prefix_cons.mp (List.isPrefixOf_iff_prefix.mp h)).1 (by decide)
    rw [round, if_neg (by decide), if_neg (fun h => h hidle.patchCmdLen), if_neg hfix, if_pos (by decide)]
  rw [EdItem.text, List.singleton_append, rounds, hround]

end PatchRun

end Acng
