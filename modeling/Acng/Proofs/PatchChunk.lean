import Acng.PatchChunk

namespace Acng
open Lib

namespace LineNumber

/-- A number of a command, read up to the byte behind it. -/
theorem strtoull_text (n : LineNumber) (c : UInt8) (rest : Bytes) (hc : isdigit c = false) :
    strtoull (n.digits ++ c :: rest) = (min n.value (2 ^ 64 - 1), cstr (c :: rest)) :=
  strtoull_digits n.some_digit n.all_digits (by simpa using hc)

/-- What is left behind a number is not the text that it was read from. -/
theorem rest_ne_text (n : LineNumber) (x : Bytes) : cstr x ≠ cstr (n.digits ++ x) := by
  have h0 : (0 : UInt8) ∉ n.digits := fun h => (isdigit_graph 0 (n.all_digits 0 h)).2.2.2.1 rfl
  rw [cstr_append _ _ h0]
  intro h
  have hlen := congrArg List.length h
  have hpos := List.length_pos_of_ne_nil n.some_digit
  rw [List.length_append] at hlen
  omega

end LineNumber

namespace PatchSequence

variable {α : Type}

theorem parseCommand_one (st : PatchSequence α) (n : LineNumber) (c : UInt8) (rest : Bytes)
    (hc : c = 97 ∨ c = 99 ∨ c = 100) :
    st.parseCommand (n.digits ++ c :: rest) =
      (true, { st with rangeStart := min n.value (2 ^ 64 - 1)
                       rangeLast := min n.value (2 ^ 64 - 1) }, c == 97) := by
  have hdigit : isdigit c = false := by
    obtain rfl | rfl | rfl := hc <;> rfl
  have hcstr : cstr (c :: rest) = c :: cstr rest := by
    obtain rfl | rfl | rfl := hc <;> rfl
  have hne : c :: cstr rest ≠ cstr (n.digits ++ c :: rest) := hcstr ▸ n.rest_ne_text (c :: rest)
  unfold parseCommand
  rw [n.strtoull_text c rest hdigit]
  simp only [hcstr, if_neg hne]
  obtain rfl | rfl | rfl := hc <;> rfl

theorem parseCommand_two (st : PatchSequence α) (n m : LineNumber) (c : UInt8) (rest : Bytes)
    (hc : c = 99 ∨ c = 100) :
    st.parseCommand (n.digits ++ 44 :: (m.digits ++ c :: rest)) =
      (true, { st with rangeStart := min n.value (2 ^ 64 - 1)
                       rangeLast := min m.value (2 ^ 64 - 1) }, false) := by
  have h0 : (0 : UInt8) ∉ m.digits := fun h => (isdigit_graph 0 (m.all_digits 0 h)).2.2.2.1 rfl
  have hdigit : isdigit c = false := by
    obtain rfl | rfl := hc <;> rfl
  have hcstr : cstr (c :: rest) = c :: cstr rest := by
    obtain rfl | rfl := hc <;> rfl
  have hcstr' : cstr (44 :: (m.digits ++ c :: rest)) = 44 :: (m.digits ++ c :: cstr rest) := by
    rw [← hcstr, ← cstr_append _ _ h0]
    rfl
  have hstop : (cstr (c :: cstr rest)).head? = some c := by
    obtain rfl | rfl := hc <;> rfl
  have hne : 44 :: (m.digits ++ c :: cstr rest) ≠ cstr (n.digits ++ 44 :: (m.digits ++ c :: rest)) :=
    hcstr' ▸ n.rest_ne_text (44 :: (m.digits ++ c :: rest))
  unfold parseCommand
  rw [n.strtoull_text 44 _ rfl]
  simp only [hcstr', if_neg hne, m.strtoull_text c (cstr rest) hdigit, hstop,
    m.rest_ne_text (c :: cstr rest), decide_false, Bool.false_or]
  obtain rfl | rfl := hc <;> rfl

/-- The numbers of a command line as they are read. Too large ones become the largest one. -/
theorem parseCommand_text (st : PatchSequence α) (cmd : EdCommand α) (rest : Bytes) :
    st.parseCommand (cmd.text ++ rest) =
      (true, { st with rangeStart := min cmd.first (2 ^ 64 - 1)
                       rangeLast := min cmd.last (2 ^ 64 - 1) }, cmd.appends) := by
  cases cmd with
  | append after payload =>
    simpa [EdCommand.text, EdCommand.first, EdCommand.last, EdCommand.appends] using
      parseCommand_one st after 97 rest (.inl rfl)
  | change first last payload =>
    cases last with
    | none =>
      simpa [EdCommand.text, EdCommand.rangeText, EdCommand.first, EdCommand.last,
        EdCommand.appends] using
        parseCommand_one st first 99 rest (.inr (.inl rfl))
    | some last =>
      simpa [EdCommand.text, EdCommand.rangeText, EdCommand.first, EdCommand.last,
        EdCommand.appends] using
        parseCommand_two st first last 99 rest (.inl rfl)
  | delete first last =>
    cases last with
    | none =>
      simpa [EdCommand.text, EdCommand.rangeText, EdCommand.first, EdCommand.last,
        EdCommand.appends] using
        parseCommand_one st first 100 rest (.inr (.inr rfl))
    | some last =>
      simpa [EdCommand.text, EdCommand.rangeText, EdCommand.first, EdCommand.last,
        EdCommand.appends] using
        parseCommand_two st first last 100 rest (.inr rfl)

/-- The loop inside the list: so many lines are replaced as there are on both sides. -/
theorem replaceLoop_eq (idx : List α) (rangeStart rangeLast : Nat) (diffPayload : List α)
    (hlast : rangeLast < idx.length) (hstart : rangeStart ≤ rangeLast + 1) :
    replaceLoop rangeLast idx rangeStart diffPayload =
      some (idx.take rangeStart ++ diffPayload.take (rangeLast + 1 - rangeStart)
          ++ idx.drop (rangeStart + min diffPayload.length (rangeLast + 1 - rangeStart)),
        rangeStart + min diffPayload.length (rangeLast + 1 - rangeStart),
        diffPayload.drop (rangeLast + 1 - rangeStart)) := by
  induction diffPayload generalizing idx rangeStart with
  | nil => simp [replaceLoop]
  | cons line diffPayload ih =>
    unfold replaceLoop
    by_cases hle : rangeStart ≤ rangeLast
    · have hpos : rangeStart < idx.length := by omega
      obtain ⟨k, hk⟩ : ∃ k, rangeLast + 1 - rangeStart = k + 1 := ⟨rangeLast - rangeStart, by omega⟩
      have hk' : rangeLast + 1 - (rangeStart + 1) = k := by omega
      have htake : (idx.set rangeStart line).take (rangeStart + 1) = idx.take rangeStart ++ [line] := by
        rw [List.take_add_one, List.take_set_of_le (Nat.le_refl _)]
        simp [hpos]
      have hdrop (j : Nat) : (idx.set rangeStart line).drop (rangeStart + 1 + j)
          = idx.drop (rangeStart + (j + 1)) := by
        rw [List.drop_set_of_lt (by omega)]
        congr 1
        omega
      rw [if_pos hle, assign, if_pos hpos]
      simp only
      rw [ih (idx.set rangeStart line) (rangeStart + 1) (by simpa using hlast) (by omega), htake,
        hk', hk, hdrop]
      simp only [List.take_succ_cons, List.drop_succ_cons, List.length_cons, Nat.add_min_add_right,
        List.append_assoc, List.singleton_append, Option.some.injEq, Prod.mk.injEq, true_and,
        and_true]
      omega
    · have h0 : rangeLast + 1 - rangeStart = 0 := by omega
      simp [hle, h0]

/-- With the last number one behind the end the loop leaves the list, or it stops in front of it. -/
theorem replaceLoop_behind (idx : List α) (rangeStart : Nat) (diffPayload : List α)
    (hstart : rangeStart ≤ idx.length) :
    replaceLoop idx.length idx rangeStart diffPayload = none ∨
      ∃ out stop, replaceLoop idx.length idx rangeStart diffPayload = some (out, stop, []) ∧
        stop ≤ idx.length ∧ out.length = idx.length := by
  induction diffPayload generalizing idx rangeStart with
  | nil => exact .inr ⟨idx, rangeStart, rfl, hstart, rfl⟩
  | cons line diffPayload ih =>
    unfold replaceLoop
    rw [if_pos hstart, assign]
    by_cases hpos : rangeStart < idx.length
    · rw [if_pos hpos]
      have := ih (idx.set rangeStart line) (rangeStart + 1) (by rw [List.length_set]; omega)
      rwa [List.length_set] at this
    · rw [if_neg hpos]
      exact .inl rfl

/-- Numbers inside the list, also the one of the dummy entry: the lines between them are gone and
the payload is in their place. -/
theorem applyChunk_inside (st : PatchSequence α) (diffPayload : List α)
    (hlast : st.rangeLast < st.idx.length) (hstart : st.rangeStart ≤ st.rangeLast)
    (hsize : st.idx.length < 2 ^ 63) :
    ∃ out, st.applyChunk false diffPayload = some out ∧
      out.idx = st.idx.take st.rangeStart ++ diffPayload ++ st.idx.drop (st.rangeLast + 1) ∧
      out.rangeStart = st.rangeStart + min diffPayload.length (st.rangeLast + 1 - st.rangeStart) := by
  unfold applyChunk
  rw [if_neg Bool.false_ne_true,
    replaceLoop_eq st.idx st.rangeStart st.rangeLast diffPayload hlast (by omega)]
  obtain ⟨room, hroom⟩ : ∃ room, st.rangeLast + 1 - st.rangeStart = room := ⟨_, rfl⟩
  simp only [hroom]
  by_cases hlong : room < diffPayload.length
  · have hrest : (diffPayload.drop room).isEmpty = false := by
      rw [List.isEmpty_eq_false_iff]
      intro h
      have := congrArg List.length h
      rw [List.length_drop, List.length_nil] at this
      omega
    have hmin : min diffPayload.length room = room := by omega
    have hend : st.rangeStart + room = st.rangeLast + 1 := by omega
    have hfront : (st.idx.take st.rangeStart ++ diffPayload.take room).length
        = st.rangeLast + 1 := by
      rw [List.length_append, List.length_take, List.length_take]
      omega
    simp only [hrest, Bool.not_false, if_true, hmin, hend]
    rw [insertAt, if_pos (by rw [List.length_append, hfront]; omega), ← hfront, List.take_left,
      List.drop_left]
    refine ⟨_, rfl, ?_, rfl⟩
    simp only [hfront]
    rw [List.append_assoc (st.idx.take _), List.take_append_drop]
  · have hshort : diffPayload.length ≤ room := by omega
    have hmin : min diffPayload.length room = diffPayload.length := by omega
    have hfront : (st.idx.take st.rangeStart ++ diffPayload).length
        = st.rangeStart + diffPayload.length := by
      rw [List.length_append, List.length_take]
      omega
    simp only [hmin, List.drop_eq_nil_of_le hshort, List.take_of_length_le hshort, List.isEmpty_nil,
      Bool.not_true, Bool.false_eq_true, if_false]
    by_cases hless : st.rangeStart + diffPayload.length = st.rangeLast + 1
    · rw [if_neg (by omega)]
      exact ⟨_, rfl, by rw [← hless], rfl⟩
    · rw [if_pos (by omega), eraseRange, if_pos]
      · refine ⟨_, rfl, ?_, rfl⟩
        simp only
        rw [← hfront, List.take_left, List.drop_append, List.drop_eq_nil_of_le (by omega), hfront,
          List.nil_append, List.drop_drop]
        congr 2
        omega
      · rw [List.length_append, hfront, List.length_drop]
        omega

/-- A last number one behind the end has no lines: something outside of the list is touched. -/
theorem applyChunk_behind (st : PatchSequence α) (diffPayload : List α)
    (hlast : st.rangeLast = st.idx.length) (hstart : st.rangeStart ≤ st.rangeLast)
    (hsize : st.idx.length < 2 ^ 63) : st.applyChunk false diffPayload = none := by
  unfold applyChunk
  rw [if_neg Bool.false_ne_true, hlast]
  obtain h | ⟨out, stop, h, hstop, hlen⟩ :=
    replaceLoop_behind st.idx st.rangeStart diffPayload (hlast ▸ hstart)
  · rw [h]
  · rw [h]
    simp only [List.isEmpty_nil, Bool.not_true, Bool.false_eq_true, if_false]
    rw [if_pos (by omega), eraseRange, if_neg (by omega)]
    rfl

end PatchSequence

namespace EdCommand

variable {α : Type}

theorem valid_iff (cmd : EdCommand α) (n : Nat) :
    cmd.Valid n ↔
      (cmd.appends = true ∨ 1 ≤ cmd.first) ∧ cmd.first ≤ cmd.last ∧ cmd.last ≤ n := by
  cases cmd <;> simp [Valid, appends, first, last]

theorem result_of_range (cmd : EdCommand α) (lines : List α) (h : cmd.appends = false) :
    cmd.result lines = lines.take (cmd.first - 1) ++ cmd.payload ++ lines.drop cmd.last := by
  cases cmd with
  | append after payload => exact absurd h (by simp [appends])
  | change first last payload => rfl
  | delete first last => simp [result, payload, EdCommand.first, EdCommand.last]

theorem result_of_appends (cmd : EdCommand α) (lines : List α) (h : cmd.appends = true) :
    cmd.first = cmd.last ∧
      cmd.result lines = lines.take cmd.last ++ cmd.payload ++ lines.drop cmd.last := by
  cases cmd with
  | append after payload => exact ⟨rfl, rfl⟩
  | change first last payload => exact absurd h (by simp [appends])
  | delete first last => exact absurd h (by simp [appends])

/-- What a command has to do on numbered lines with a dummy in front of them: `true` and ed's result
for the addresses that ed accepts, else `false` and the lines as they were. Without an outcome
something outside of the list was touched. -/
def Applied (cmd : EdCommand α) (dummy : α) (lines : List α)
    (outcome : Option (Bool × PatchSequence α)) : Prop :=
  (cmd.Valid lines.length ∧ outcome.map (fun r => (r.1, r.2.idx)) =
    some (true, dummy :: cmd.result lines)) ∨
  (¬cmd.Valid lines.length ∧ outcome.map (fun r => (r.1, r.2.idx)) = some (false, dummy :: lines))

end EdCommand

namespace PatchSequence

variable {α : Type}

/-- `patchChunk` on a command line, by the numbers of the command. -/
theorem patchChunk_text (st : PatchSequence α) (cmd : EdCommand α) (rest : Bytes)
    (hsize : st.idx.length < 2 ^ 63) :
    st.patchChunk (cmd.text ++ rest) cmd.payload =
      if cmd.first ≤ cmd.last ∧ cmd.last ≤ st.idx.length then
        ({ st with rangeStart := cmd.first, rangeLast := cmd.last }.applyChunk cmd.appends
          cmd.payload).map (fun st => (true, st))
      else some (false, { st with rangeStart := min cmd.first (2 ^ 64 - 1)
                                  rangeLast := min cmd.last (2 ^ 64 - 1) }) := by
  unfold patchChunk
  rw [parseCommand_text st cmd rest]
  simp only
  by_cases h : cmd.first ≤ cmd.last ∧ cmd.last ≤ st.idx.length
  · rw [if_neg (by omega), if_pos h, min_eq_left (by omega), min_eq_left (by omega)]
  · rw [if_pos (by omega), if_neg h]

/-- A command does what ed does, up to two kinds of addresses that are accepted and should not be:
the last one is one behind the last line, or lines are replaced or deleted from zero on. -/
theorem patchChunk_applied_iff (dummy : α) (lines : List α) (rangeStart rangeLast : Nat)
    (cmd : EdCommand α) (rest : Bytes) (hsize : lines.length + 1 < 2 ^ 63) :
    cmd.Applied dummy lines
        ({ idx := dummy :: lines, rangeStart, rangeLast : PatchSequence α }.patchChunk
          (cmd.text ++ rest) cmd.payload) ↔
      ¬(cmd.first ≤ cmd.last ∧ cmd.last = lines.length + 1) ∧
        ¬(cmd.appends = false ∧ cmd.first = 0 ∧ cmd.last ≤ lines.length) := by
  rw [patchChunk_text _ cmd rest (by simpa using hsize)]
  unfold EdCommand.Applied
  rw [cmd.valid_iff]
  simp only [List.length_cons]
  by_cases haccepted : cmd.first ≤ cmd.last ∧ cmd.last ≤ lines.length + 1
  · obtain ⟨horder, hbound⟩ := haccepted
    rw [if_pos ⟨horder, hbound⟩]
    by_cases hbehind : cmd.last = lines.length + 1
    · -- the list has this many entries, so that its last number is not theirs
      have houtside : applyChunk ⟨dummy :: lines, cmd.first, cmd.last⟩ cmd.appends
          cmd.payload = none := by
        cases happ : cmd.appends with
        | false => exact applyChunk_behind _ _ hbehind horder (by simpa using hsize)
        | true =>
          rw [applyChunk, if_pos rfl, insertAt, if_neg]
          · rfl
          · simp only [List.length_cons]
            have := (cmd.result_of_appends lines happ).1
            omega
      have hfirst : cmd.first ≤ lines.length + 1 := by omega
      rw [houtside]
      simp [hbehind, hfirst]
    · have hlast : cmd.last ≤ lines.length := by omega
      cases happ : cmd.appends with
      | true =>
        obtain ⟨heq, hresult⟩ := cmd.result_of_appends lines happ
        rw [applyChunk, if_pos rfl, insertAt, if_pos (by simpa [heq] using hlast)]
        simp [hlast, hbehind, hresult, heq]
      | false =>
        obtain ⟨out, hout, hidx, -⟩ := applyChunk_inside ⟨dummy :: lines, cmd.first, cmd.last⟩
          cmd.payload (by simpa using Nat.lt_succ_of_le hlast) horder (by simpa using hsize)
        rw [hout]
        by_cases hzero : cmd.first = 0
        · simp [hzero, hlast]
        · obtain ⟨k, hk⟩ := Nat.exists_eq_succ_of_ne_zero hzero
          have hfirst : k + 1 ≤ cmd.last := by omega
          simp only [hk] at hidx
          simp [hidx, hbehind, hlast, cmd.result_of_range lines happ, hk, hfirst]
  · rw [if_neg haccepted]
    simp
    omega

theorem patchChunk_applied_iff_change :
    (EdCommand.change ⟨[49], by decide, by decide +kernel⟩
        (some ⟨[50], by decide, by decide +kernel⟩) [30, 40, 50]).Applied 0 [10, 20]
      ({ idx := [0, 10, 20] : PatchSequence Nat }.patchChunk (lit "1,2c\n") [30, 40, 50]) := by
  refine (patchChunk_applied_iff 0 [10, 20] 0 0 (.change ⟨[49], by decide, by decide +kernel⟩
    (some ⟨[50], by decide, by decide +kernel⟩) [30, 40, 50]) [10] (by decide)).mpr ?_
  decide

/-- Two lines have no third one, but the deletion of it goes on behind the list; and a deletion from
zero on takes the dummy away. -/
theorem patchChunk_behind_and_zero :
    ¬(EdCommand.delete ⟨[51], by decide, by decide +kernel⟩ none).Applied 0 [10, 20]
        ({ idx := [0, 10, 20] : PatchSequence Nat }.patchChunk (lit "3d\n") []) ∧
      ¬(EdCommand.delete ⟨[48], by decide, by decide +kernel⟩ none).Applied 0 [10, 20]
        ({ idx := [0, 10, 20] : PatchSequence Nat }.patchChunk (lit "0d\n") []) := by
  constructor
  · rintro (⟨⟨-, -, hbound⟩, -⟩ | ⟨-, h⟩)
    · exact absurd hbound (by decide)
    · exact absurd h (by decide +kernel)
  · rintro (⟨⟨hone, -⟩, -⟩ | ⟨-, h⟩)
    · exact absurd hone (by decide)
    · exact absurd h (by decide +kernel)

end PatchSequence

end Acng
