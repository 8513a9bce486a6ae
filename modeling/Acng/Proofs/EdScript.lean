import Acng.Proofs.PatchFile

namespace Acng
open Lib

section Items

variable (start : List TextLine → EdItem) (front : List TextLine)

theorem insertItems_plain (payload : List TextLine) (h : ∀ line ∈ payload, line.isDot = false) :
    insertItems start front payload = [start (front ++ payload)] := by
  induction payload generalizing front with
  | nil => rw [insertItems, List.append_nil]
  | cons line payload ih =>
    obtain ⟨hline, hpayload⟩ := List.forall_mem_cons.mp h
    rw [insertItems, if_neg (by simp [hline]), ih _ hpayload, List.append_assoc]
    rfl

theorem insertItems_dot (pre post : List TextLine) (hpre : ∀ line ∈ pre, line.isDot = false)
    {line : TextLine} (hline : line.isDot = true) :
    insertItems start front (pre ++ line :: post) =
      start (front ++ (pre ++ [.dots])) :: .undot ::
        if post.isEmpty then [] else insertItems .appendHere [] post := by
  induction pre generalizing front with
  | nil => rw [List.nil_append, insertItems, if_pos hline, List.nil_append]
  | cons line' pre ih =>
    obtain ⟨hline', hpre⟩ := List.forall_mem_cons.mp hpre
    rw [List.cons_append, insertItems, if_neg (by simp [hline']), ih _ hpre, List.append_assoc]
    rfl

end Items

/-- A payload without lone dots, or cut at the first one. -/
theorem payload_cases (payload : List TextLine) :
    (∀ line ∈ payload, line.isDot = false) ∨ ∃ pre line post, payload = pre ++ line :: post ∧
      (∀ line ∈ pre, line.isDot = false) ∧ line.isDot = true := by
  induction payload with
  | nil => exact .inl (by simp)
  | cons line payload ih =>
    cases hline : line.isDot with
    | true => exact .inr ⟨[], line, payload, rfl, by simp, hline⟩
    | false =>
      obtain hnone | ⟨pre, line', post, rfl, hpre, hline'⟩ := ih
      · exact .inl (List.forall_mem_cons.mpr ⟨hline, hnone⟩)
      · exact .inr ⟨line :: pre, line', post, rfl, List.forall_mem_cons.mpr ⟨hline, hpre⟩, hline'⟩

theorem TextLine.tail_dots {line : TextLine} (h : line.isDot = true) : TextLine.dots.tail = line := by
  obtain ⟨text, plain⟩ := line
  obtain rfl : text = lit "." := beq_iff_eq.mp h
  rfl

theorem TextLine.bytes_dot {line : TextLine} (h : line.isDot = true) : line.bytes = lit ".\n" := by
  rw [bytes, beq_iff_eq.mp h]
  rfl

namespace EdCommand

variable {α : Type}

/-- The same command with other lines. A deletion has none. -/
def withPayload (payload : List α) : EdCommand α → EdCommand α
  | append after _ => append after payload
  | change first last _ => change first last payload
  | delete first last => delete first last

theorem items_eq (cmd : EdCommand TextLine) :
    cmd.items = insertItems (fun payload => .command (cmd.withPayload payload)) [] cmd.payload := by
  cases cmd <;> rfl

section WithPayload

variable (cmd : EdCommand α) (payload : List α)

@[simp] theorem withPayload_first : (cmd.withPayload payload).first = cmd.first := by cases cmd <;> rfl

@[simp] theorem withPayload_last : (cmd.withPayload payload).last = cmd.last := by cases cmd <;> rfl

@[simp] theorem withPayload_appends : (cmd.withPayload payload).appends = cmd.appends := by
  cases cmd <;> rfl

@[simp] theorem withPayload_below : (cmd.withPayload payload).below = cmd.below := by
  simp [below]

@[simp] theorem withPayload_valid (n : Nat) : (cmd.withPayload payload).Valid n ↔ cmd.Valid n := by
  cases cmd <;> exact Iff.rfl

theorem withPayload_self : cmd.withPayload cmd.payload = cmd := by cases cmd <;> rfl

theorem withPayload_payload (h : cmd.payload ≠ []) : (cmd.withPayload payload).payload = payload := by
  cases cmd with
  | delete first last => exact absurd rfl h
  | _ => rfl

end WithPayload

/-- Where the lines of a command go. -/
theorem result_eq (cmd : EdCommand α) (lines : List α) :
    cmd.result lines = lines.take cmd.below ++ cmd.payload ++ lines.drop cmd.last := by
  cases cmd with
  | append after payload => rfl
  | change first last payload => rfl
  | delete first last => simp [result, below, payload, EdCommand.first, EdCommand.last, appends]

theorem Valid.bounds {cmd : EdCommand α} {n : Nat} (h : cmd.Valid n) :
    cmd.last ≤ n ∧ cmd.below ≤ cmd.last ∧
      (cmd.appends = true → cmd.below = cmd.first ∧ cmd.last = cmd.first) ∧
      (cmd.appends = false → cmd.below + 1 = cmd.first ∧ cmd.first ≤ cmd.last) := by
  cases cmd with
  | append after payload =>
    simp only [below, appends, EdCommand.first, EdCommand.last, if_true]
    exact ⟨h, Nat.le_refl _, fun _ => ⟨trivial, trivial⟩, fun h => absurd h (by simp)⟩
  | change first last payload =>
    obtain ⟨h1, h2, h3⟩ := h
    simp only [below, appends, EdCommand.first, EdCommand.last, Bool.false_eq_true, if_false]
    exact ⟨h3, by omega, fun h => absurd h (by simp), fun _ => ⟨by omega, h2⟩⟩
  | delete first last =>
    obtain ⟨h1, h2, h3⟩ := h
    simp only [below, appends, EdCommand.first, EdCommand.last, Bool.false_eq_true, if_false]
    exact ⟨h3, by omega, fun h => absurd h (by simp), fun _ => ⟨by omega, h2⟩⟩

end EdCommand

theorem terminated_map (lines : List TextLine) : ∀ line ∈ lines.map TextLine.bytes, Terminated line := by
  intro line hline
  obtain ⟨l, -, rfl⟩ := List.mem_map.mp hline
  exact ⟨l, rfl⟩

theorem modify_middle {α : Type} (f : α → α) (A B : List α) (x : α) :
    (A ++ x :: B).modify A.length f = A ++ f x :: B := by
  induction A with
  | nil => rfl
  | cons a A ih => simp [ih]

namespace EdBuffer

/-- The lines of a hunk are put where its command has them, lone dots included. -/
theorem insertItems_step (start : List TextLine → EdItem) (front payload A B : List TextLine)
    (st : EdBuffer) (hstart : ∀ lines, st.step (start lines) = ⟨A ++ lines ++ B, A.length + lines.length⟩) :
    ((insertItems start front payload).foldl step st).lines = A ++ (front ++ payload) ++ B := by
  induction payload generalizing start front A st with
  | nil => rw [insertItems, List.foldl_cons, hstart, List.append_nil, List.foldl_nil]
  | cons line payload ih =>
    rw [insertItems]
    split
    · rename_i hline
      rw [List.foldl_cons, hstart, List.foldl_cons]
      have hundot : step ⟨A ++ (front ++ [.dots]) ++ B, A.length + (front ++ [TextLine.dots]).length⟩
          .undot = ⟨A ++ (front ++ [line]) ++ B, (A ++ (front ++ [line])).length⟩ := by
        have hpos : A.length + (front ++ [TextLine.dots]).length - 1 = (A ++ front).length := by
          simp only [List.length_append, List.length_singleton]
          omega
        have hlines : A ++ (front ++ [.dots]) ++ B = (A ++ front) ++ TextLine.dots :: B := by simp
        rw [step]
        simp only [hpos, hlines, modify_middle, TextLine.tail_dots hline]
        simp
      rw [hundot]
      split
      · rename_i hempty
        rw [List.isEmpty_iff.mp hempty]
        rfl
      · rw [ih .appendHere [] (A ++ (front ++ [line]))]
        · simp
        · intro lines
          simp only [step, List.take_left, List.drop_left]
    · rw [ih start (front ++ [line]) A st hstart, List.append_assoc front]
      rfl

/-- A hunk does what its command does with the lines as they are. -/
theorem items_step (cmd : EdCommand TextLine) (st : EdBuffer) (hvalid : cmd.Valid st.lines.length) :
    (cmd.items.foldl step st).lines = cmd.result st.lines := by
  have hbounds := hvalid.bounds
  by_cases hpayload : cmd.payload = []
  · rw [cmd.items_eq, hpayload, insertItems, ← hpayload, cmd.withPayload_self]
    rfl
  · rw [cmd.items_eq, insertItems_step _ [] cmd.payload (st.lines.take cmd.below)
      (st.lines.drop cmd.last), cmd.result_eq, List.nil_append]
    intro lines
    have hlength : (st.lines.take cmd.below).length = cmd.below := by
      rw [List.length_take]
      omega
    simp only [step, EdCommand.result_eq, EdCommand.withPayload_below, EdCommand.withPayload_last,
      EdCommand.withPayload_first, EdCommand.withPayload_appends, cmd.withPayload_payload lines hpayload,
      hlength, EdBuffer.mk.injEq, true_and]
    cases happ : cmd.appends with
    | true =>
      have := hbounds.2.2.1 happ
      simp only [if_true]
      omega
    | false =>
      have := hbounds.2.2.2 happ
      simp only [Bool.false_eq_true, if_false]
      omega

end EdBuffer

/-- No line of the payload is a lone dot, or the last one is and the payload has one line more than it is
put for: the number of the first line is left there. -/
def EdCommand.Fits (cmd : EdCommand TextLine) : Prop :=
  (∀ line ∈ cmd.payload, line.isDot = false) ∨
    (cmd.appends = false ∧ cmd.payload.length + cmd.first = cmd.last + 2 ∧
      ∃ pre line, cmd.payload = pre ++ [line] ∧ (∀ line ∈ pre, line.isDot = false) ∧ line.isDot = true)

theorem no_dot_dots {pre : List TextLine} (hpre : ∀ line ∈ pre, line.isDot = false) :
    ∀ line ∈ pre ++ [TextLine.dots], line.isDot = false := by
  intro line hline
  obtain hline | hline := List.mem_append.mp hline
  · exact hpre line hline
  · rw [List.mem_singleton.mp hline]
    rfl

namespace PatchRun

variable {run : PatchRun}

theorem Idle.withLines (hidle : run.Idle) (lines : PatchSequence Bytes) :
    ({ run with lines } : PatchRun).Idle :=
  ⟨hidle.patchCmdLen, hidle.chunk⟩

/-- The lines of a hunk up to its first lone dot, as it is written. -/
theorem rounds_dots (hidle : run.Idle) (cmd : EdCommand TextLine) (pre : List TextLine)
    (hpre : ∀ line ∈ pre, line.isDot = false) (hpayload : cmd.payload ≠ []) {lines : List Bytes}
    (hidx : run.lines.idx = [] :: lines) (hvalid : cmd.Valid lines.length)
    (hsize : lines.length + 1 < 2 ^ 63) (rest : Bytes) (more : List Bytes) :
    ∃ run' : PatchRun, run'.Idle ∧
      run'.lines.idx = [] :: (lines.take cmd.below ++ pre.map TextLine.bytes) ++
        lit "..\n" :: lines.drop cmd.last ∧
      run'.lines.rangeStart =
        (if cmd.appends then cmd.first
         else cmd.first + min (pre.length + 1) (cmd.last + 1 - cmd.first)) ∧
      run.rounds rest ((EdItem.command (cmd.withPayload (pre ++ [.dots]))).text ++ more) =
        run'.rounds rest more := by
  have hdots : ∀ line ∈ (cmd.withPayload (pre ++ [.dots])).payload, line.isDot = false := by
    rw [cmd.withPayload_payload _ hpayload]
    exact no_dot_dots hpre
  obtain ⟨run', hidle', hidx', hstart, hrounds⟩ := rounds_command hidle _ hdots hidx
    ((cmd.withPayload_valid _ _).mpr hvalid) hsize rest more
  refine ⟨run', hidle', ?_, ?_, hrounds⟩
  · rw [hidx', EdCommand.result_eq, EdCommand.map_payload, cmd.withPayload_payload _ hpayload]
    simp [EdCommand.below]
    rfl
  · rw [hstart, EdCommand.stop, cmd.withPayload_payload _ hpayload]
    simp

/-- A hunk that fits is done as its command says. -/
theorem rounds_fits (hidle : run.Idle) (cmd : EdCommand TextLine) (hfits : cmd.Fits)
    {lines : List Bytes} (hidx : run.lines.idx = [] :: lines) (hvalid : cmd.Valid lines.length)
    (hsize : lines.length + 1 < 2 ^ 63) (rest : Bytes) (more : List Bytes) :
    ∃ run' : PatchRun, run'.Idle ∧ run'.lines.idx = [] :: (cmd.map TextLine.bytes).result lines ∧
      run.rounds rest (cmd.items.flatMap EdItem.text ++ more) = run'.rounds rest more := by
  obtain hdots | ⟨happ, hlength, pre, line, hpayload, hpre, hline⟩ := hfits
  · rw [cmd.items_eq, insertItems_plain _ _ _ hdots, List.nil_append, cmd.withPayload_self,
      List.flatMap_singleton]
    obtain ⟨run', hidle', hidx', -, hrounds⟩ := rounds_command hidle cmd hdots hidx hvalid hsize rest more
    exact ⟨run', hidle', hidx', hrounds⟩
  · have hne : cmd.payload ≠ [] := by simp [hpayload]
    obtain ⟨run', hidle', hidx', hstart, hrounds⟩ := rounds_dots hidle cmd pre hpre hne hidx hvalid hsize
      rest (EdItem.undot.text ++ more)
    obtain ⟨-, hfirst⟩ := hvalid.bounds.2.2.2 happ
    have hbelow := (hvalid.bounds.2.2.2 happ).1
    have hpos : run'.lines.rangeStart
        = ([] :: (lines.take cmd.below ++ pre.map TextLine.bytes)).length := by
      have hlast := hvalid.bounds.1
      rw [hpayload, List.length_append, List.length_singleton] at hlength
      rw [hstart, happ]
      simp only [List.length_cons, List.length_append, List.length_take, List.length_map,
        Bool.false_eq_true, if_false]
      omega
    have hitems : cmd.items.flatMap EdItem.text ++ more
        = (EdItem.command (cmd.withPayload (pre ++ [.dots]))).text ++ (EdItem.undot.text ++ more) := by
      rw [cmd.items_eq, hpayload, insertItems_dot _ _ pre [] hpre hline]
      simp
    have hset : run'.lines.idx.set run'.lines.rangeStart (lit ".\n")
        = [] :: (cmd.map TextLine.bytes).result lines := by
      rw [hidx', hpos, List.set_append_right _ _ (Nat.le_refl _), Nat.sub_self, EdCommand.result_eq,
        EdCommand.map_payload, hpayload]
      simp [TextLine.bytes_dot hline, EdCommand.below]
    rw [hitems, hrounds, rounds_undot hidle']
    rw [if_neg (by rw [hpos, List.length_cons]; omega), if_pos (by rw [hidx', hpos]; simp)]
    let idx := run'.lines.idx.set run'.lines.rangeStart (lit ".\n")
    exact ⟨{ run' with lines := { run'.lines with idx } }, hidle'.withLines _, hset, rfl⟩

/-- What is put behind the fix for a lone dot starts with a command that is not known. -/
theorem rounds_behind_dot (hidle : run.Idle) (post : List TextLine) (rest : Bytes) (more : List Bytes) :
    run.rounds rest ((insertItems .appendHere [] post).flatMap EdItem.text ++ more) = .error .badLine := by
  obtain hdots | ⟨pre, line, post, rfl, hpre, hline⟩ := payload_cases post
  · rw [insertItems_plain _ _ _ hdots, List.flatMap_singleton]
    exact rounds_appendHere hidle _ hdots rest more
  · rw [insertItems_dot _ _ pre post hpre hline, List.flatMap_cons, List.append_assoc]
    exact rounds_appendHere hidle _ (no_dot_dots hpre) rest _

/-- A hunk that does not fit ends the program, or a line with two dots stays there. -/
theorem rounds_unfit (hidle : run.Idle) (cmd : EdCommand TextLine) (hfits : ¬cmd.Fits)
    {lines : List Bytes} (hidx : run.lines.idx = [] :: lines) (hvalid : cmd.Valid lines.length)
    (hsize : lines.length + 1 < 2 ^ 63) (rest : Bytes) (more : List Bytes) :
    (∃ fin, run.rounds rest (cmd.items.flatMap EdItem.text ++ more) = .error fin) ∨
      ∃ (run' : PatchRun) (pre : List TextLine) (line : TextLine) (idx : List Bytes) (pos : Nat),
        run'.Idle ∧ cmd.payload = pre ++ [line] ∧ line.isDot = true ∧
        idx = (lines.take cmd.below ++ pre.map TextLine.bytes) ++ lit "..\n" :: lines.drop cmd.last ∧
        (run'.lines.idx = [] :: idx ∨ (pos ≠ cmd.below + pre.length ∧
          run'.lines.idx = [] :: idx.set pos (lit ".\n"))) ∧
        run.rounds rest (cmd.items.flatMap EdItem.text ++ more) = run'.rounds rest more := by
  obtain hdots | ⟨pre, line, post, hpayload, hpre, hline⟩ := payload_cases cmd.payload
  · exact absurd (.inl hdots) hfits
  · have hne : cmd.payload ≠ [] := by simp [hpayload]
    have hitems : cmd.items.flatMap EdItem.text ++ more
        = (EdItem.command (cmd.withPayload (pre ++ [.dots]))).text ++ (EdItem.undot.text ++
          ((if post.isEmpty then [] else insertItems .appendHere [] post).flatMap EdItem.text ++ more)) := by
      rw [cmd.items_eq, hpayload, insertItems_dot _ _ pre post hpre hline]
      simp
    obtain ⟨run', hidle', hidx', hstart, hrounds⟩ := rounds_dots hidle cmd pre hpre hne hidx hvalid hsize
      rest (EdItem.undot.text ++
        ((if post.isEmpty then [] else insertItems .appendHere [] post).flatMap EdItem.text ++ more))
    rw [hitems, hrounds, rounds_undot hidle']
    cases post with
    | cons line' post =>
      simp only [List.isEmpty_cons, Bool.false_eq_true, if_false]
      refine .inl ?_
      split
      · exact ⟨_, rounds_behind_dot hidle' _ _ _⟩
      · split
        · exact ⟨_, rounds_behind_dot (hidle'.withLines _) _ _ _⟩
        · exact ⟨_, rfl⟩
    | nil =>
      simp only [List.isEmpty_nil, if_true, List.flatMap_nil, List.nil_append]
      split
      · exact .inr ⟨run', pre, line, _, 0, hidle', hpayload, hline, rfl, .inl hidx', rfl⟩
      · rename_i hzero
        split
        · obtain ⟨pos, hpos⟩ := Nat.exists_eq_succ_of_ne_zero hzero
          let idx := run'.lines.idx.set run'.lines.rangeStart (lit ".\n")
          refine .inr ⟨{ run' with lines := { run'.lines with idx } }, pre, line, _, pos,
            hidle'.withLines _, hpayload, hline, rfl, .inr ⟨?_, ?_⟩, rfl⟩
          · intro heq
            cases happ : cmd.appends with
            | true =>
              have := hvalid.bounds.2.2.1 happ
              rw [happ, if_pos rfl] at hstart
              omega
            | false =>
              have := hvalid.bounds.2.2.2 happ
              rw [happ, if_neg Bool.false_ne_true] at hstart
              refine hfits (.inr ⟨happ, ?_, pre, line, hpayload, hpre, hline⟩)
              rw [hpayload, List.length_append, List.length_singleton]
              omega
          · simp only [idx, hidx', hpos, List.cons_append, List.set_cons_succ]
        · exact .inl ⟨_, rfl⟩

end PatchRun

section Drop

variable {α : Type} {cmd : EdCommand α} {n : Nat} {lines : List α}

theorem EdCommand.Valid.mono {m : Nat} (h : cmd.Valid n) (hle : n ≤ m) : cmd.Valid m := by
  cases cmd with
  | append after payload => exact Nat.le_trans h hle
  | change first last payload => exact ⟨h.1, h.2.1, Nat.le_trans h.2.2 hle⟩
  | delete first last => exact ⟨h.1, h.2.1, Nat.le_trans h.2.2 hle⟩

theorem EdCommand.Valid.length (h : cmd.Valid lines.length) :
    (cmd.result lines).length = cmd.below + cmd.payload.length + (lines.length - cmd.last) := by
  have := h.bounds
  rw [cmd.result_eq]
  simp only [List.length_append, List.length_take, List.length_drop]
  omega

theorem EdCommand.Valid.drop (h : cmd.Valid lines.length) :
    (cmd.result lines).drop cmd.below = cmd.payload ++ lines.drop cmd.last := by
  have := h.bounds
  rw [cmd.result_eq, List.append_assoc, List.drop_left' (by rw [List.length_take]; omega)]

/-- Lines that differ behind the next command differ behind it when it is done, too. -/
theorem EdCommand.Valid.drop_ne {lines' : List α} (h : cmd.Valid n) (hn : n ≤ lines.length)
    (hlen : lines.length = lines'.length) (hne : lines.drop n ≠ lines'.drop n) :
    (cmd.result lines).drop cmd.below ≠ (cmd.result lines').drop cmd.below := by
  rw [(h.mono hn).drop, (h.mono (hlen ▸ hn)).drop]
  intro heq
  have hlast := List.append_cancel_left heq
  have := congrArg (List.drop (n - cmd.last)) hlast
  rw [List.drop_drop, List.drop_drop] at this
  have hle := h.bounds.1
  rw [Nat.add_sub_cancel' hle] at this
  exact hne this

end Drop

/-- The lines of the program that stand for the ones of ed. -/
structure Alongside (lines : List Bytes) (buffer : List TextLine) : Prop where
  length : lines.length = buffer.length
  lineLike : ∀ line ∈ lines, LineLike line

namespace Alongside

variable {lines : List Bytes} {buffer : List TextLine}

theorem of_map (buffer : List TextLine) : Alongside (buffer.map TextLine.bytes) buffer := by
  exact ⟨List.length_map _, fun line hline => .inl (terminated_map buffer line hline)⟩

theorem text_eq_iff (h : Alongside lines buffer) :
    lines.flatten = buffer.flatMap TextLine.bytes ↔ lines = buffer.map TextLine.bytes := by
  constructor
  · intro heq
    exact flatten_inj h.lineLike (terminated_map buffer) (by rw [h.length, List.length_map]) heq
  · rintro rfl
    rfl

/-- Lines that are put between two parts of what there is. -/
theorem insert (h : Alongside lines buffer) (first last : Nat) {new : List Bytes} {payload : List TextLine}
    (hnew : Alongside new payload) :
    Alongside (lines.take first ++ new ++ lines.drop last) (buffer.take first ++ payload ++ buffer.drop last) := by
  refine ⟨?_, ?_⟩
  · simp only [List.length_append, List.length_take, List.length_drop, h.length, hnew.length]
  · intro line hline
    simp only [List.mem_append] at hline
    obtain (hline | hline) | hline := hline
    · exact h.lineLike line (List.mem_of_mem_take hline)
    · exact hnew.lineLike line hline
    · exact h.lineLike line (List.mem_of_mem_drop hline)

theorem set (h : Alongside lines buffer) (pos : Nat) {line : Bytes} (hline : LineLike line) :
    Alongside (lines.set pos line) buffer := by
  refine ⟨by rw [List.length_set, h.length], ?_⟩
  intro line' hline'
  obtain hmem | rfl := List.mem_or_eq_of_mem_set hline'
  · exact h.lineLike line' hmem
  · exact hline

theorem result (h : Alongside lines buffer) (cmd : EdCommand TextLine) :
    Alongside ((cmd.map TextLine.bytes).result lines) (cmd.result buffer) := by
  rw [EdCommand.result_eq, EdCommand.result_eq, EdCommand.map_payload, EdCommand.map_last]
  rw [show (cmd.map TextLine.bytes).below = cmd.below by simp [EdCommand.below]]
  exact h.insert cmd.below cmd.last (of_map cmd.payload)

end Alongside

theorem Alongside.results {lines : List Bytes} {buffer : List TextLine} (h : Alongside lines buffer)
    (hunks : List (EdCommand TextLine)) :
    Alongside ((hunks.map (EdCommand.map TextLine.bytes)).foldl EdCommand.result lines)
      (hunks.foldl EdCommand.result buffer) := by
  induction hunks generalizing lines buffer with
  | nil => exact h
  | cons cmd hunks ih => exact ih (h.result cmd)

/-- A hunk that does not fit leaves other lines than ed does at its end. -/
theorem Alongside.unfit {lines idx idx' : List Bytes} {buffer : List TextLine} (h : Alongside lines buffer)
    {cmd : EdCommand TextLine} (hvalid : cmd.Valid lines.length) {pre : List TextLine} {line : TextLine}
    (hpayload : cmd.payload = pre ++ [line]) (hline : line.isDot = true)
    (hidx : idx = (lines.take cmd.below ++ pre.map TextLine.bytes) ++ lit "..\n" :: lines.drop cmd.last)
    {pos : Nat} (hidx' : idx' = idx ∨ (pos ≠ cmd.below + pre.length ∧ idx' = idx.set pos (lit ".\n"))) :
    Alongside idx' (cmd.result buffer) ∧
      idx'.drop cmd.below ≠ ((cmd.result buffer).map TextLine.bytes).drop cmd.below := by
  have hbounds := hvalid.bounds
  have hfront : (lines.take cmd.below ++ pre.map TextLine.bytes).length = cmd.below + pre.length := by
    rw [List.length_append, List.length_take, List.length_map]
    omega
  have hbeside : Alongside idx (cmd.result buffer) := by
    have hnew : Alongside (pre.map TextLine.bytes ++ [lit "..\n"]) cmd.payload := by
      refine ⟨by simp [hpayload], ?_⟩
      intro l hl
      obtain hl | hl := List.mem_append.mp hl
      · exact (Alongside.of_map pre).lineLike l hl
      · exact .inl ⟨.dots, List.mem_singleton.mp hl⟩
    have := h.insert cmd.below cmd.last hnew
    rw [← cmd.result_eq] at this
    rw [hidx]
    simpa using this
  have hdots : idx'[cmd.below + pre.length]? = some (lit "..\n") := by
    have hthere : idx[cmd.below + pre.length]? = some (lit "..\n") := by
      rw [hidx, ← hfront, List.getElem?_append_right (Nat.le_refl _), Nat.sub_self]
      rfl
    obtain rfl | ⟨hpos, rfl⟩ := hidx'
    · exact hthere
    · rw [List.getElem?_set_ne hpos, hthere]
  refine ⟨?_, ?_⟩
  · obtain rfl | ⟨-, rfl⟩ := hidx'
    · exact hbeside
    · exact hbeside.set pos (.inl ⟨.dot, rfl⟩)
  · intro heq
    have hget := congrArg (fun l : List Bytes => l[pre.length]?) heq
    simp only [List.getElem?_drop, hdots] at hget
    have hed : (cmd.result buffer)[cmd.below + pre.length]? = some line := by
      have hlen : (buffer.take cmd.below ++ pre).length = cmd.below + pre.length := by
        rw [List.length_append, List.length_take, ← h.length]
        omega
      rw [cmd.result_eq, hpayload, ← List.append_assoc, List.append_assoc _ [line], ← hlen,
        List.getElem?_append_right (Nat.le_refl _), Nat.sub_self]
      rfl
    rw [List.getElem?_map, hed, Option.map_some, TextLine.bytes_dot hline] at hget
    exact absurd (Option.some.inj hget) (by decide)

/-- The lines that the commands put there. -/
def payloads (hunks : List (EdCommand TextLine)) : Nat := (hunks.map (fun cmd => cmd.payload.length)).sum

def hunkLines (hunks : List (EdCommand TextLine)) : List Bytes :=
  (hunks.flatMap EdCommand.items).flatMap EdItem.text

namespace PatchRun

variable {run : PatchRun}

/-- Hunks that fit are done as their commands say. -/
theorem rounds_hunks (hidle : run.Idle) (hunks : List (EdCommand TextLine))
    (hfits : ∀ cmd ∈ hunks, cmd.Fits) {n : Nat} (hdesc : Descending n hunks) {lines : List Bytes}
    (hn : n ≤ lines.length) (hidx : run.lines.idx = [] :: lines)
    (hsize : lines.length + payloads hunks + hunks.length < 2 ^ 63) (rest : Bytes) (more : List Bytes) :
    ∃ run' : PatchRun, run'.Idle ∧
      run'.lines.idx = [] :: (hunks.map (EdCommand.map TextLine.bytes)).foldl EdCommand.result lines ∧
      run.rounds rest (hunkLines hunks ++ more) = run'.rounds rest more := by
  induction hunks generalizing run lines n with
  | nil => exact ⟨run, hidle, hidx, rfl⟩
  | cons cmd hunks ih =>
    obtain ⟨hcmd, hrest⟩ := List.forall_mem_cons.mp hfits
    obtain ⟨hvalid, hdesc⟩ := hdesc
    rw [payloads, List.map_cons, List.sum_cons, List.length_cons] at hsize
    have hvalid' : (cmd.map TextLine.bytes).Valid lines.length :=
      (cmd.map_valid _ _).mpr (hvalid.mono hn)
    have hlength := hvalid'.length
    rw [EdCommand.map_payload, List.length_map, EdCommand.map_last] at hlength
    have hbelow : (cmd.map TextLine.bytes).below = cmd.below := by simp [EdCommand.below]
    obtain ⟨run', hidle', hidx', hrounds⟩ := rounds_fits hidle cmd hcmd hidx (hvalid.mono hn) (by omega) rest
      (hunkLines hunks ++ more)
    have hbounds := (hvalid.mono hn).bounds
    obtain ⟨run'', hidle'', hidx'', hrounds'⟩ := ih hidle' hrest hdesc (by omega) hidx'
      (by rw [payloads]; omega)
    refine ⟨run'', hidle'', hidx'', ?_⟩
    rw [← hrounds', ← hrounds]
    simp only [hunkLines, List.flatMap_cons, List.flatMap_append, List.append_assoc]

/-- Once there is a wrong line, or a hunk to come that does not fit, the lines at the end are other ones
than those of ed, if the end is reached. -/
theorem rounds_wrong (hidle : run.Idle) (hunks : List (EdCommand TextLine)) {n : Nat}
    (hdesc : Descending n hunks) {lines : List Bytes} {buffer : List TextLine} (h : Alongside lines buffer)
    (hn : n ≤ lines.length) (hidx : run.lines.idx = [] :: lines)
    (hwrong : lines.drop n ≠ (buffer.map TextLine.bytes).drop n ∨ ∃ cmd ∈ hunks, ¬cmd.Fits)
    (hsize : lines.length + payloads hunks + hunks.length < 2 ^ 63) (rest : Bytes) (more : List Bytes) :
    (∃ fin, run.rounds rest (hunkLines hunks ++ more) = .error fin) ∨
      ∃ (run' : PatchRun) (lines' : List Bytes), run'.Idle ∧ run'.lines.idx = [] :: lines' ∧
        Alongside lines' (hunks.foldl EdCommand.result buffer) ∧
        lines' ≠ (hunks.foldl EdCommand.result buffer).map TextLine.bytes ∧
        run.rounds rest (hunkLines hunks ++ more) = run'.rounds rest more := by
  induction hunks generalizing run lines buffer n with
  | nil =>
    refine .inr ⟨run, lines, hidle, hidx, h, ?_, rfl⟩
    obtain hne | ⟨cmd, hmem, -⟩ := hwrong
    · exact fun heq => hne (by rw [heq]; rfl)
    · exact absurd hmem List.not_mem_nil
  | cons cmd hunks ih =>
    obtain ⟨hvalid, hdesc⟩ := hdesc
    rw [payloads, List.map_cons, List.sum_cons, List.length_cons] at hsize
    have hbuffer : n ≤ (buffer.map TextLine.bytes).length := by rw [List.length_map, ← h.length]; exact hn
    have hresult := (hvalid.mono (h.length ▸ hn)).length
    have hbounds := (hvalid.mono hn).bounds
    have hlines : hunkLines (cmd :: hunks) ++ more
        = cmd.items.flatMap EdItem.text ++ (hunkLines hunks ++ more) := by
      simp only [hunkLines, List.flatMap_cons, List.flatMap_append, List.append_assoc]
    rw [hlines]
    by_cases hfits : cmd.Fits
    · obtain ⟨run', hidle', hidx', hrounds⟩ := rounds_fits hidle cmd hfits hidx (hvalid.mono hn) (by omega)
        rest (hunkLines hunks ++ more)
      have hbeside := h.result cmd
      have hlength := hbeside.length
      rw [hresult, ← h.length] at hlength
      rw [hrounds]
      refine ih hidle' hdesc hbeside (by omega) hidx' ?_ (by rw [payloads]; omega)
      obtain hne | ⟨cmd', hmem, hunfit⟩ := hwrong
      · refine .inl ?_
        rw [← EdCommand.map_result]
        have hmapped : (cmd.map TextLine.bytes).Valid n := (cmd.map_valid _ _).mpr hvalid
        have := hmapped.drop_ne hn (by rw [List.length_map, h.length]) hne
        simpa [EdCommand.below] using this
      · obtain rfl | hmem := List.mem_cons.mp hmem
        · exact absurd hfits hunfit
        · exact .inr ⟨cmd', hmem, hunfit⟩
    · obtain herror | ⟨run', pre, line, idx, pos, hidle', hpayload, hline, hidxeq, hidx', hrounds⟩ :=
        rounds_unfit hidle cmd hfits hidx (hvalid.mono hn) (by omega) rest (hunkLines hunks ++ more)
      · exact .inl herror
      · obtain ⟨idx', hidx'⟩ : ∃ idx', run'.lines.idx = [] :: idx' ∧
            (idx' = idx ∨ (pos ≠ cmd.below + pre.length ∧ idx' = idx.set pos (lit ".\n"))) := by
          obtain hidx' | ⟨hpos, hidx'⟩ := hidx'
          · exact ⟨idx, hidx', .inl rfl⟩
          · exact ⟨_, hidx', .inr ⟨hpos, rfl⟩⟩
        obtain ⟨hbeside, hne⟩ := h.unfit (hvalid.mono hn) hpayload hline hidxeq hidx'.2
        have hlength := hbeside.length
        rw [hresult, ← h.length] at hlength
        rw [hrounds]
        exact ih hidle' hdesc hbeside (by omega) hidx'.1 (.inl hne) (by rw [payloads]; omega)

end PatchRun

section Results

variable {α β : Type}

theorem results_map (f : α → β) (hunks : List (EdCommand α)) (lines : List α) :
    (hunks.map (EdCommand.map f)).foldl EdCommand.result (lines.map f) =
      (hunks.foldl EdCommand.result lines).map f := by
  induction hunks generalizing lines with
  | nil => rfl
  | cons cmd hunks ih => rw [List.map_cons, List.foldl_cons, List.foldl_cons, EdCommand.map_result, ih]

/-- Lines that differ behind all commands differ when these are done, too. -/
theorem results_ne (hunks : List (EdCommand α)) {n : Nat} (hdesc : Descending n hunks) {lines lines' : List α}
    (hn : n ≤ lines.length) (hlen : lines.length = lines'.length) (hne : lines.drop n ≠ lines'.drop n) :
    hunks.foldl EdCommand.result lines ≠ hunks.foldl EdCommand.result lines' := by
  induction hunks generalizing lines lines' n with
  | nil => exact fun heq => hne (congrArg (List.drop n) heq)
  | cons cmd hunks ih =>
    obtain ⟨hvalid, hdesc⟩ := hdesc
    have hlength := (hvalid.mono hn).length
    have hlength' := (hvalid.mono (hlen ▸ hn)).length
    exact ih hdesc (by omega) (by omega) (hvalid.drop_ne hn hlen hne)

theorem Descending.map (f : α → β) {hunks : List (EdCommand α)} {n : Nat} (hdesc : Descending n hunks) :
    Descending n (hunks.map (EdCommand.map f)) := by
  induction hunks generalizing n with
  | nil => trivial
  | cons cmd hunks ih =>
    refine ⟨(cmd.map_valid f n).mpr hdesc.1, ?_⟩
    have := ih hdesc.2
    rwa [show cmd.below = (cmd.map f).below by simp [EdCommand.below]] at this

theorem Descending.last_le {hunks : List (EdCommand α)} {n : Nat} (hdesc : Descending n hunks) :
    ∀ cmd ∈ hunks, cmd.last ≤ n := by
  induction hunks generalizing n with
  | nil => simp
  | cons cmd hunks ih =>
    obtain ⟨hvalid, hdesc⟩ := hdesc
    have hbounds := hvalid.bounds
    refine List.forall_mem_cons.mpr ⟨hbounds.1, ?_⟩
    intro cmd' hmem
    have := ih hdesc cmd' hmem
    omega

/-- Lines that differ in the last one of those that the commands are about: the difference goes away with a
command that changes or deletes this one. -/
theorem results_eq_iff (hunks : List (EdCommand α)) {front back : List α} {x y : α} (hxy : x ≠ y)
    (hdesc : Descending (front.length + 1) hunks) :
    hunks.foldl EdCommand.result (front ++ x :: back) = hunks.foldl EdCommand.result (front ++ y :: back) ↔
      ∃ cmd ∈ hunks, cmd.appends = false ∧ cmd.last = front.length + 1 := by
  induction hunks generalizing back with
  | nil => simp [hxy]
  | cons cmd hunks ih =>
    obtain ⟨hvalid, hdesc⟩ := hdesc
    have hbounds := hvalid.bounds
    have hlen (z : α) : (front ++ z :: back).length = front.length + 1 + back.length := by
      rw [List.length_append, List.length_cons]
      omega
    have hvalid' (z : α) : cmd.Valid (front ++ z :: back).length := hvalid.mono (by rw [hlen]; omega)
    rw [List.foldl_cons, List.foldl_cons, List.exists_mem_cons_iff]
    by_cases hlast : cmd.last = front.length + 1
    · have hdrop (z : α) : (front ++ z :: back).drop (front.length + 1) = back := by simp
      cases happ : cmd.appends with
      | false =>
        have hfirst := hbounds.2.2.2 happ
        have htake (z : α) : (front ++ z :: back).take cmd.below = front.take cmd.below :=
          List.take_append_of_le_length (by omega)
        refine iff_of_true ?_ (.inl ⟨rfl, hlast⟩)
        rw [cmd.result_eq, cmd.result_eq, htake, htake, hlast, hdrop, hdrop]
      | true =>
        have hbelow : cmd.below = front.length + 1 := by
          have := hbounds.2.2.1 happ
          omega
        have hresult (z : α) : cmd.result (front ++ z :: back) = front ++ z :: (cmd.payload ++ back) := by
          have htake : (front ++ z :: back).take (front.length + 1) = front ++ [z] := by
            rw [List.take_append, Nat.add_sub_cancel_left, List.take_of_length_le (by omega)]
            rfl
          rw [cmd.result_eq, hlast, hdrop, hbelow, htake]
          simp
        rw [hbelow] at hdesc
        rw [hresult, hresult, ih hdesc]
        simp
    · refine iff_of_false ?_ ?_
      · refine results_ne hunks hdesc ?_ ?_ ?_
        · rw [(hvalid' x).length]
          omega
        · rw [(hvalid' x).length, (hvalid' y).length, hlen, hlen]
        · rw [(hvalid' x).drop, (hvalid' y).drop, List.drop_append_of_le_length (by omega),
            List.drop_append_of_le_length (by omega)]
          simp [hxy]
      · rintro (⟨-, heq⟩ | ⟨cmd', hmem, -, heq⟩)
        · exact hlast heq
        · have := hdesc.last_le cmd' hmem
          omega

end Results

theorem EdItem.text_terminated (item : EdItem) : ∀ line ∈ item.text, Terminated line := by
  have hinput : ∀ (payload : List TextLine) (line : Bytes), line ∈ inputLines payload → Terminated line := by
    intro payload line hline
    obtain hline | hline := List.mem_append.mp hline
    · exact terminated_map payload line hline
    · exact ⟨.dot, List.mem_singleton.mp hline⟩
  cases item with
  | command cmd =>
    rw [PatchRun.text_command]
    refine List.forall_mem_cons.mpr ⟨cmd.text_terminated, ?_⟩
    split
    · simp
    · exact hinput cmd.payload
  | appendHere payload =>
    exact List.forall_mem_cons.mpr ⟨⟨⟨lit "a", by decide +kernel⟩, rfl⟩, hinput payload⟩
  | undot => exact List.forall_mem_singleton.mpr ⟨⟨lit "s/.//", by decide +kernel⟩, rfl⟩
  | write => exact List.forall_mem_singleton.mpr ⟨⟨lit "w", by decide +kernel⟩, rfl⟩

/-- A line has a byte at least. -/
theorem length_le_flatten {lines : List Bytes} (h : ∀ line ∈ lines, Terminated line) :
    lines.length ≤ lines.flatten.length := by
  rw [← count_lines h]
  exact List.count_le_length

theorem payload_le_items (cmd : EdCommand TextLine) :
    cmd.payload.length + 1 ≤ (cmd.items.flatMap EdItem.text).length := by
  have hinput (payload : List TextLine) : (inputLines payload).length = payload.length + 1 := by
    simp [inputLines]
  have hinsert (payload : List TextLine) : ∀ (start : List TextLine → EdItem) (front : List TextLine),
      (∀ lines, lines.length + 1 ≤ (start lines).text.length) →
      front.length + payload.length + 1 ≤ ((insertItems start front payload).flatMap EdItem.text).length := by
    induction payload with
    | nil =>
      intro start front hstart
      rw [insertItems, List.flatMap_singleton]
      exact hstart front
    | cons line payload ih =>
      intro start front hstart
      rw [insertItems]
      split
      · have hdots := hstart (front ++ [.dots])
        rw [List.length_append, List.length_singleton] at hdots
        have hmore : payload.length ≤
            ((if payload.isEmpty then [] else insertItems .appendHere [] payload).flatMap
              EdItem.text).length := by
          split
          · rename_i hempty
            rw [List.isEmpty_iff.mp hempty]
            exact Nat.zero_le _
          · have := ih .appendHere [] (fun lines => by
              rw [EdItem.text, List.length_cons, hinput]
              omega)
            rw [List.length_nil] at this
            omega
        rw [List.flatMap_cons, List.flatMap_cons, List.length_append, List.length_append,
          List.length_cons]
        omega
      · have := ih start (front ++ [line]) hstart
        rw [List.length_append, List.length_singleton] at this
        rw [List.length_cons]
        omega
  by_cases hpayload : cmd.payload = []
  · rw [hpayload, cmd.items_eq, hpayload, insertItems, List.flatMap_singleton, PatchRun.text_command]
    simp
  · rw [cmd.items_eq]
    have := hinsert cmd.payload (fun payload => .command (cmd.withPayload payload)) [] (by
      intro lines
      have hletter : (cmd.withPayload lines).letter ≠ 100 := by
        cases cmd with
        | delete first last => exact absurd rfl hpayload
        | append after payload => exact (by decide : (97 : UInt8) ≠ 100)
        | change first last payload => exact (by decide : (99 : UInt8) ≠ 100)
      rw [PatchRun.text_command, if_neg hletter, List.length_cons, hinput,
        cmd.withPayload_payload lines hpayload]
      omega)
    rwa [List.length_nil, Nat.zero_add] at this

theorem payloads_le_lines (hunks : List (EdCommand TextLine)) :
    payloads hunks + hunks.length ≤ (hunkLines hunks).length := by
  induction hunks with
  | nil => simp [payloads, hunkLines]
  | cons cmd hunks ih =>
    have hcmd := payload_le_items cmd
    rw [payloads, List.map_cons, List.sum_cons, hunkLines, List.flatMap_cons, List.flatMap_append,
      List.length_append, List.length_cons]
    rw [payloads, hunkLines] at ih
    omega

theorem EdItem.text_last (item : EdItem) :
    ∃ (front : List Bytes) (line : TextLine), item.text = front ++ [line.bytes] ∧ line.text ≠ [] := by
  cases item with
  | command cmd =>
    by_cases hletter : cmd.letter = 100
    · obtain ⟨line, hline⟩ := cmd.text_terminated
      refine ⟨[], line, by rw [PatchRun.text_command, if_pos hletter, hline]; rfl, ?_⟩
      obtain ⟨c, front, -, -, htext⟩ := cmd.text_eq
      rw [htext] at hline
      intro hnil
      rw [TextLine.bytes, hnil] at hline
      simp at hline
    · refine ⟨(cmd.text ++ [10]) :: cmd.payload.map TextLine.bytes, .dot, ?_, by decide +kernel⟩
      rw [PatchRun.text_command, if_neg hletter]
      rfl
  | appendHere payload => exact ⟨lit "a\n" :: payload.map TextLine.bytes, .dot, rfl, by decide +kernel⟩
  | undot => exact ⟨[], ⟨lit "s/.//", by decide +kernel⟩, rfl, by decide +kernel⟩
  | write => exact ⟨[], ⟨lit "w", by decide +kernel⟩, rfl, by decide +kernel⟩

namespace EdScript

variable (script : EdScript)

/-- The lines of the script with all their newlines. -/
def lines : List Bytes := script.items.flatMap EdItem.text

theorem lines_eq : script.lines = hunkLines script.hunks ++ if script.write then EdItem.write.text else [] := by
  rw [lines, items, List.flatMap_append, hunkLines]
  cases script.write <;> rfl

theorem lines_terminated : ∀ line ∈ script.lines, Terminated line := by
  intro line hline
  obtain ⟨item, -, hmem⟩ := List.mem_flatMap.mp hline
  exact item.text_terminated line hmem

/-- A script whose newlines are all there, or without a line. -/
theorem read_whole (h : script.newline = true ∨ script.lines = []) :
    strchrLines script.text = (script.lines, []) ∧ (script.text ≠ [] → script.newline = true) ∧
      payloads script.hunks + script.hunks.length ≤ script.text.length := by
  have htext : script.text = script.lines.flatten := by
    rw [text, lines]
    obtain h | h := h
    · rw [h]
      rfl
    · rw [lines] at h
      rw [h]
      cases script.newline <;> rfl
  refine ⟨by rw [htext, strchrLines_all script.lines_terminated], ?_, ?_⟩
  · intro hne
    obtain h | h := h
    · exact h
    · rw [htext, h] at hne
      exact absurd rfl hne
  · have hcount := payloads_le_lines script.hunks
    have hlength := length_le_flatten script.lines_terminated
    rw [← htext, lines_eq, List.length_append] at hlength
    omega

/-- Without its last newline a script ends in the middle of a line. -/
theorem read_cut (hnewline : script.newline = false) (hlines : script.lines ≠ []) :
    (strchrLines script.text).2 ≠ [] ∧ script.text ≠ [] := by
  have hitems : script.items ≠ [] := by
    intro h
    rw [lines, h] at hlines
    exact hlines rfl
  obtain ⟨init, item, hitems⟩ := (List.eq_nil_or_concat' script.items).resolve_left hitems
  obtain ⟨front, line, hitem, hline⟩ := item.text_last
  have heq : script.lines = init.flatMap EdItem.text ++ front ++ [line.bytes] := by
    rw [lines, hitems, List.flatMap_append, List.flatMap_singleton, hitem, List.append_assoc]
  have hterminated : ∀ line ∈ init.flatMap EdItem.text ++ front, Terminated line := by
    intro line' hmem
    refine script.lines_terminated line' ?_
    rw [heq]
    exact List.mem_append_left _ hmem
  have htext : script.text = (init.flatMap EdItem.text ++ front).flatten ++ line.text := by
    have hwhole : (script.items.flatMap EdItem.text).flatten = script.lines.flatten := rfl
    rw [text, hnewline, hwhole, heq, List.flatten_append, List.flatten_singleton, TextLine.bytes,
      ← List.append_assoc]
    simp
  rw [htext, strchrLines_lines hterminated, strchrLines_plain line.plain]
  exact ⟨hline, by simp [hline]⟩

end EdScript

namespace EdBuffer

theorem hunks_step (hunks : List (EdCommand TextLine)) {n : Nat} (hdesc : Descending n hunks) (st : EdBuffer)
    (hn : n ≤ st.lines.length) :
    ((hunks.flatMap EdCommand.items).foldl step st).lines = hunks.foldl EdCommand.result st.lines := by
  induction hunks generalizing n st with
  | nil => rfl
  | cons cmd hunks ih =>
    obtain ⟨hvalid, hdesc⟩ := hdesc
    have hstep := items_step cmd st (hvalid.mono hn)
    have hlength := (hvalid.mono hn).length
    rw [List.flatMap_cons, List.foldl_append, ih hdesc, hstep, List.foldl_cons]
    rw [hstep]
    omega

end EdBuffer

/-- ed has the lines of all commands, one after the other. -/
theorem EdScript.result_eq (script : EdScript) (base : TextFile)
    (hdesc : Descending base.edLines.length script.hunks) :
    script.result base = (script.hunks.foldl EdCommand.result base.edLines).flatMap TextLine.bytes := by
  have hhunks := EdBuffer.hunks_step script.hunks hdesc ⟨base.edLines, base.edLines.length⟩ (Nat.le_refl _)
  rw [result, items, List.foldl_append]
  cases script.write with
  | false => exact congrArg (List.flatMap TextLine.bytes) hhunks
  | true => exact congrArg (List.flatMap TextLine.bytes) hhunks

namespace TextFile

variable (base : TextFile)

/-- The lines as the program has them. -/
def rawLines : List Bytes :=
  base.lines.map TextLine.bytes ++ base.last.elim [] (fun last => [last.1.text])

theorem beside : Alongside base.rawLines base.edLines := by
  cases hlast : base.last with
  | none =>
    rw [rawLines, edLines, hlast, Option.elim_none, Option.elim_none, List.append_nil, List.append_nil]
    exact Alongside.of_map base.lines
  | some last =>
    rw [rawLines, edLines, hlast]
    refine ⟨by simp, ?_⟩
    intro line hline
    obtain hline | hline := List.mem_append.mp hline
    · exact (Alongside.of_map base.lines).lineLike line hline
    · rw [List.mem_singleton.mp hline]
      exact .inr (fun hmem => (last.1.plain 10 hmem).1 rfl)

theorem strchrLines_bytes :
    strchrLines base.bytes = (base.lines.map TextLine.bytes, base.last.elim [] (fun last => last.1.text)) := by
  have hbytes : base.bytes = (base.lines.map TextLine.bytes).flatten ++
      base.last.elim [] (fun last => last.1.text) := rfl
  rw [hbytes, strchrLines_lines (terminated_map base.lines), strchrLines_plain, List.append_nil]
  cases base.last with
  | none => simp
  | some last => exact last.1.plain

theorem length_edLines_le : base.edLines.length ≤ base.bytes.length := by
  have hlines : base.lines.length ≤ (base.lines.flatMap TextLine.bytes).length := by
    have := length_le_flatten (terminated_map base.lines)
    rwa [List.length_map] at this
  rw [edLines, bytes, List.length_append, List.length_append]
  cases base.last with
  | none => simpa using hlines
  | some last =>
    have := List.length_pos_of_ne_nil last.2
    simp only [Option.elim_some, List.length_singleton]
    omega

end TextFile

/-- `patch_file` gets to the end of the base file or not. -/
theorem patchFile_written_iff (pageSize : Nat) (base : TextFile) (script text : Bytes) :
    patchFile pageSize base.bytes script = .written text ↔
      (base.last.isSome → base.bytes.length % pageSize ≠ 0) ∧ (strchrLines script).2 = [] ∧
        ∃ run, ({ lines := { idx := [] :: base.rawLines } } : PatchRun).rounds [] (strchrLines script).1
          = .ok run ∧ run.lines.idx.flatten = text := by
  have hlast : base.last.isSome = true ↔ base.last.elim [] (fun last => last.1.text) ≠ [] := by
    cases base.last with
    | none => simp
    | some last => simpa using last.2
  have hraw : base.lines.map TextLine.bytes ++
      (if base.last.elim [] (fun last => last.1.text) = [] then []
        else [base.last.elim [] (fun last => last.1.text)]) = base.rawLines := by
    rw [TextFile.rawLines]
    cases base.last with
    | none => rfl
    | some last => rw [Option.elim_some, Option.elim_some, if_neg last.2]
  have hends : strchrEnds pageSize base.bytes (base.last.elim [] (fun last => last.1.text))
      = (base.bytes.length % pageSize != 0) := by
    have hno : (base.last.elim [] (fun last => last.1.text)).contains 0 = false := by
      cases base.last with
      | none => rfl
      | some last =>
        rw [Option.elim_some, ← Bool.not_eq_true, List.contains_iff_mem]
        exact fun hmem => (last.1.plain 0 hmem).2 rfl
    rw [strchrEnds, hno, Bool.false_or]
  rw [patchFile, base.strchrLines_bytes]
  simp only [hraw, hends]
  by_cases hfault : base.last.isSome = true ∧ base.bytes.length % pageSize = 0
  · have hne := hlast.mp hfault.1
    simp [hfault.2, hne, hfault.1]
  · have hmod : base.last.isSome = true → base.bytes.length % pageSize ≠ 0 :=
      fun hsome h => hfault ⟨hsome, h⟩
    have hopen : ¬((decide (base.last.elim [] (fun last => last.1.text) ≠ []) &&
        !(base.bytes.length % pageSize != 0)) = true) := by
      rw [Bool.and_eq_true, decide_eq_true_eq, ← hlast]
      rintro ⟨hsome, h⟩
      have := hmod hsome
      simp [this] at h
    rw [if_neg hopen, and_iff_right hmod]
    obtain ⟨hunks, rest⟩ := strchrLines script
    simp only
    by_cases hrest : rest = []
    · subst hrest
      cases hrounds : ({ lines := { idx := [] :: base.rawLines } } : PatchRun).rounds [] hunks with
      | error fin => simpa using PatchRun.rounds_error _ hrounds text
      | ok run => simp
    · refine iff_of_false ?_ (fun h => hrest h.1)
      cases hrounds : ({ lines := { idx := [] :: base.rawLines } } : PatchRun).rounds rest hunks with
      | error fin => simpa using PatchRun.rounds_error _ hrounds text
      | ok run =>
        simp only [hrest, if_false]
        split
        · simp
        · cases hround : run.round rest [] with
          | error fin => simpa using PatchRun.round_error _ hround text
          | ok run => simp

theorem PatchRun.rounds_end {run : PatchRun} (hidle : run.Idle) (write : Bool) :
    run.rounds [] (if write then EdItem.write.text else []) = .ok run := by
  cases write with
  | false => rfl
  | true =>
    have := rounds_write hidle [] []
    rwa [List.append_nil] at this

namespace EdScript

variable (script : EdScript) (base : TextFile) (hdesc : Descending base.edLines.length script.hunks)
  (hsize : base.edLines.length + payloads script.hunks + script.hunks.length < 2 ^ 63)
include hdesc hsize

theorem rounds_fit (hfits : ∀ cmd ∈ script.hunks, cmd.Fits) :
    ∃ run, ({ lines := { idx := [] :: base.rawLines } } : PatchRun).rounds [] script.lines = .ok run ∧
      run.lines.idx = [] ::
        (script.hunks.map (EdCommand.map TextLine.bytes)).foldl EdCommand.result base.rawLines := by
  have hlength := base.beside.length
  have hstart : ({ lines := { idx := [] :: base.rawLines } } : PatchRun).Idle := ⟨rfl, rfl⟩
  obtain ⟨run, hidle, hidx, hrounds⟩ := PatchRun.rounds_hunks hstart script.hunks hfits hdesc (by omega) rfl
    (by omega) [] (if script.write then EdItem.write.text else [])
  refine ⟨run, ?_, hidx⟩
  rw [script.lines_eq, hrounds, PatchRun.rounds_end hidle]

theorem rounds_unfit (hunfit : ∃ cmd ∈ script.hunks, ¬cmd.Fits) (run : PatchRun)
    (h : ({ lines := { idx := [] :: base.rawLines } } : PatchRun).rounds [] script.lines = .ok run) :
    run.lines.idx.flatten ≠
      (script.hunks.foldl EdCommand.result base.edLines).flatMap TextLine.bytes := by
  have hlength := base.beside.length
  have hstart : ({ lines := { idx := [] :: base.rawLines } } : PatchRun).Idle := ⟨rfl, rfl⟩
  rw [script.lines_eq] at h
  obtain ⟨fin, hfin⟩ | ⟨run', lines, hidle, hidx, hbeside, hne, hrounds⟩ :=
    PatchRun.rounds_wrong hstart script.hunks hdesc base.beside (by omega) rfl (.inr hunfit) (by omega) []
      (if script.write then EdItem.write.text else [])
  · rw [hfin] at h
    cases h
  · rw [hrounds, PatchRun.rounds_end hidle] at h
    cases h
    rw [hidx]
    exact fun heq => hne (hbeside.text_eq_iff.mp heq)

end EdScript

/-- The lines of the program are those of ed behind all hunks if a last line without a newline is not there
any more. -/
theorem rawLines_results_iff (base : TextFile) (hunks : List (EdCommand TextLine))
    (hdesc : Descending base.edLines.length hunks) :
    ((hunks.map (EdCommand.map TextLine.bytes)).foldl EdCommand.result base.rawLines).flatten =
        (hunks.foldl EdCommand.result base.edLines).flatMap TextLine.bytes ↔
      (base.last.isSome → ∃ cmd ∈ hunks, cmd.appends = false ∧ cmd.last = base.edLines.length) := by
  rw [(base.beside.results hunks).text_eq_iff, ← results_map]
  cases hlast : base.last with
  | none =>
    have hraw : base.rawLines = base.edLines.map TextLine.bytes := by
      rw [TextFile.rawLines, TextFile.edLines, hlast]
      simp
    simp [hraw]
  | some last =>
    have hraw : base.rawLines = base.lines.map TextLine.bytes ++ last.1.text :: [] := by
      rw [TextFile.rawLines, hlast]
      rfl
    have hed : base.edLines = base.lines ++ [last.1] := by
      rw [TextFile.edLines, hlast]
      rfl
    have hed' : base.edLines.map TextLine.bytes = base.lines.map TextLine.bytes ++ last.1.bytes :: [] := by
      rw [hed, List.map_append]
      rfl
    have hne : last.1.text ≠ last.1.bytes := by
      intro h
      have := congrArg List.length h
      rw [TextLine.bytes, List.length_append, List.length_singleton] at this
      omega
    have hlength : base.edLines.length = (base.lines.map TextLine.bytes).length + 1 := by
      rw [hed, List.length_append, List.length_map]
      rfl
    have hmapped := hdesc.map TextLine.bytes
    rw [hlength] at hmapped
    rw [hraw, hed', results_eq_iff _ hne hmapped, hlength]
    simp

/-- What `patch_file` writes for a script of diff is the text of ed if and only if no line of the script is cut,
every hunk fits, and a last line of the base file without a newline is changed or deleted and can be read. -/
theorem patchFile_result_iff (pageSize : Nat) (base : TextFile) (script : EdScript)
    (hdesc : Descending base.edLines.length script.hunks)
    (hsize : base.bytes.length + script.text.length < 2 ^ 63) :
    patchFile pageSize base.bytes script.text = .written (script.result base) ↔
      (script.text ≠ [] → script.newline = true) ∧ (∀ cmd ∈ script.hunks, cmd.Fits) ∧
        (base.last.isSome → base.bytes.length % pageSize ≠ 0 ∧
          ∃ cmd ∈ script.hunks, cmd.appends = false ∧ cmd.last = base.edLines.length) := by
  rw [patchFile_written_iff, script.result_eq base hdesc]
  by_cases hwhole : script.newline = true ∨ script.lines = []
  · obtain ⟨hread, hnewline, hcount⟩ := script.read_whole hwhole
    have hlength := base.length_edLines_le
    have hlines : base.edLines.length + payloads script.hunks + script.hunks.length < 2 ^ 63 := by omega
    simp only [hread, true_and, and_iff_right hnewline]
    by_cases hfits : ∀ cmd ∈ script.hunks, cmd.Fits
    · obtain ⟨run, hrounds, hidx⟩ := script.rounds_fit base hdesc hlines hfits
      have hresults := rawLines_results_iff base script.hunks hdesc
      rw [hrounds, and_iff_right hfits, imp_and, ← hresults]
      simp [hidx]
    · refine iff_of_false ?_ (fun h => hfits h.1)
      rintro ⟨-, run, hrounds, htext⟩
      exact script.rounds_unfit base hdesc hlines (by simpa using hfits) run hrounds htext
  · rw [not_or, Bool.not_eq_true] at hwhole
    have hcut := script.read_cut hwhole.1 hwhole.2
    refine iff_of_false (fun h => hcut.1 h.2.1) ?_
    intro h
    have := h.1 hcut.2
    rw [hwhole.1] at this
    exact absurd this (by simp)

/-- A lone dot that is appended is written with both of its dots, over the line in front of it, and the script
`1d` without its newline ends the program. -/
theorem patchFile_dot_and_cut :
    let one : LineNumber := ⟨lit "1", by decide +kernel, by decide +kernel⟩
    let base : TextFile := ⟨[⟨lit "x", by decide +kernel⟩], none⟩
    let added : EdScript := ⟨[.append one [.dot]], true, true⟩
    let cut : EdScript := ⟨[.delete one none], false, false⟩
    Descending base.edLines.length added.hunks ∧ added.text = lit "1a\n..\n.\ns/.//\nw\n" ∧
      added.result base = lit "x\n.\n" ∧
      patchFile 4096 base.bytes added.text = .written (lit ".\n..\n") ∧
      Descending base.edLines.length cut.hunks ∧ cut.text = lit "1d" ∧ cut.result base = [] ∧
      patchFile 4096 base.bytes cut.text = .fault := by
  refine ⟨⟨Nat.le_refl _, trivial⟩, ?_, ?_, ?_, ⟨⟨Nat.le_refl _, Nat.le_refl _, Nat.le_refl _⟩, trivial⟩,
    ?_, ?_, ?_⟩ <;> decide +kernel

/-- A change of the last line, which has no newline, to two lines of which the second one is a lone dot. -/
theorem patchFile_result_iff_change :
    let one : LineNumber := ⟨lit "1", by decide +kernel, by decide +kernel⟩
    let x : TextLine := ⟨lit "x", by decide +kernel⟩
    let base : TextFile := ⟨[], some ⟨x, by decide +kernel⟩⟩
    let script : EdScript := ⟨[.change one none [x, .dot]], true, true⟩
    patchFile 4096 base.bytes script.text = .written (script.result base) ∧
      script.text = lit "1c\nx\n..\n.\ns/.//\nw\n" ∧ script.result base = lit "x\n.\n" := by
  intro one x base script
  have hdesc : Descending base.edLines.length script.hunks :=
    ⟨⟨Nat.le_refl _, Nat.le_refl _, Nat.le_refl _⟩, trivial⟩
  refine ⟨(patchFile_result_iff 4096 base script hdesc (by decide +kernel)).mpr ⟨fun _ => rfl, ?_, fun _ => ?_⟩,
    by decide +kernel, by decide +kernel⟩
  · exact List.forall_mem_singleton.mpr (.inr ⟨rfl, by decide +kernel, [x], .dot, rfl,
      List.forall_mem_singleton.mpr rfl, rfl⟩)
  · exact ⟨by decide +kernel, _, List.mem_singleton_self _, rfl, by decide +kernel⟩

end Acng
