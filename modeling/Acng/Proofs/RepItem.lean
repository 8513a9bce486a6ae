import Acng.Lib.Find
import Acng.Lib.Separators
import Acng.RepItem

namespace Acng
open Lib

theorem completeLines_last {s : Bytes} (h : 10 ∉ s) : completeLines s = ([], s) := by
  rw [completeLines, List.splitOn_eq_singleton h]
  rfl

theorem completeLines_line {line : Bytes} (h : 10 ∉ line) (s : Bytes) :
    completeLines (line ++ 10 :: s) = (line :: (completeLines s).1, (completeLines s).2) := by
  obtain ⟨front, chunks, hs⟩ := List.exists_cons_of_ne_nil (List.splitOn_ne_nil 10 s)
  rw [completeLines, completeLines, List.splitOn_append_cons_self, List.splitOn_eq_singleton h, hs]
  rfl

/-- A text has no newline, or a first line. -/
theorem line_cases (s : Bytes) : 10 ∉ s ∨ ∃ line more, s = line ++ 10 :: more ∧ (10 : UInt8) ∉ line := by
  by_cases h : (10 : UInt8) ∈ s
  · exact .inr (List.eq_append_cons_of_mem h)
  · exact .inl h

/-- The text behind the last newline. -/
theorem completeLines_behind (s : Bytes) {rest : Bytes} (h : 10 ∉ rest) :
    (completeLines (s ++ 10 :: rest)).1 ≠ [] ∧ (completeLines (s ++ 10 :: rest)).2 = rest := by
  rw [completeLines, List.splitOn_append_cons_self, List.splitOn_eq_singleton h]
  simp [List.splitOn_ne_nil]

theorem maark_ne : maark ≠ [] := by decide

theorem newline_not_mem_maark : (10 : UInt8) ∉ maark := by decide

theorem find_maark_front (s : Bytes) : find maark (maark ++ s) = some 0 := by
  obtain ⟨c, key, hkey⟩ := List.exists_cons_of_ne_nil maark_ne
  have hfront : maark.isPrefixOf (c :: (key ++ s)) = true :=
    List.isPrefixOf_iff_prefix.mpr ⟨s, by rw [hkey]; rfl⟩
  rw [show maark ++ s = c :: (key ++ s) by rw [hkey]; rfl, find, if_pos hfront]

/-- A line ends in the key, or in the key and one more byte. -/
def Stuck (line : Bytes) : Prop := find maark (line.drop (line.length - (maark.length + 1))) ≠ none

instance (line : Bytes) : Decidable (Stuck line) := inferInstanceAs (Decidable (_ ≠ none))

/-- A text from its first key on, if there is one. -/
def fromKey (s : Bytes) : Bytes := s.drop ((find maark s).getD 0)

theorem exists_key {s : Bytes} {pos : Nat} (h : find maark s = some pos) :
    ∃ front back, s = front ++ (maark ++ back) ∧ front.length = pos := by
  obtain ⟨back, hback⟩ := find_prefix h
  refine ⟨s.take pos, back, by rw [hback, List.take_append_drop], ?_⟩
  have := find_le maark s pos h
  rw [List.length_take]
  omega

namespace RepItem

variable (item : RepItem)

/-- An unfinished line. -/
theorem round_rest {s : Bytes} (h : 10 ∉ s) :
    item.round s =
      .returned (if find maark s = none then item else { item with prevRest := fromKey s }) := by
  rw [round, fromKey]
  cases hkey : find maark s with
  | none => simp [rfind_eq_none.mpr h]
  | some pos =>
    have hnl : (s.drop pos).idxOf? 10 = none :=
      List.idxOf?_eq_none_iff.mpr (fun hmem => h (List.mem_of_mem_drop hmem))
    simp [hnl]

/-- Lines without a key are left out. -/
theorem round_no_key {line more : Bytes} (h : find maark (line ++ 10 :: more) = none) :
    item.round (line ++ 10 :: more) =
      .returned { item with prevRest := (completeLines (line ++ 10 :: more)).2 } := by
  have hmem : (10 : UInt8) ∈ line ++ 10 :: more := by simp
  obtain ⟨pos, hpos⟩ := Option.ne_none_iff_exists'.mp (fun hnone => rfind_eq_none.mp hnone hmem)
  have hsplit := rfind_some hpos
  have hrest := (completeLines_behind ((line ++ 10 :: more).take pos) (rfind_not_mem_drop hpos)).2
  rw [← hsplit] at hrest
  simp only [round, h, hpos, hrest]

theorem round_skip {line more : Bytes} (hline : find maark line = none) {pos : Nat}
    (hmore : find maark more = some pos) : item.round (line ++ 10 :: more) = item.round more := by
  have hfind : find maark (line ++ 10 :: more) = some (pos + (line.length + 1)) := by
    rw [find_sep newline_not_mem_maark maark_ne, hline, hmore]
    rfl
  have hdrop : (line ++ 10 :: more).drop (pos + (line.length + 1)) = more.drop pos := by
    rw [Nat.add_comm, ← List.drop_drop]
    simp
  simp only [round, hfind, hmore, hdrop]

theorem find_key {front back : Bytes} (hkey : find maark (front ++ (maark ++ back)) = some front.length)
    (more : Bytes) : find maark (front ++ (maark ++ back) ++ 10 :: more) = some front.length := by
  rw [find_sep newline_not_mem_maark maark_ne, hkey]
  rfl

theorem idxOf?_key {front back : Bytes} (hline : 10 ∉ front ++ (maark ++ back)) (more : Bytes) :
    ((front ++ (maark ++ back) ++ 10 :: more).drop front.length).idxOf? 10 =
      some (maark ++ back).length := by
  rw [List.append_assoc, List.drop_left]
  exact idxOf?_sep more (fun h => hline (List.mem_append_right front h))

theorem take_key (front back more : Bytes) :
    (((front ++ (maark ++ back) ++ 10 :: more).drop front.length).take (maark ++ back).length).drop
      maark.length = back := by
  rw [List.append_assoc, List.drop_left, List.take_left, List.drop_left]

/-- A newline directly behind the first key. -/
theorem round_key_end {front : Bytes} (hkey : find maark (front ++ (maark ++ [])) = some front.length)
    (hline : 10 ∉ front ++ (maark ++ [])) (more : Bytes) :
    item.round (front ++ (maark ++ []) ++ 10 :: more) = .outside := by
  simp only [round, find_key hkey, idxOf?_key hline, take_key]

/-- The line of the first key. The loop goes on with so many last bytes of it. -/
theorem round_key {front msg : Bytes} {msgType : UInt8}
    (hkey : find maark (front ++ (maark ++ msgType :: msg)) = some front.length)
    (hline : 10 ∉ front ++ (maark ++ msgType :: msg)) (more : Bytes) :
    item.round (front ++ (maark ++ msgType :: msg) ++ 10 :: more) =
      .again (if msg = [] then item else item.report .value msgType msg)
        ((maark ++ msgType :: msg).drop msg.length ++ 10 :: more) := by
  have hdrop : ((front ++ (maark ++ msgType :: msg) ++ 10 :: more).drop front.length).drop msg.length
      = (maark ++ msgType :: msg).drop msg.length ++ 10 :: more := by
    rw [List.append_assoc, List.drop_left, List.drop_append_of_le_length]
    rw [List.length_append, List.length_cons]
    omega
  simp only [round, find_key hkey, idxOf?_key hline, take_key, hdrop]
  cases msg with
  | nil => rfl
  | cons c msg => rfl

/-- An item that is told a line. -/
def addLine (types : ControLineType) (item : RepItem) (line : Bytes) : RepItem :=
  (types.message line).elim item item.tell

theorem addLine_no_key (types : ControLineType) {line : Bytes} (h : find maark line = none) :
    item.addLine types line = item := by
  rw [addLine, ControLineType.message, controlLine, h]
  rfl

theorem addLine_key (types : ControLineType) {front msg : Bytes} {msgType : UInt8}
    (hkey : find maark (front ++ (maark ++ msgType :: msg)) = some front.length) :
    item.addLine types (front ++ (maark ++ msgType :: msg)) = item.report types msgType msg := by
  have hdrop : (front ++ (maark ++ msgType :: msg)).drop (front.length + maark.length) = msgType :: msg := by
    rw [← List.drop_drop, List.drop_left, List.drop_left]
  rw [addLine, ControLineType.message, controlLine, hkey, Option.bind_some, hdrop]
  simp only [Option.bind_some, report]
  split
  · rfl
  · split <;> rfl

end RepItem

/-- Where there is no key in a text, there is none in the end of it. -/
theorem not_stuck {line : Bytes} (h : find maark line = none) : ¬Stuck line := by
  intro hstuck
  obtain ⟨pos, hpos⟩ := Option.ne_none_iff_exists'.mp hstuck
  have hprefix := find_prefix hpos
  rw [List.drop_drop] at hprefix
  obtain ⟨p, -, hp⟩ := find_first maark_ne hprefix
  rw [h] at hp
  cases hp

theorem stuck_end (front : Bytes) : Stuck (front ++ (maark ++ [])) := by
  have hlen : (front ++ (maark ++ [])).length - (maark.length + 1) = front.length - 1 := by
    rw [List.length_append, List.append_nil]
    omega
  have hprefix : maark <+: ((front ++ (maark ++ [])).drop (front.length - 1)).drop
      (front.length - (front.length - 1)) := by
    rw [List.drop_drop, Nat.add_sub_cancel' (Nat.sub_le _ _), List.drop_left]
    exact List.prefix_append maark []
  obtain ⟨pos, -, hpos⟩ := find_first maark_ne hprefix
  rw [Stuck, hlen, hpos]
  simp

/-- The last bytes of a line that its end depends on. -/
theorem stuck_iff (front msg : Bytes) (msgType : UInt8) :
    (Stuck (front ++ (maark ++ msgType :: msg)) ↔
      find maark ((maark ++ msgType :: msg).drop msg.length) ≠ none) ∧
    (Stuck ((maark ++ msgType :: msg).drop msg.length) ↔
      find maark ((maark ++ msgType :: msg).drop msg.length) ≠ none) := by
  have hlength : (maark ++ msgType :: msg).length = maark.length + 1 + msg.length := by
    rw [List.length_append, List.length_cons]
    omega
  constructor
  · have hlen : (front ++ (maark ++ msgType :: msg)).length - (maark.length + 1)
        = front.length + msg.length := by
      rw [List.length_append, hlength]
      omega
    rw [Stuck, hlen, ← List.drop_drop, List.drop_left]
  · have hlen : ((maark ++ msgType :: msg).drop msg.length).length - (maark.length + 1) = 0 := by
      rw [List.length_drop, hlength]
      omega
    rw [Stuck, hlen, List.drop_zero]

theorem no_key_lines {s : Bytes} (h : find maark s = none) :
    (∀ line ∈ (completeLines s).1, find maark line = none) ∧ find maark (completeLines s).2 = none := by
  induction s using line_induction 10 with
  | rest s hs =>
    rw [completeLines_last hs]
    exact ⟨by simp, h⟩
  | line line more hline ih =>
    rw [find_sep newline_not_mem_maark maark_ne, Option.or_eq_none_iff, Option.map_eq_none_iff] at h
    have hmore := ih h.2
    rw [completeLines_line hline]
    exact ⟨List.forall_mem_cons.mpr ⟨h.1, hmore.1⟩, hmore.2⟩

/-- How the loop goes through a text. -/
inductive KeyScan : Bytes → Prop
  | rest {s : Bytes} (hs : 10 ∉ s) : KeyScan s
  | noKey {line more : Bytes} (hline : 10 ∉ line) (hkey : find maark (line ++ 10 :: more) = none) :
      KeyScan (line ++ 10 :: more)
  | skip {line more : Bytes} {pos : Nat} (hline : 10 ∉ line) (hkey : find maark line = none)
      (hmore : find maark more = some pos) (next : KeyScan more) : KeyScan (line ++ 10 :: more)
  | keyEnd {front more : Bytes} (hline : 10 ∉ front ++ (maark ++ []))
      (hkey : find maark (front ++ (maark ++ [])) = some front.length) :
      KeyScan (front ++ (maark ++ []) ++ 10 :: more)
  | empty {front more : Bytes} {msgType : UInt8} (hline : 10 ∉ front ++ (maark ++ [msgType]))
      (hkey : find maark (front ++ (maark ++ [msgType])) = some front.length) :
      KeyScan (front ++ (maark ++ [msgType]) ++ 10 :: more)
  | message {front msg more : Bytes} {msgType : UInt8} (hmsg : msg ≠ [])
      (hline : 10 ∉ front ++ (maark ++ msgType :: msg))
      (hkey : find maark (front ++ (maark ++ msgType :: msg)) = some front.length)
      (next : KeyScan ((maark ++ msgType :: msg).drop msg.length ++ 10 :: more)) :
      KeyScan (front ++ (maark ++ msgType :: msg) ++ 10 :: more)

theorem keyScan (s : Bytes) : KeyScan s := by
  induction hn : s.length using Nat.strong_induction_on generalizing s with
  | _ n ih =>
    subst hn
    obtain hs | ⟨line, more, rfl, hline⟩ := line_cases s
    · exact .rest hs
    have hmore : KeyScan more := by
      refine ih more.length ?_ more rfl
      rw [List.length_append, List.length_cons]
      omega
    cases hkey : find maark line with
    | none =>
      cases hrest : find maark more with
      | none =>
        refine .noKey hline ?_
        rw [find_sep newline_not_mem_maark maark_ne, hkey, hrest]
        rfl
      | some pos => exact .skip hline hkey hrest hmore
    | some pos =>
      obtain ⟨front, back, rfl, rfl⟩ := exists_key hkey
      cases back with
      | nil => exact .keyEnd hline hkey
      | cons msgType msg =>
        by_cases hmsg : msg = []
        · subst hmsg
          exact .empty hline hkey
        · refine .message hmsg hline hkey (ih _ ?_ _ rfl)
          have := List.length_pos_of_ne_nil hmsg
          simp only [List.length_append, List.length_drop, List.length_cons]
          omega

namespace RepItem

theorem foldl_no_key {types : ControLineType} (item : RepItem) {lines : List Bytes}
    (h : ∀ line ∈ lines, find maark line = none) : lines.foldl (addLine types) item = item := by
  induction lines with
  | nil => rfl
  | cons line lines ih =>
    obtain ⟨hline, hlines⟩ := List.forall_mem_cons.mp h
    rw [List.foldl_cons, addLine_no_key item types hline, ih hlines]

/-- The same key is found again and again. -/
theorem loop_empty {front more : Bytes} {msgType : UInt8} (hline : 10 ∉ front ++ (maark ++ [msgType]))
    (hkey : find maark (front ++ (maark ++ [msgType])) = some front.length) (item : RepItem) (n : Nat) :
    loop n item (front ++ (maark ++ [msgType]) ++ 10 :: more) = none := by
  induction n generalizing front item with
  | zero => rfl
  | succ n ih =>
    rw [loop, round_key item hkey hline]
    exact @ih [] (fun h => hline (List.mem_append_right front h)) (find_maark_front [msgType]) _

/-- A key that stands alone, or with one byte, at the end of a line ends the program or is found again and
again. -/
theorem loop_stuck {s : Bytes} (hscan : KeyScan s) (item : RepItem)
    (hstuck : ∃ line ∈ (completeLines s).1, Stuck line) (n : Nat) : loop n item s = none := by
  induction hscan generalizing item n with
  | rest hs =>
    rw [completeLines_last hs] at hstuck
    simp at hstuck
  | noKey hline hkey =>
    obtain ⟨l, hl, hstuck⟩ := hstuck
    exact absurd hstuck (not_stuck ((no_key_lines hkey).1 l hl))
  | skip hline hkey hmore next ih =>
    rw [completeLines_line hline, List.exists_mem_cons_iff] at hstuck
    have hnext := ih item (hstuck.resolve_left (not_stuck hkey)) n
    cases n with
    | zero => rfl
    | succ n => rwa [loop, round_skip item hkey hmore]
  | keyEnd hline hkey =>
    cases n with
    | zero => rfl
    | succ n => rw [loop, round_key_end item hkey hline]
  | empty hline hkey => exact loop_empty hline hkey item n
  | message hmsg hline hkey next ih =>
    cases n with
    | zero => rfl
    | succ n =>
      rw [loop, round_key item hkey hline]
      refine ih _ ?_ n
      rw [completeLines_line hline, List.exists_mem_cons_iff, (stuck_iff _ _ _).1, ← (stuck_iff [] _ _).2]
        at hstuck
      rw [completeLines_line, List.exists_mem_cons_iff]
      · exact hstuck
      · exact fun hmem => hline (List.mem_append_right _ (List.mem_of_mem_drop hmem))

/-- Without such lines the loop returns, and it has been told all control lines. -/
theorem loop_lines {s : Bytes} (hscan : KeyScan s) (item : RepItem)
    (hok : ∀ line ∈ (completeLines s).1, ¬Stuck line) (n : Nat) (hn : s.length < n) :
    loop n item s = some { (completeLines s).1.foldl (addLine .value) item with
      prevRest := if (completeLines s).1 = [] ∧ find maark s = none then item.prevRest
        else fromKey (completeLines s).2 } := by
  induction hscan generalizing item n with
  | rest hs =>
    obtain ⟨n, rfl⟩ := Nat.exists_eq_succ_of_ne_zero (Nat.ne_zero_of_lt hn)
    rw [loop, round_rest item hs, completeLines_last hs]
    cases find maark _ with
    | none => simp
    | some pos => simp
  | noKey hline hkey =>
    obtain ⟨n, rfl⟩ := Nat.exists_eq_succ_of_ne_zero (Nat.ne_zero_of_lt hn)
    obtain ⟨hlines, hrest⟩ := no_key_lines hkey
    rw [loop, round_no_key item hkey, foldl_no_key item hlines, fromKey, hrest]
    rw [completeLines_line hline]
    simp
  | skip hline hkey hmore next ih =>
    obtain ⟨n, rfl⟩ := Nat.exists_eq_succ_of_ne_zero (Nat.ne_zero_of_lt hn)
    rw [completeLines_line hline] at hok ⊢
    have hlines := ih item (fun l hl => hok l (List.mem_cons_of_mem _ hl)) (n + 1)
      (by rw [List.length_append, List.length_cons] at hn; omega)
    rw [loop, round_skip item hkey hmore]
    refine hlines.trans ?_
    rw [List.foldl_cons, addLine_no_key item _ hkey, hmore]
    simp
  | keyEnd hline hkey =>
    rw [completeLines_line hline] at hok
    exact absurd (stuck_end _) (hok _ List.mem_cons_self)
  | empty hline hkey =>
    rw [completeLines_line hline] at hok
    refine absurd ((stuck_iff _ [] _).1.mpr ?_) (hok _ List.mem_cons_self)
    rw [List.length_nil, List.drop_zero, find_maark_front]
    simp
  | @message front msg more msgType hmsg hline hkey next ih =>
    obtain ⟨n, rfl⟩ := Nat.exists_eq_succ_of_ne_zero (Nat.ne_zero_of_lt hn)
    have htail : (10 : UInt8) ∉ (maark ++ msgType :: msg).drop msg.length :=
      fun hmem => hline (List.mem_append_right _ (List.mem_of_mem_drop hmem))
    rw [completeLines_line hline] at hok ⊢
    obtain ⟨hfirst, hlines⟩ := List.forall_mem_cons.mp hok
    have hno : find maark ((maark ++ msgType :: msg).drop msg.length) = none := by
      rw [(stuck_iff _ _ _).1, not_not] at hfirst
      exact hfirst
    have hnext := ih (item.report .value msgType msg) (by
      rw [completeLines_line htail]
      exact List.forall_mem_cons.mpr ⟨not_stuck hno, hlines⟩) n (by
        have := List.length_pos_of_ne_nil hmsg
        simp only [List.length_append, List.length_drop, List.length_cons] at hn ⊢
        omega)
    rw [loop, round_key item hkey hline]
    simp only [if_neg hmsg]
    refine hnext.trans ?_
    rw [completeLines_line htail, List.foldl_cons, List.foldl_cons, addLine_no_key _ _ hno,
      addLine_key item _ hkey]
    simp

end RepItem

section FromKey

variable (s t : Bytes)

theorem fromKey_cases : find maark s = none ∧ fromKey s = s ∨
    ∃ front back, s = front ++ (maark ++ back) ∧ find maark s = some front.length ∧
      fromKey s = maark ++ back := by
  cases h : find maark s with
  | none => exact .inl ⟨rfl, by rw [fromKey, h]; rfl⟩
  | some pos =>
    obtain ⟨front, back, rfl, rfl⟩ := exists_key h
    refine .inr ⟨front, back, rfl, rfl, ?_⟩
    rw [fromKey, h, Option.getD_some, List.drop_left]

theorem fromKey_eq_nil : fromKey s = [] ↔ s = [] := by
  obtain ⟨-, h⟩ | ⟨front, back, rfl, -, h⟩ := fromKey_cases s
  · rw [h]
  · simp [h, maark_ne]

theorem fromKey_append : fromKey (fromKey s ++ t) = fromKey (s ++ t) := by
  obtain ⟨-, h⟩ | ⟨front, back, rfl, hkey, h⟩ := fromKey_cases s
  · rw [h]
  · rw [h, fromKey, fromKey, find_append maark_ne hkey t, List.append_assoc, find_maark_front]
    simp

/-- The line of a key ends like the text from the key on. -/
theorem stuck_fromKey : Stuck (fromKey s ++ t) ↔ Stuck (s ++ t) := by
  obtain ⟨-, h⟩ | ⟨front, back, rfl, hkey, h⟩ := fromKey_cases s
  · rw [h]
  · rw [h, List.append_assoc, List.append_assoc, List.append_assoc]
    cases back ++ t with
    | nil => exact iff_of_true (stuck_end []) (stuck_end front)
    | cons msgType msg => rw [(stuck_iff front msg msgType).1, ← (stuck_iff [] msg msgType).1]; rfl

theorem message_fromKey (types : ControLineType) : types.message (fromKey s ++ t) = types.message (s ++ t) := by
  obtain ⟨-, h⟩ | ⟨front, back, rfl, hkey, h⟩ := fromKey_cases s
  · rw [h]
  · rw [h, ControLineType.message, ControLineType.message, controlLine, controlLine, find_append maark_ne hkey t,
      List.append_assoc, find_maark_front, Option.bind_some, Option.bind_some]
    have hdrop : (front ++ (maark ++ back) ++ t).drop (front.length + maark.length) = back ++ t := by
      rw [← List.drop_drop, List.append_assoc, List.drop_left, List.append_assoc, List.drop_left]
    rw [hdrop, Nat.zero_add, List.drop_left]

end FromKey

theorem completeLines_front {front : Bytes} (hfront : 10 ∉ front) {line : Bytes} (hline : 10 ∉ line)
    (more : Bytes) : completeLines (front ++ (line ++ 10 :: more)) =
      ((front ++ line) :: (completeLines more).1, (completeLines more).2) := by
  rw [← List.append_assoc, completeLines_line]
  exact fun h => (List.mem_append.mp h).elim hfront hline

theorem completeLines_append (s t : Bytes) : completeLines (s ++ t) =
    ((completeLines s).1 ++ (completeLines ((completeLines s).2 ++ t)).1,
      (completeLines ((completeLines s).2 ++ t)).2) := by
  induction s using line_induction 10 with
  | rest s hs =>
    rw [completeLines_last hs]
    rfl
  | line line more hline ih =>
    rw [List.append_assoc, List.cons_append, completeLines_line hline, completeLines_line hline, ih]
    rfl

theorem completeLines_rest (s : Bytes) : (10 : UInt8) ∉ (completeLines s).2 := by
  induction s using line_induction 10 with
  | rest s hs =>
    rw [completeLines_last hs]
    exact hs
  | line line more hline ih =>
    rw [completeLines_line hline]
    exact ih

/-- A line of the stream, or what there is of it so far: its front that is lost, and what is kept. -/
structure LinePart where
  lost : Bytes := []
  kept : Bytes := []

namespace LinePart

def whole (cur : LinePart) : Bytes := cur.lost ++ cur.kept

/-- The lines that a piece completes, and the line that is unfinished behind it. A piece without a newline
is lost if there is no key in it and nothing was kept in front of it. -/
def feed (cur : LinePart) (piece : Bytes) : List LinePart × LinePart :=
  match completeLines (cur.kept ++ piece) with
  | ([], text) =>
    ([], if cur.kept.isEmpty && (find maark piece).isNone then { lost := cur.lost ++ piece }
      else { cur with kept := text })
  | (line :: lines, rest) =>
    ({ cur with kept := line } :: lines.map (fun kept => { kept }), { kept := rest })

/-- The complete lines of a stream that comes in pieces. -/
def lineParts (cur : LinePart) : List Bytes → List LinePart
  | [] => []
  | piece :: pieces => (cur.feed piece).1 ++ (cur.feed piece).2.lineParts pieces

/-- The line does not end in a key or in a key and one byte, and what is kept of it says the same as the whole
line: there is nothing to be said if a key begins in the lost part, or if the types differ. -/
def Sound (types : ControLineType) (part : LinePart) : Prop :=
  ¬Stuck part.kept ∧ types.message part.whole = ControLineType.value.message part.kept

variable {cur : LinePart} {piece : Bytes}

theorem feed_open (hkept : 10 ∉ cur.kept) (hpiece : 10 ∉ piece) :
    cur.feed piece = ([], if cur.kept.isEmpty && (find maark piece).isNone then { lost := cur.lost ++ piece }
      else { cur with kept := cur.kept ++ piece }) := by
  rw [feed, completeLines_last (fun h => (List.mem_append.mp h).elim hkept hpiece)]

theorem feed_line (hkept : 10 ∉ cur.kept) {line : Bytes} (hline : 10 ∉ line) (more : Bytes) :
    cur.feed (line ++ 10 :: more) =
      ({ cur with kept := cur.kept ++ line } :: (completeLines more).1.map (fun kept => { kept }),
        { kept := (completeLines more).2 }) := by
  rw [feed, completeLines_front hkept hline]

/-- There is no newline in an unfinished line. -/
structure Unfinished (cur : LinePart) : Prop where
  lost : 10 ∉ cur.lost
  kept : 10 ∉ cur.kept

theorem Unfinished.feed (h : cur.Unfinished) (piece : Bytes) : (cur.feed piece).2.Unfinished := by
  obtain hpiece | ⟨line, more, rfl, hline⟩ := line_cases piece
  · rw [feed_open h.kept hpiece]
    simp only
    split
    · exact ⟨fun hmem => (List.mem_append.mp hmem).elim h.lost hpiece, List.not_mem_nil⟩
    · exact ⟨h.lost, fun hmem => (List.mem_append.mp hmem).elim h.kept hpiece⟩
  · rw [feed_line h.kept hline]
    exact ⟨List.not_mem_nil, completeLines_rest more⟩

/-- The lines are all there, in the two parts. -/
theorem lineParts_whole (h : cur.Unfinished) (pieces : List Bytes) :
    (completeLines (cur.whole ++ pieces.flatten)).1 = (cur.lineParts pieces).map whole := by
  induction pieces generalizing cur with
  | nil =>
    rw [List.flatten_nil, List.append_nil, completeLines_last]
    · rfl
    · exact fun hmem => (List.mem_append.mp hmem).elim h.lost h.kept
  | cons piece pieces ih =>
    have hnext := ih (h.feed piece)
    have hwhole : 10 ∉ cur.whole := fun hmem => (List.mem_append.mp hmem).elim h.lost h.kept
    rw [lineParts, List.map_append, ← hnext, List.flatten_cons]
    obtain hpiece | ⟨line, more, rfl, hline⟩ := line_cases piece
    · rw [feed_open h.kept hpiece]
      have hsame : cur.whole ++ (piece ++ pieces.flatten) =
          (if cur.kept.isEmpty && (find maark piece).isNone then { lost := cur.lost ++ piece }
            else { cur with kept := cur.kept ++ piece } : LinePart).whole ++ pieces.flatten := by
        split
        · rename_i hdropped
          rw [Bool.and_eq_true, List.isEmpty_iff] at hdropped
          simp [whole, hdropped.1]
        · simp [whole]
      rw [hsame]
      rfl
    · rw [feed_line h.kept hline, List.append_assoc, List.cons_append, completeLines_front hwhole hline,
        completeLines_append more]
      simp [whole, Function.comp_def]

end LinePart

namespace RepItem

variable {cur : LinePart} {item : RepItem}

theorem addLine_prevRest (types : ControLineType) (item : RepItem) (rest line : Bytes) :
    ({ item with prevRest := rest } : RepItem).addLine types line =
      { item.addLine types line with prevRest := rest } := by
  rw [addLine, addLine]
  cases types.message line with
  | none => rfl
  | some msg => cases msg <;> rfl

theorem foldl_prevRest (types : ControLineType) (lines : List Bytes) (item : RepItem) (rest : Bytes) :
    lines.foldl (addLine types) { item with prevRest := rest } =
      { lines.foldl (addLine types) item with prevRest := rest } := by
  induction lines generalizing item with
  | nil => rfl
  | cons line lines ih => rw [List.foldl_cons, List.foldl_cons, addLine_prevRest, ih]

theorem addLine_fromKey (types : ControLineType) (item : RepItem) (s t : Bytes) :
    item.addLine types (fromKey s ++ t) = item.addLine types (s ++ t) := by
  rw [addLine, addLine, message_fromKey]

/-- The rest behind a piece without a newline. -/
theorem fromKey_open (cur : LinePart) (piece : Bytes) :
    (if find maark (fromKey cur.kept ++ piece) = none then
        if cur.kept = [] then [] else fromKey cur.kept ++ piece
      else fromKey (fromKey cur.kept ++ piece)) =
    fromKey (if (cur.kept.isEmpty && (find maark piece).isNone) = true then { lost := cur.lost ++ piece }
      else { cur with kept := cur.kept ++ piece } : LinePart).kept := by
  have hnil : fromKey [] = [] := rfl
  by_cases hkept : cur.kept = []
  · cases hpiece : find maark piece with
    | none => simp [hkept, hnil, hpiece]
    | some pos => simp [hkept, hnil, hpiece]
  · have hempty : cur.kept.isEmpty = false := by rw [List.isEmpty_eq_false_iff]; exact hkept
    rw [if_neg hkept, hempty, Bool.false_and, if_neg Bool.false_ne_true]
    simp only
    rw [← fromKey_append cur.kept piece]
    split
    · rename_i hkey
      obtain ⟨-, h⟩ | ⟨front, back, -, h, -⟩ := fromKey_cases (fromKey cur.kept ++ piece)
      · exact h.symm
      · rw [hkey] at h
        cases h
    · rfl

/-- One call goes on with the unfinished line. -/
theorem dlAddData_feed (hcur : cur.Unfinished) (hitem : item.prevRest = fromKey cur.kept) (piece : Bytes) :
    (∃ part ∈ (cur.feed piece).1, Stuck part.kept) ∧ (∀ n, item.dlAddData n piece = none) ∨
      (∀ part ∈ (cur.feed piece).1, ¬Stuck part.kept) ∧ ∃ k, ∀ n, k < n → item.dlAddData n piece =
        some { (cur.feed piece).1.foldl (fun item part => item.addLine .value part.kept) item with
          prevRest := fromKey (cur.feed piece).2.kept } := by
  obtain ⟨item', hitem', hcall⟩ : ∃ item' : RepItem,
      item' = { item with prevRest := if cur.kept = [] then [] else fromKey cur.kept ++ piece } ∧
      ∀ n, item.dlAddData n piece = loop n item' (fromKey cur.kept ++ piece) := by
    refine ⟨_, rfl, ?_⟩
    intro n
    unfold dlAddData
    by_cases hkept : cur.kept = []
    · obtain ⟨prevRest, warningCollector, cerr⟩ := item
      rw [(fromKey_eq_nil cur.kept).mpr hkept] at hitem ⊢
      obtain rfl : prevRest = [] := hitem
      rw [if_pos hkept]
      rfl
    · have hne : (fromKey cur.kept).isEmpty = false := by
        rw [List.isEmpty_eq_false_iff, ne_eq, fromKey_eq_nil]
        exact hkept
      rw [if_neg hkept, hitem, hne]
      rfl
  have hfront : (10 : UInt8) ∉ fromKey cur.kept := fun h => hcur.kept (List.mem_of_mem_drop h)
  have hscan := keyScan (fromKey cur.kept ++ piece)
  obtain hpiece | ⟨line, more, rfl, hline⟩ := line_cases piece
  · refine .inr ?_
    have hinput : (10 : UInt8) ∉ fromKey cur.kept ++ piece :=
      fun h => (List.mem_append.mp h).elim hfront hpiece
    rw [LinePart.feed_open hcur.kept hpiece]
    refine ⟨by simp, (fromKey cur.kept ++ piece).length, ?_⟩
    intro n hn
    rw [hcall, loop_lines hscan item' (by rw [completeLines_last hinput]; simp) n hn,
      completeLines_last hinput, hitem']
    simp only [List.foldl_nil, true_and, fromKey_open]
  · rw [LinePart.feed_line hcur.kept hline]
    have hlines := completeLines_front hfront hline more
    by_cases hstuck : ∃ l ∈ (fromKey cur.kept ++ line) :: (completeLines more).1, Stuck l
    · refine .inl ⟨?_, ?_⟩
      · obtain ⟨l, hl, hstuck⟩ := hstuck
        obtain rfl | hl := List.mem_cons.mp hl
        · exact ⟨_, List.mem_cons_self, (stuck_fromKey cur.kept line).mp hstuck⟩
        · exact ⟨{ kept := l }, List.mem_cons_of_mem _ (List.mem_map_of_mem hl), hstuck⟩
      · intro n
        rw [hcall, loop_stuck hscan item' (by rw [hlines]; exact hstuck)]
    · have hok : ∀ l ∈ (fromKey cur.kept ++ line) :: (completeLines more).1, ¬Stuck l :=
        fun l hl h => hstuck ⟨l, hl, h⟩
      obtain ⟨hfirst, hmore⟩ := List.forall_mem_cons.mp hok
      refine .inr ⟨?_, (fromKey cur.kept ++ (line ++ 10 :: more)).length, ?_⟩
      · refine List.forall_mem_cons.mpr ⟨fun h => hfirst ((stuck_fromKey cur.kept line).mpr h), ?_⟩
        intro part hpart
        obtain ⟨l, hl, rfl⟩ := List.mem_map.mp hpart
        exact hmore l hl
      · intro n hn
        rw [hcall, loop_lines hscan item' (by rw [hlines]; exact hok) n hn, hlines, hitem']
        simp only [List.foldl_cons, List.foldl_map, addLine_fromKey, addLine_prevRest, foldl_prevRest,
          List.cons_ne_nil, false_and, if_false]

theorem foldl_parts_prevRest (types : ControLineType) (parts : List LinePart) (item : RepItem)
    (rest rest' : Bytes) :
    ({ parts.foldl (fun item part => item.addLine types part.kept) { item with prevRest := rest } with
        prevRest := rest' } : RepItem) =
      { parts.foldl (fun item part => item.addLine types part.kept) item with prevRest := rest' } := by
  rw [← List.foldl_map (f := LinePart.kept), foldl_prevRest, ← List.foldl_map (f := LinePart.kept)]

theorem loop_mono {n m : Nat} (hle : n ≤ m) {item item' : RepItem} {s : Bytes}
    (h : loop n item s = some item') : loop m item s = some item' := by
  induction n generalizing m item s with
  | zero => cases h
  | succ n ih =>
    obtain ⟨m, rfl⟩ := Nat.exists_eq_succ_of_ne_zero (show m ≠ 0 by omega)
    rw [loop] at h ⊢
    cases hround : item.round s with
    | returned item'' =>
      rw [hround] at h
      exact h
    | again item'' s' =>
      rw [hround] at h
      exact ih (by omega) h
    | outside =>
      rw [hround] at h
      cases h

theorem dlAddData_mono {n m : Nat} (hle : n ≤ m) {item item' : RepItem} {piece : Bytes}
    (h : item.dlAddData n piece = some item') : item.dlAddData m piece = some item' := by
  unfold dlAddData at h ⊢
  split at h
  · rename_i hrest
    rw [if_pos hrest]
    exact loop_mono hle h
  · rename_i hrest
    rw [if_neg hrest]
    exact loop_mono hle h

theorem dlAddDataAll_mono {n m : Nat} (hle : n ≤ m) {item item' : RepItem} {pieces : List Bytes}
    (h : item.dlAddDataAll n pieces = some item') : item.dlAddDataAll m pieces = some item' := by
  induction pieces generalizing item with
  | nil => exact h
  | cons piece pieces ih =>
    rw [dlAddDataAll] at h ⊢
    obtain ⟨next, hnext, hrun⟩ := Option.bind_eq_some_iff.mp h
    rw [dlAddData_mono hle hnext]
    exact ih hrun

theorem eq_of_fields {item item' : RepItem} (h : item.prevRest = item'.prevRest)
    (hwarnings : item.warningCollector = item'.warningCollector) (hcerr : item.cerr = item'.cerr) :
    item = item' := by
  cases item
  cases item'
  simp only at h hwarnings hcerr
  rw [h, hwarnings, hcerr]

/-- A run of calls: it does not get to its end, or the item has been told what is kept of all lines. -/
theorem dlAddDataAll_parts (hcur : cur.Unfinished) (hitem : item.prevRest = fromKey cur.kept)
    (pieces : List Bytes) :
    (∃ part ∈ cur.lineParts pieces, Stuck part.kept) ∧ (∀ n, item.dlAddDataAll n pieces = none) ∨
      (∀ part ∈ cur.lineParts pieces, ¬Stuck part.kept) ∧ ∃ k rest, ∀ n, k < n →
        item.dlAddDataAll n pieces =
          some { (cur.lineParts pieces).foldl (fun item part => item.addLine .value part.kept) item with
            prevRest := rest } := by
  induction pieces generalizing cur item with
  | nil => exact .inr ⟨by simp [LinePart.lineParts], 0, item.prevRest, fun n _ => rfl⟩
  | cons piece pieces ih =>
    rw [LinePart.lineParts]
    obtain ⟨⟨part, hpart, hstuck⟩, hnone⟩ | ⟨hok, k, hcall⟩ := dlAddData_feed hcur hitem piece
    · refine .inl ⟨⟨part, List.mem_append_left _ hpart, hstuck⟩, ?_⟩
      intro n
      rw [dlAddDataAll, hnone]
      rfl
    · have hnext := @ih (cur.feed piece).2 { (cur.feed piece).1.foldl
        (fun item part => item.addLine .value part.kept) item with
          prevRest := fromKey (cur.feed piece).2.kept } (hcur.feed piece) rfl
      obtain ⟨⟨part, hpart, hstuck⟩, hnone⟩ | ⟨hok', k', rest, hcall'⟩ := hnext
      · refine .inl ⟨⟨part, List.mem_append_right _ hpart, hstuck⟩, ?_⟩
        intro n
        rw [dlAddDataAll]
        cases hn : item.dlAddData n piece with
        | none => rfl
        | some item' =>
          have hmore := dlAddData_mono (Nat.le_max_left n (k + 1)) hn
          rw [hcall _ (by omega)] at hmore
          obtain rfl := Option.some.inj hmore
          exact hnone n
      · refine .inr ⟨?_, max k k', rest, ?_⟩
        · intro part hpart
          exact (List.mem_append.mp hpart).elim (hok part) (hok' part)
        · intro n hn
          rw [dlAddDataAll, hcall n (by omega), Option.bind_some, hcall' n (by omega), List.foldl_append,
            foldl_parts_prevRest]

theorem foldl_tell (types : ControLineType) (lines : List Bytes) (item : RepItem) :
    (lines.filterMap types.message).foldl tell item = lines.foldl (addLine types) item := by
  induction lines generalizing item with
  | nil => rfl
  | cons line lines ih =>
    rw [List.foldl_cons, ← ih, addLine]
    cases hline : types.message line with
    | none => rw [List.filterMap_cons_none hline]; rfl
    | some msg => rw [List.filterMap_cons_some hline]; rfl

/-- The item has returned from all calls, with the control lines of the stream. -/
def Reports (types : ControLineType) (pieces : List Bytes) : Prop :=
  ∃ fuel item, ({} : RepItem).dlAddDataAll fuel pieces = some item ∧
    (item.warningCollector, item.cerr) = controlReport types pieces.flatten

/-- What an item is told by the kept parts of lines. -/
def toldKept (parts : List LinePart) : RepItem :=
  (parts.map LinePart.kept).foldl (addLine .value) {}

def toldWhole (types : ControLineType) (parts : List LinePart) : RepItem :=
  (parts.map LinePart.whole).foldl (addLine types) {}

theorem addLine_rest (types : ControLineType) (item : RepItem) (line : Bytes) :
    (item.addLine types line).prevRest = item.prevRest := by
  rw [addLine]
  cases types.message line with
  | none => rfl
  | some msg => cases msg <;> rfl

theorem foldl_addLine_rest (types : ControLineType) (lines : List Bytes) (item : RepItem) :
    (lines.foldl (addLine types) item).prevRest = item.prevRest := by
  induction lines generalizing item with
  | nil => rfl
  | cons line lines ih => rw [List.foldl_cons, ih, addLine_rest]

theorem reports_iff (types : ControLineType) (pieces : List Bytes) :
    Reports types pieces ↔ (∀ part ∈ ({} : LinePart).lineParts pieces, ¬Stuck part.kept) ∧
      toldKept (({} : LinePart).lineParts pieces) = toldWhole types (({} : LinePart).lineParts pieces) := by
  have hcur : ({} : LinePart).Unfinished := ⟨List.not_mem_nil, List.not_mem_nil⟩
  have hspec : controlReport types pieces.flatten =
      ((toldWhole types (({} : LinePart).lineParts pieces)).warningCollector,
        (toldWhole types (({} : LinePart).lineParts pieces)).cerr) := by
    have hlines := LinePart.lineParts_whole hcur pieces
    rw [show ({} : LinePart).whole ++ pieces.flatten = pieces.flatten from rfl] at hlines
    rw [controlReport, foldl_tell, hlines, toldWhole]
  have hkept : (({} : LinePart).lineParts pieces).foldl (fun item part => item.addLine .value part.kept) {} =
      toldKept (({} : LinePart).lineParts pieces) := List.foldl_map.symm
  rw [Reports, hspec]
  obtain ⟨⟨part, hpart, hstuck⟩, hnone⟩ | ⟨hok, k, rest, hcall⟩ :=
    @dlAddDataAll_parts _ {} hcur rfl pieces
  · refine iff_of_false ?_ (fun h => h.1 part hpart hstuck)
    rintro ⟨fuel, item, hrun, -⟩
    rw [hnone] at hrun
    cases hrun
  · rw [hkept] at hcall
    rw [and_iff_right hok]
    constructor
    · rintro ⟨fuel, item, hrun, heq⟩
      have hlong := dlAddDataAll_mono (Nat.le_max_left fuel (k + 1)) hrun
      rw [hcall _ (by omega)] at hlong
      obtain rfl := Option.some.inj hlong
      obtain ⟨hwarnings, hcerr⟩ := Prod.mk.inj heq
      have hrest : (toldKept (({} : LinePart).lineParts pieces)).prevRest =
          (toldWhole types (({} : LinePart).lineParts pieces)).prevRest := by
        rw [toldKept, toldWhole, foldl_addLine_rest, foldl_addLine_rest]
      exact eq_of_fields hrest hwarnings hcerr
    · intro heq
      refine ⟨k + 1, _, hcall (k + 1) (Nat.lt_succ_self k), ?_⟩
      rw [heq]

/-- Different messages leave an item in different states. -/
theorem addLine_inj {types types' : ControLineType} {item : RepItem} {line line' : Bytes}
    (h : item.addLine types line = item.addLine types' line') : types.message line = types'.message line' := by
  have hwarnings := congrArg (fun item : RepItem => item.warningCollector) h
  have hcerr := congrArg RepItem.cerr h
  unfold addLine at hwarnings hcerr
  cases hm : types.message line with
  | none =>
    cases hm' : types'.message line' with
    | none => rfl
    | some msg => cases msg <;> simp [hm, hm', tell] at hwarnings hcerr
  | some msg =>
    cases hm' : types'.message line' with
    | none => cases msg <;> simp [hm, hm', tell] at hwarnings hcerr
    | some msg' => cases msg <;> cases msg' <;> simp_all [tell]

end RepItem

/-- What has come of a stream at some time, in the same pieces. -/
def Initial (pieces initial : List Bytes) : Prop :=
  ∃ front piece more back, pieces = front ++ (piece ++ more) :: back ∧ initial = front ++ [piece]

namespace LinePart

/-- Lines that are completed, the first of which has been there before. -/
def mark (cur : LinePart) : List Bytes → List LinePart
  | [] => []
  | line :: lines => { cur with kept := line } :: lines.map (fun kept => { kept })

theorem feed_lines (cur : LinePart) (piece : Bytes) :
    (cur.feed piece).1 = cur.mark (completeLines (cur.kept ++ piece)).1 := by
  rw [feed]
  cases completeLines (cur.kept ++ piece) with
  | mk lines rest => cases lines <;> rfl

theorem mark_take (cur : LinePart) (lines : List Bytes) (k : Nat) :
    cur.mark (lines.take k) = (cur.mark lines).take k := by
  cases k with
  | zero => rfl
  | succ k =>
    cases lines with
    | nil => rfl
    | cons line lines => simp [mark, List.map_take]

theorem mark_length (cur : LinePart) (lines : List Bytes) : (cur.mark lines).length = lines.length := by
  cases lines with
  | nil => rfl
  | cons line lines => simp [mark]

/-- More of a piece completes more lines behind the other ones. -/
theorem feed_front (cur : LinePart) (piece more : Bytes) :
    (cur.feed piece).1 <+: (cur.feed (piece ++ more)).1 := by
  rw [feed_lines, feed_lines, ← List.append_assoc, completeLines_append (cur.kept ++ piece) more]
  refine List.prefix_iff_eq_take.mpr ?_
  rw [← mark_take, mark_length, List.take_left]

theorem lineParts_initial (cur : LinePart) {pieces initial : List Bytes} (h : Initial pieces initial) :
    cur.lineParts initial <+: cur.lineParts pieces := by
  obtain ⟨front, piece, more, back, rfl, rfl⟩ := h
  induction front generalizing cur with
  | nil =>
    rw [List.nil_append, List.nil_append, lineParts, lineParts, lineParts, List.append_nil]
    exact (feed_front cur piece more).trans (List.prefix_append _ _)
  | cons first front ih =>
    rw [List.cons_append, List.cons_append, lineParts, lineParts, List.prefix_append_right_inj]
    exact ih _

end LinePart

/-- A text up to the end of its k-th line. -/
theorem completeLines_cut (s : Bytes) {k : Nat} (hk : k ≤ (completeLines s).1.length) :
    ∃ front back, s = front ++ back ∧ completeLines front = ((completeLines s).1.take k, []) ∧
      (k ≠ 0 → (10 : UInt8) ∈ front) := by
  induction k generalizing s with
  | zero => exact ⟨[], s, rfl, rfl, fun h => absurd rfl h⟩
  | succ k ih =>
    obtain hs | ⟨line, more, rfl, hline⟩ := line_cases s
    · rw [completeLines_last hs] at hk
      exact absurd hk (Nat.not_succ_le_zero k)
    · rw [completeLines_line hline] at hk ⊢
      obtain ⟨front, back, rfl, hfront, -⟩ := ih more (Nat.le_of_succ_le_succ hk)
      refine ⟨line ++ 10 :: front, back, by simp, ?_, fun _ => by simp⟩
      rw [completeLines_line hline, hfront]
      rfl

namespace LinePart

theorem feed_cut {cur : LinePart} (hcur : cur.Unfinished) (piece : Bytes) {k : Nat}
    (hk : k + 1 ≤ (cur.feed piece).1.length) :
    ∃ front back, piece = front ++ back ∧ (cur.feed front).1 = (cur.feed piece).1.take (k + 1) := by
  rw [feed_lines, mark_length] at hk
  obtain ⟨front, back, heq, hfront, hmem⟩ := completeLines_cut (cur.kept ++ piece) hk
  have hlong : cur.kept <+: front := by
    have hback : front <+: cur.kept ++ piece := ⟨back, heq.symm⟩
    obtain h | h := List.prefix_or_prefix_of_prefix hback (List.prefix_append cur.kept piece)
    · exact absurd (h.subset (hmem (Nat.succ_ne_zero k))) hcur.kept
    · exact h
  obtain ⟨front, rfl⟩ := hlong
  rw [List.append_assoc] at heq
  refine ⟨front, back, List.append_cancel_left heq, ?_⟩
  rw [feed_lines, feed_lines, hfront, mark_take]

/-- The stream can be cut behind each line. -/
theorem lineParts_cut {cur : LinePart} (hcur : cur.Unfinished) {pieces : List Bytes}
    {good bad : List LinePart} {part : LinePart} (h : cur.lineParts pieces = good ++ part :: bad) :
    ∃ initial, Initial pieces initial ∧ cur.lineParts initial = good ++ [part] := by
  induction pieces generalizing cur good with
  | nil => simp [lineParts] at h
  | cons piece pieces ih =>
    rw [lineParts] at h
    have hcases : (∃ good', good = (cur.feed piece).1 ++ good' ∧
          (cur.feed piece).2.lineParts pieces = good' ++ part :: bad) ∨
        ∃ more, (cur.feed piece).1 = good ++ part :: more := by
      obtain hlater | ⟨more, hfeed, hrest⟩ := List.append_eq_append_iff.mp h
      · exact .inl hlater
      · cases more with
        | nil => exact .inl ⟨[], by rw [hfeed, List.append_nil, List.append_nil], hrest.symm⟩
        | cons first more =>
          obtain ⟨rfl, -⟩ := List.cons.inj hrest
          exact .inr ⟨more, hfeed⟩
    obtain ⟨good', rfl, hrest⟩ | ⟨more, hfeed⟩ := hcases
    · obtain ⟨initial, ⟨front, piece', more, back, rfl, rfl⟩, hparts⟩ := ih (hcur.feed piece) hrest
      refine ⟨piece :: (front ++ [piece']), ⟨piece :: front, piece', more, back, rfl, rfl⟩, ?_⟩
      rw [lineParts, hparts, List.append_assoc]
    · have hk : good.length + 1 ≤ (cur.feed piece).1.length := by
        rw [hfeed, List.length_append, List.length_cons]
        omega
      obtain ⟨front, back, rfl, hfront⟩ := feed_cut hcur piece hk
      refine ⟨[front], ⟨[], front, back, pieces, rfl, rfl⟩, ?_⟩
      rw [lineParts, lineParts, List.append_nil, hfront, hfeed, List.take_append, Nat.add_sub_cancel_left,
        List.take_of_length_le (Nat.le_succ _)]
      rfl

end LinePart

namespace RepItem

theorem told_append (types : ControLineType) (parts : List LinePart) (part : LinePart) :
    toldKept (parts ++ [part]) = (toldKept parts).addLine .value part.kept ∧
      toldWhole types (parts ++ [part]) = (toldWhole types parts).addLine types part.whole := by
  constructor
  · rw [toldKept, List.map_append, List.foldl_append]
    rfl
  · rw [toldWhole, List.map_append, List.foldl_append]
    rfl

theorem told_sound {types : ControLineType} {parts : List LinePart} (h : ∀ part ∈ parts, part.Sound types) :
    toldKept parts = toldWhole types parts := by
  induction parts using List.reverseRecOn with
  | nil => rfl
  | append_singleton parts part ih =>
    obtain ⟨hparts, hpart⟩ := List.forall_mem_append.mp h
    have hsame := (hpart part (List.mem_singleton_self part)).2
    rw [(told_append types parts part).1, (told_append types parts part).2, ih hparts, addLine, addLine, hsame]

end RepItem

/-- At all times the item has been told the control lines of the stream, if and only if all complete lines are
sound. -/
theorem dlAddData_reports_iff (types : ControLineType) (pieces : List Bytes) :
    (∀ initial, Initial pieces initial → RepItem.Reports types initial) ↔
      ∀ part ∈ ({} : LinePart).lineParts pieces, part.Sound types := by
  constructor
  · intro h
    have hfront : ∀ good bad, ({} : LinePart).lineParts pieces = good ++ bad →
        ∀ part ∈ good, part.Sound types := by
      intro good
      induction good using List.reverseRecOn with
      | nil => simp
      | append_singleton good part ih =>
        intro bad heq
        have hgood := ih (part :: bad) (by rw [heq, List.append_assoc]; rfl)
        obtain ⟨initial, hinitial, hparts⟩ := LinePart.lineParts_cut
          ⟨List.not_mem_nil, List.not_mem_nil⟩ (heq.trans (List.append_assoc good [part] bad))
        obtain ⟨hok, htold⟩ := (RepItem.reports_iff types initial).mp (h initial hinitial)
        rw [hparts] at hok htold
        rw [(RepItem.told_append types good part).1, (RepItem.told_append types good part).2,
          RepItem.told_sound hgood] at htold
        refine List.forall_mem_append.mpr ⟨hgood, List.forall_mem_singleton.mpr ⟨?_, ?_⟩⟩
        · exact hok part (List.mem_append_right good (List.mem_singleton_self part))
        · exact (RepItem.addLine_inj htold).symm
    exact hfront _ [] (List.append_nil _).symm
  · intro h initial hinitial
    have hparts := LinePart.lineParts_initial {} hinitial
    refine (RepItem.reports_iff types initial).mpr ⟨fun part hpart => (h part (hparts.subset hpart)).1, ?_⟩
    exact RepItem.told_sound (fun part hpart => h part (hparts.subset hpart))

/-- An error that a task writes is not reported. With the values of the enumeration, an empty text makes the loop
go on forever, and a key is lost that is cut by the pieces. -/
theorem dlAddData_misses :
    ¬RepItem.Reports .written [lit "41d_a6aeb8-26dfa2Errors found\n"] ∧
      ¬RepItem.Reports .value [lit "41d_a6aeb8-26dfa\x02\n"] ∧
      ¬RepItem.Reports .value [lit "41d_", lit "a6aeb8-26dfa\x02Errors found\n"] := by
  rw [RepItem.reports_iff, RepItem.reports_iff, RepItem.reports_iff]
  decide

theorem controlLine_suffix {line : Bytes} {msg : UInt8 × Bytes} (h : controlLine line = some msg) :
    msg.1 :: msg.2 <:+ line := by
  obtain ⟨pos, -, hmsg⟩ := Option.bind_eq_some_iff.mp h
  cases hdrop : line.drop (pos + maark.length) with
  | nil =>
    rw [hdrop] at hmsg
    cases hmsg
  | cons msgType text =>
    rw [hdrop] at hmsg
    cases hmsg
    exact hdrop ▸ List.drop_suffix _ _

theorem message_some {types : ControLineType} {line : Bytes} {msg : ControlMessage}
    (h : types.message line = some msg) : ∃ msgType text, msgType :: text <:+ line ∧
      (msgType = types.beforeError ∧ msg = .warning text ∨ msgType = types.error ∧ msg = .error text) := by
  obtain ⟨⟨msgType, text⟩, hline, hmsg⟩ := Option.bind_eq_some_iff.mp h
  refine ⟨msgType, text, controlLine_suffix hline, ?_⟩
  simp only at hmsg
  split at hmsg
  · rename_i htype
    exact .inl ⟨htype, (Option.some.inj hmsg).symm⟩
  · split at hmsg
    · rename_i htype
      exact .inr ⟨htype, (Option.some.inj hmsg).symm⟩
    · cases hmsg

/-- The types that are written are never those that are looked for: there must be nothing to report. -/
theorem LinePart.sound_written_iff (part : LinePart) : part.Sound .written ↔ ¬Stuck part.kept ∧
    ControLineType.written.message part.whole = none ∧ ControLineType.value.message part.kept = none := by
  refine and_congr_right (fun _ => ⟨?_, fun h => h.1.trans h.2.symm⟩)
  intro heq
  cases hwhole : ControLineType.written.message part.whole with
  | none => exact ⟨rfl, by rw [← heq, hwhole]⟩
  | some msg =>
    rw [hwhole] at heq
    obtain ⟨msgType, text, hsuffix, hmsg⟩ := message_some hwhole
    obtain ⟨msgType', text', hsuffix', hmsg'⟩ := message_some heq.symm
    have htext : text = text' := by
      obtain ⟨-, rfl⟩ | ⟨-, rfl⟩ := hmsg <;> obtain ⟨-, h⟩ | ⟨-, h⟩ := hmsg' <;> cases h <;> rfl
    subst htext
    have hsame : msgType :: text = msgType' :: text :=
      (List.suffix_of_suffix_length_le hsuffix (hsuffix'.trans (List.suffix_append _ _)) (by simp)).eq_of_length
        (by simp)
    obtain ⟨rfl, -⟩ := List.cons.inj hsame
    obtain ⟨rfl, -⟩ | ⟨rfl, -⟩ := hmsg <;> obtain ⟨h, -⟩ | ⟨h, -⟩ := hmsg' <;>
      exact absurd h (by decide)

end Acng
