import Acng.Conn
import Acng.InBuf
import Acng.Proofs.Redirect

namespace Acng
open Lib

namespace InBuf

variable {b : InBuf} {count : Nat}

/-- The indices are in order, and stand at the front if there are no data. -/
structure Sound (b : InBuf) : Prop where
  ordered : b.Ordered
  capa : b.totalcapa < 2 ^ 32
  empty : b.r = b.w → b.w = 0

theorem size_eq (h : b.Sound) : b.size = b.w - b.r := by
  obtain ⟨⟨hr, hw⟩, hcapa, -⟩ := h
  unfold size
  omega

theorem freecapa_eq (h : b.Sound) : b.freecapa = b.totalcapa - b.w := by
  obtain ⟨⟨hr, hw⟩, hcapa, -⟩ := h
  unfold freecapa
  omega

theorem view_length (h : b.Sound) : b.view.length = b.size := by
  obtain ⟨hr, hw⟩ := h.ordered
  rw [size_eq h, view, List.length_drop, List.length_take]
  exact congrArg (· - b.r) (Nat.min_eq_left hw)

theorem clear_sound (h : b.totalcapa < 2 ^ 32) : b.clear.Sound :=
  ⟨⟨le_rfl, Nat.zero_le _⟩, h, fun _ => rfl⟩

theorem setsize_sound (capa : UInt32) : (setsize capa).Sound := by
  refine ⟨⟨le_rfl, Nat.zero_le _⟩, ?_, fun _ => rfl⟩
  rw [totalcapa, setsize, List.length_replicate]
  exact capa.toNat_lt

theorem setsize_freecapa (capa : UInt32) : (setsize capa).freecapa = capa.toNat := by
  rw [freecapa_eq (setsize_sound capa)]
  exact List.length_replicate

/-- The position moves within the data, or back from them. -/
theorem drop_sound (h : b.Sound) (hlt : count < 2 ^ 64)
    (hcount : count ≤ b.size ∨ 2 ^ 64 ≤ b.r + count) : (b.drop count).Sound := by
  have hsize := size_eq h
  obtain ⟨⟨hr, hw⟩, hcapa, hempty⟩ := h
  unfold drop
  simp only
  split
  · exact clear_sound hcapa
  · rename_i hne
    refine ⟨⟨?_, hw⟩, hcapa, fun heq => absurd heq hne⟩
    simp only
    omega

theorem drop_view (h : b.Sound) (hcount : count ≤ b.size) :
    (b.drop count).view = b.view.drop count := by
  have hlen := view_length h
  have hsize := size_eq h
  obtain ⟨⟨hr, hw⟩, hcapa, hempty⟩ := h
  have hmod : (b.r + count) % 2 ^ 64 = b.r + count := Nat.mod_eq_of_lt (by omega)
  unfold drop
  simp only [hmod]
  split
  · rename_i hall
    rw [List.drop_eq_nil_of_le (by omega)]
    rfl
  · simp only [view, List.drop_drop]

theorem drop_totalcapa (b : InBuf) (count : Nat) : (b.drop count).totalcapa = b.totalcapa := by
  unfold drop
  simp only
  split
  · rfl
  · rfl

theorem move_view (h : b.Sound) : b.move.view = b.view := by
  have hlen := view_length h
  rw [size_eq h] at hlen
  unfold move
  split
  · rfl
  · rw [view, List.drop_zero, ← hlen, List.take_left]

theorem move_sound (h : b.Sound) : b.move.Sound ∧ b.move.r = 0 := by
  have hlen := view_length h
  rw [size_eq h] at hlen
  obtain ⟨⟨hr, hw⟩, hcapa, hempty⟩ := h
  unfold move
  split
  · rename_i hzero
    exact ⟨⟨⟨hr, hw⟩, hcapa, hempty⟩, hzero⟩
  · unfold totalcapa at hw hcapa
    refine ⟨⟨⟨Nat.zero_le _, ?_⟩, ?_, fun heq => heq.symm⟩, rfl⟩
    · simp only [totalcapa, List.length_append, List.length_drop]
      omega
    · simp only [totalcapa, List.length_append, List.length_drop]
      omega

theorem sysread_sound (h : b.Sound) {read : Bytes} (hread : read.length ≤ b.freecapa) :
    (b.sysread read).Sound ∧ (b.sysread read).view = b.view ++ read := by
  rw [freecapa_eq h] at hread
  obtain ⟨⟨hr, hw⟩, hcapa, hempty⟩ := h
  unfold totalcapa at hw hcapa hread
  have htake : (b.mem.take b.w).length = b.w := List.length_take_of_le hw
  refine ⟨⟨⟨?_, ?_⟩, ?_, ?_⟩, ?_⟩
  · simp only [sysread]
    omega
  · simp only [sysread, totalcapa, List.length_append, List.length_drop, htake]
    omega
  · simp only [sysread, totalcapa, List.length_append, List.length_drop, htake]
    omega
  · simp only [sysread]
    omega
  · have hfront : b.w + read.length = (b.mem.take b.w ++ read).length := by
      rw [List.length_append, htake]
    simp only [view, sysread]
    rw [hfront, List.take_left, List.drop_append_of_le_length (by omega)]

theorem sysread_totalcapa (h : b.Sound) {read : Bytes} (hread : read.length ≤ b.freecapa) :
    (b.sysread read).totalcapa = b.totalcapa := by
  have hcapa := freecapa_eq h
  obtain ⟨-, hw⟩ := h.ordered
  simp only [sysread, totalcapa, List.length_append, List.length_take, List.length_drop] at *
  omega

/-- The buffer as the loop for a client sees it. -/
def toAcBuf (b : InBuf) : AcBuf := ⟨b.r, b.view⟩

theorem toAcBuf_drop (h : b.Sound) (hcount : count ≤ b.size) :
    (b.drop count).toAcBuf = b.toAcBuf.drop count := by
  have hview := drop_view h hcount
  have hlen := view_length h
  rw [size_eq h] at hlen hcount
  have hmod : (b.r + count) % 2 ^ 64 = b.r + count := by
    have := h.ordered.1
    have := h.ordered.2
    have := h.capa
    omega
  unfold toAcBuf AcBuf.drop
  rw [hview]
  simp only
  by_cases hall : b.r + count = b.w
  · have hnil : b.view.drop count = [] := List.drop_eq_nil_of_le (by omega)
    rw [hnil, drop]
    simp only [hmod, if_pos hall]
    rfl
  · have hne : (b.view.drop count).isEmpty = false := by
      rw [← Bool.not_eq_true, List.isEmpty_iff, List.drop_eq_nil_iff]
      have := h.ordered.1
      omega
    rw [hne, drop]
    simp only [hmod, if_neg hall]
    rfl

theorem toAcBuf_move (h : b.Sound) : b.move.toAcBuf = b.toAcBuf.move := by
  unfold toAcBuf AcBuf.move
  rw [move_view h, (move_sound h).2]

theorem toAcBuf_sysread (h : b.Sound) {read : Bytes} (hread : read.length ≤ b.freecapa) :
    (b.sysread read).toAcBuf = b.toAcBuf.sysread read := by
  unfold toAcBuf AcBuf.sysread
  rw [(sysread_sound h hread).2]
  rfl

theorem toAcBuf_freecapa (h : b.Sound) : b.freecapa = AcBuf.freecapa b.totalcapa b.toAcBuf := by
  have hlen := view_length h
  rw [size_eq h] at hlen
  have := h.ordered.1
  rw [freecapa_eq h, AcBuf.freecapa, toAcBuf]
  simp only
  omega

/-- Drops that fit one after the other are one that takes their sum. -/
theorem dropsFit_of_sum {counts : List Nat} (h : b.Sound) (hsum : counts.sum ≤ b.size) :
    b.DropsFit counts ∧ (counts.foldl drop b).Sound ∧
      (counts.foldl drop b).view = b.view.drop counts.sum := by
  induction counts generalizing b with
  | nil => exact ⟨trivial, h, rfl⟩
  | cons count counts ih =>
    rw [List.sum_cons] at hsum
    have hcount : count ≤ b.size := by omega
    have hsound : (b.drop count).Sound := by
      apply drop_sound h _ (.inl hcount)
      have := size_eq h
      have := h.ordered.2
      have := h.capa
      omega
    have hlen := view_length hsound
    rw [drop_view h hcount, List.length_drop, view_length h] at hlen
    obtain ⟨hfit, hs, hview⟩ := ih hsound (by omega)
    refine ⟨⟨hcount, hfit⟩, hs, ?_⟩
    rw [List.foldl_cons, hview, drop_view h hcount, List.drop_drop, List.sum_cons]

end InBuf

namespace Dl

theorem fieldNum_ge (h : Header) (p : HeadPos) : -2 ^ 63 ≤ fieldNum h p 0 := by
  unfold fieldNum strtoll
  split
  · decide
  · exact le_max_left _ _

/-- The head at the front redirects, and claims to have a body of negative length. -/
def NegativeRedirect (env : Env) (d : Dl) : Prop :=
  d.job.dlState = .getHeader ∧ env.cfg.redirmax ≠ 0 ∧ Redirects d.job d.buf = true ∧
    fieldNum (Header.load d.buf).2.hd .contentLength 0 < 0

theorem headDrops_negative {env : Env} {bOnly : Bool} {d : Dl} (h : d.NegativeRedirect env) :
    d.headDrops env bOnly = [sizeT (fieldNum (Header.load d.buf).2.hd .contentLength 0)] := by
  obtain ⟨-, hmax, hred, hneg⟩ := h
  simp only [Redirects, Bool.and_eq_true, decide_eq_true_eq, beq_iff_eq] at hred
  obtain ⟨⟨⟨hpos, hans⟩, hcode⟩, hrw⟩ := hred
  have hemp := isEmpty_of_load hpos
  have hle : fieldNum (Header.load d.buf).2.hd .contentLength 0 ≤ d.buf.length := by omega
  unfold locationAt at hrw
  simp [headDrops, hemp, not_le.mpr hpos, hans, isRedirect_code _ hcode, hmax, hcode, hrw, hle]

/-- What a pass drops is in the buffer, and it is what the pass on the data alone consumes. -/
structure Consumes (d : Dl) (counts : List Nat) (d' : Dl) : Prop where
  fits : counts.sum ≤ d.buf.length
  left : d'.buf = d.buf.drop counts.sum

theorem consumes_none {d d' : Dl} (h : d'.buf = d.buf) : d.Consumes [] d' := ⟨Nat.zero_le _, h⟩

theorem framing_returned_buf {env : Env} {d d' : Dl} {h : Header} {n ret res : Nat}
    (hf : d.framing env h n ret = .ret d' res) : d'.buf = d.buf := by
  unfold framing at hf
  simp only at hf
  split at hf
  · cases hf
  · split at hf
    · cases hf
    · split at hf
      · cases hf
        rfl
      · cases hf

/-- A head that neither is a mere hint nor redirects stays in the buffer as long as it is not saved. -/
theorem headStep_returned_buf {env : Env} {bOnly : Bool} {d d' : Dl} {res : Nat}
    (hcode : ¬ (Header.load d.buf).2.hd.status.code < 200)
    (hred : ¬ (env.cfg.redirmax ≠ 0 && (Header.load d.buf).2.hd.status.isRedirect) = true)
    (hs : d.headStep env bOnly = .ret d' res) : d'.buf = d.buf := by
  have hcase := headStep_cases env bOnly d
  rw [hs] at hcase
  generalize hstep : HeadStep.ret d' res = step at hcase
  cases hcase with
  | missing => cases hstep; rfl
  | invalid => cases hstep; rfl
  | noAnswer => cases hstep; rfl
  | hint _ hhint => exact absurd hhint hcode
  | redirected _ hredirect => exact absurd hredirect hred
  | elsewhere => cases hstep; rfl
  | keyfile => cases hstep; rfl
  | framed => exact framing_returned_buf hstep.symm

theorem not_answerHead {d : Dl} :
    (d.buf.isEmpty || (Header.load d.buf).1 ≤ 0 || (Header.load d.buf).2.hd.type ≠ .answer) = true ↔
      ¬ d.AnswerHead := by
  have hempty : d.buf.isEmpty = true → (Header.load d.buf).1 ≤ 0 := by
    intro hemp
    by_contra hpos
    rw [isEmpty_of_load (not_le.mp hpos)] at hemp
    cases hemp
  simp only [Bool.or_eq_true, decide_eq_true_eq, AnswerHead, not_and_or, not_lt]
  exact or_congr_left ⟨fun h => h.elim hempty id, .inr⟩

/-- An input that is no complete head of an answer stays as it is. -/
theorem headStep_refused_buf (env : Env) (bOnly : Bool) {d : Dl} (h : ¬ d.AnswerHead) :
    ∃ d' res, d.headStep env bOnly = .ret d' res ∧ d'.buf = d.buf := by
  have hcase := headStep_cases env bOnly d
  generalize d.headStep env bOnly = step at hcase ⊢
  cases hcase with
  | missing => exact ⟨_, _, rfl, rfl⟩
  | invalid => exact ⟨_, _, rfl, rfl⟩
  | noAnswer => exact ⟨_, _, rfl, rfl⟩
  | hint hhead => exact absurd hhead h
  | redirected hhead => exact absurd hhead h
  | elsewhere hhead => exact absurd hhead h
  | keyfile hhead => exact absurd hhead h
  | framed hhead => exact absurd hhead h

theorem headStep_hint_buf (env : Env) (bOnly : Bool) {d : Dl} (h : d.AnswerHead)
    (hcode : (Header.load d.buf).2.hd.status.code < 200) :
    ∃ d' res, d.headStep env bOnly = .ret d' res ∧
      d'.buf = d.buf.drop (Header.load d.buf).1.toNat := by
  rw [headStep_answer env bOnly h, if_pos hcode]
  exact ⟨_, _, rfl, rfl⟩

/-- The branch for a redirection. What is dropped of its body is in the buffer if the length is
not negative. -/
theorem redirect_drops {d d' : Dl} {h : Header} {ret res : Nat} (hlen : d.buf.length < 2 ^ 64)
    (hneg : (d.job.rewriteSource (h.h .location)).1 = true → 0 ≤ fieldNum h .contentLength 0)
    (hr : d.redirect h ret = .ret d' res) :
    d.Consumes (if (d.job.rewriteSource (h.h .location)).1 && fieldNum h .contentLength 0 ≤ d.buf.length
      then [sizeT (fieldNum h .contentLength 0)] else []) d' := by
  unfold redirect at hr
  simp only at hr
  cases hrw : (d.job.rewriteSource (h.h .location)).1 with
  | false =>
    simp only [hrw, Bool.not_false, if_true] at hr
    cases hr
    exact consumes_none rfl
  | true =>
    simp only [hrw, Bool.not_true, Bool.false_eq_true, if_false] at hr
    have hpos := hneg hrw
    cases hr
    generalize fieldNum h .contentLength 0 = contLen at hpos ⊢
    simp only [Bool.true_and, decide_eq_true_eq]
    split
    · rename_i hle
      have hsize : sizeT contLen = contLen.toNat := by
        unfold sizeT
        omega
      refine ⟨?_, ?_⟩
      · rw [List.sum_singleton, hsize]
        omega
      · rw [List.sum_singleton, hsize]
        exact if_pos (by omega)
    · rename_i hle
      exact consumes_none (if_neg (by omega))

theorem headStep_redirect {env : Env} {bOnly : Bool} {d : Dl} (h : d.AnswerHead)
    (hred : (env.cfg.redirmax ≠ 0 && (Header.load d.buf).2.hd.status.isRedirect) = true) :
    d.headStep env bOnly =
      d.redirect (Header.load d.buf).2.hd (closeHint (Header.load d.buf).2.hd) := by
  have hcode := isRedirect_code _ (Bool.and_eq_true_iff.mp hred).2
  rw [headStep_answer env bOnly h, if_neg hcode, if_pos hred]

theorem redirect_returns (d : Dl) (h : Header) (ret : Nat) :
    ∃ d' res, d.redirect h ret = .ret d' res := by
  unfold redirect
  simp only
  split
  · exact ⟨_, _, rfl⟩
  · exact ⟨_, _, rfl⟩

theorem procHeader_returned {env : Env} {io : Io} {bOnly : Bool} {d d' : Dl} {res : Nat}
    (hs : d.headStep env bOnly = .ret d' res) : d.procHeader env io bOnly = (d', some res) := by
  rw [procHeader, hs]

/-- A head that is given to the item is dropped afterwards, whatever the item says. -/
theorem procHeader_saved_buf {env : Env} {io : Io} {bOnly : Bool} {d d' : Dl} {h : Header} {n : Nat}
    {contLen : Int} {ret : Nat} (hs : d.headStep env bOnly = .save d' h n contLen ret) :
    (d.procHeader env io bOnly).1.buf = d.buf.drop n := by
  have hframe := (checkAndSaveHeader_frame env io d' h n contLen).buf
  rw [(headStep_saved env bOnly d d' h n contLen ret hs).buf] at hframe
  rw [← hframe, procHeader, hs]
  simp only
  split
  · split
    · rfl
    · rfl
  · split
    · rfl
    · rfl
  · split
    · rfl
    · rfl

theorem headDrops_consumes {env : Env} {io : Io} {bOnly : Bool} {d : Dl}
    (hst : d.job.dlState = .getHeader) (hlen : d.buf.length < 2 ^ 64)
    (h : ¬ d.NegativeRedirect env) :
    d.Consumes (d.headDrops env bOnly) (d.procHeader env io bOnly).1 := by
  have hload := Header.load_le d.buf none
  unfold headDrops
  simp only
  split
  · rename_i hno
    obtain ⟨d', res, hs, hbuf⟩ := headStep_refused_buf env bOnly (not_answerHead.mp hno)
    rw [procHeader_returned hs]
    exact consumes_none hbuf
  · rename_i hyes
    have hhead : d.AnswerHead := not_not.mp (mt not_answerHead.mpr hyes)
    split
    · rename_i hcode
      obtain ⟨d', res, hs, hbuf⟩ := headStep_hint_buf env bOnly hhead hcode
      rw [procHeader_returned hs]
      refine ⟨?_, ?_⟩
      · rw [List.sum_singleton]
        omega
      · rw [List.sum_singleton]
        exact hbuf
    · rename_i hcode
      split
      · rename_i hred
        obtain ⟨d', res, hr⟩ :=
          redirect_returns d (Header.load d.buf).2.hd (closeHint (Header.load d.buf).2.hd)
        rw [procHeader_returned ((headStep_redirect hhead hred).trans hr)]
        apply redirect_drops hlen _ hr
        intro hrw
        by_contra hneg
        refine h ⟨hst, ?_, ?_, not_le.mp hneg⟩
        · exact of_decide_eq_true (Bool.and_eq_true_iff.mp hred).1
        · simp [Redirects, hhead.2, (Bool.and_eq_true_iff.mp hred).2, locationAt, hrw, hhead.1]
      · rename_i hred
        cases hs : d.headStep env bOnly with
        | ret d' res =>
          rw [procHeader_returned hs]
          exact consumes_none (headStep_returned_buf hcode hred hs)
        | save d' hd n contLen ret =>
          have hn := (headStep_saved env bOnly d d' hd n contLen ret hs).len
          refine ⟨?_, ?_⟩
          · simp only [List.sum_singleton]
            omega
          · simp only [List.sum_singleton]
            exact procHeader_saved_buf hs

theorem dataDrops_eq (io : Io) (d : Dl) :
    d.dataDrops io = if d.toStore = [] ∨ (d.handOver io).1 = false then [] else [d.toStore.length] := by
  have hnil : (min d.buf.length d.job.nRest = 0) = (d.toStore = []) := by
    rw [← toStore_length, List.length_eq_zero_iff]
  have hstore : d.buf.take (min d.buf.length d.job.nRest) = d.toStore := rfl
  unfold dataDrops handOver
  simp only [hnil, hstore, toStore_length]
  by_cases hempty : d.toStore = []
  · rw [if_pos hempty, if_pos (.inl hempty)]
  · simp only [hempty, if_false, false_or]
    cases d.job.bAllowStoreData with
    | false => simp
    | true =>
      simp only [Bool.true_and, if_true]
      cases (d.fi.dlAddData d.toStore io.store).1 with
      | false => rfl
      | true => rfl

theorem dataDrops_consumes (io : Io) (d : Dl) : d.Consumes (d.dataDrops io) (d.procData io).1 := by
  have hle : d.toStore.length ≤ d.buf.length := by
    rw [toStore_length]
    exact min_le_left _ _
  have htaken (d' : Dl) (hok : (d.handOver io).1 = true) (hbuf : d'.buf = d.buf.drop d.toStore.length) :
      d.Consumes (d.dataDrops io) d' := by
    rw [dataDrops_eq, hok]
    split
    · rename_i hempty
      have hnil := hempty.resolve_right (by decide)
      apply consumes_none
      rw [hbuf, hnil]
      rfl
    · exact ⟨by rw [List.sum_singleton]; exact hle, by rw [List.sum_singleton]; exact hbuf⟩
  rcases procData_cases io d with ⟨hfail, he⟩ | ⟨hok, -, he⟩ | ⟨hok, -, he⟩
  · rw [he, dataDrops_eq, if_pos (.inr hfail)]
    exact consumes_none rfl
  · rw [he]
    exact htaken _ hok rfl
  · rw [he]
    exact htaken _ hok rfl

theorem dropWhile_eq_drop (p : UInt8 → Bool) (s : Bytes) :
    s.dropWhile p = s.drop (s.length - (s.dropWhile p).length) := by
  obtain ⟨t, ht⟩ := List.dropWhile_suffix (l := s) p
  have hlen := congrArg List.length ht
  rw [List.length_append] at hlen
  have hfront : s.length - (s.dropWhile p).length = t.length := by omega
  rw [hfront]
  conv_rhs => rw [← ht, List.drop_left]

theorem chunkHeadDrops_consumes (d : Dl) : d.Consumes d.chunkHeadDrops d.procChunkHead.1 := by
  unfold chunkHeadDrops procChunkHead
  simp only
  have hrest : (d.buf.dropWhile (fun c => c == 13 || c == 10)).length ≤ d.buf.length :=
    (List.dropWhile_suffix _).length_le
  have hdrop := dropWhile_eq_drop (fun c => c == 13 || c == 10) d.buf
  generalize d.buf.dropWhile (fun c => c == 13 || c == 10) = rest at hrest hdrop ⊢
  have hsum : (List.replicate (d.buf.length - rest.length) 1).sum = d.buf.length - rest.length := by simp
  cases hfind : find crlf (cstr rest) with
  | none =>
    refine ⟨?_, ?_⟩
    · rw [List.append_nil, hsum]
      exact Nat.sub_le _ _
    · rw [List.append_nil, hsum]
      exact hdrop
  | some p =>
    have hle := find_le crlf _ p hfind
    have hcstr := (cstr_take rest).length_le
    have hcrlf : crlf.length = 2 := rfl
    cases hscan : scanHex rest with
    | none =>
      refine ⟨?_, ?_⟩
      · simp only [Option.isSome_none, Bool.false_eq_true, if_false, List.append_nil, hsum]
        exact Nat.sub_le _ _
      · simp only [Option.isSome_none, Bool.false_eq_true, if_false, List.append_nil, hsum]
        exact hdrop
    | some len =>
      have hall : (d.buf.drop (d.buf.length - rest.length)).drop (p + 2) =
          d.buf.drop (d.buf.length - rest.length + (p + 2)) := List.drop_drop
      rw [← hdrop] at hall
      refine ⟨?_, ?_⟩
      · simp only [Option.isSome_some, if_true, List.sum_append, hsum, List.sum_singleton]
        omega
      · simp only [Option.isSome_some, if_true, List.sum_append, hsum, List.sum_singleton]
        split
        · exact hall
        · exact hall

theorem trailerDrops_consumes (d : Dl) : d.Consumes d.trailerDrops d.procTrailer.1 := by
  unfold trailerDrops procTrailer
  split
  · exact consumes_none rfl
  · cases hfind : find crlf (cstr d.buf) with
    | none => exact consumes_none rfl
    | some p =>
      have hle := find_le crlf _ p hfind
      have hcstr := (cstr_take d.buf).length_le
      have hcrlf : crlf.length = 2 := rfl
      cases p with
      | zero => exact ⟨by simp only [List.sum_singleton]; omega, rfl⟩
      | succ p => exact ⟨by simp only [List.sum_singleton]; omega, rfl⟩

theorem drops_consumes {env : Env} (io : Io) (bOnly : Bool) {d : Dl} (hlen : d.buf.length < 2 ^ 64)
    (h : ¬ d.NegativeRedirect env) :
    d.Consumes (d.drops env io bOnly) (d.procStep env io bOnly).1 := by
  unfold drops procStep
  cases hst : d.job.dlState with
  | getHeader => exact headDrops_consumes hst hlen h
  | processData => exact dataDrops_consumes io d
  | processChunkData => exact dataDrops_consumes io d
  | getChunkHead => exact chunkHeadDrops_consumes d
  | getChunkTrailer => exact trailerDrops_consumes d
  | finishJob => exact consumes_none rfl

end Dl

namespace Feeding

variable {env : Env} {io : Io} {bOnly : Bool} {s t : Feeding}

/-- The counts of one pass, each with what is left by the ones before it. -/
def PassFits (s : Feeding) : BufAct → Prop
  | .pass env io bOnly => s.inBuf.DropsFit (s.toDl.drops env io bOnly)
  | _ => True

def PassesNegativeRedirect (s : Feeding) : BufAct → Prop
  | .pass env _ _ => s.toDl.NegativeRedirect env
  | _ => False

theorem step_read {bytes : Bytes} (h : bytes.length ≤ s.inBuf.freecapa) :
    s.step (.read bytes) = some { s with inBuf := s.inBuf.sysread bytes } := if_pos h

theorem toDl_length (h : s.inBuf.Sound) : s.toDl.buf.length < 2 ^ 32 := by
  have hlen : s.toDl.buf.length = s.inBuf.size := InBuf.view_length h
  rw [hlen, InBuf.size]
  exact Nat.mod_lt _ (by decide)

theorem pass_inBuf (hst : s.job.dlState ≠ .getChunkHead) :
    (s.pass env io bOnly).1.inBuf = (s.toDl.drops env io bOnly).foldl InBuf.drop s.inBuf := by
  unfold pass
  exact if_neg (by simp [hst])

/-- In the buffer a pass does what it does to the data alone. -/
theorem pass_fits (io : Io) (bOnly : Bool) (h : s.inBuf.Sound)
    (hno : ¬ s.toDl.NegativeRedirect env) :
    s.inBuf.DropsFit (s.toDl.drops env io bOnly) ∧ (s.pass env io bOnly).1.inBuf.Sound ∧
      (s.pass env io bOnly).1.toDl = (s.toDl.procStep env io bOnly).1 := by
  have hlen : s.toDl.buf.length = s.inBuf.size := InBuf.view_length h
  have hshort := toDl_length h
  obtain ⟨hsum, hleft⟩ := Dl.drops_consumes io bOnly (by omega) hno
  obtain ⟨hfit, hsound, hview⟩ := InBuf.dropsFit_of_sum h (hlen ▸ hsum)
  have hbuf := hview.trans hleft.symm
  refine ⟨hfit, ?_, ?_⟩
  · unfold pass
    simp only
    split
    · exact (InBuf.move_sound hsound).1
    · exact hsound
  · have hmoved : (s.pass env io bOnly).1.inBuf.view = (s.toDl.procStep env io bOnly).1.buf := by
      unfold pass
      simp only
      split
      · exact (InBuf.move_view hsound).trans hbuf
      · exact hbuf
    exact congrArg (Dl.mk _ _) hmoved

/-- The length that is taken for a count is far from what the buffer can hold. -/
theorem negative_unfit (hneg : s.toDl.NegativeRedirect env) :
    ¬ s.inBuf.DropsFit (s.toDl.drops env io bOnly) := by
  intro hfit
  unfold Dl.drops at hfit
  rw [hneg.1] at hfit
  simp only [Dl.headDrops_negative hneg, InBuf.DropsFit] at hfit
  have hbelow := hneg.2.2.2
  have hfrom := Dl.fieldNum_ge (Header.load s.toDl.buf).2.hd .contentLength
  have hsize : s.inBuf.size < 2 ^ 32 := Nat.mod_lt _ (by decide)
  have hcount := hfit.1
  unfold sizeT at hcount
  omega

theorem step_sound (h : s.inBuf.Sound) {a : BufAct} (hno : ¬ s.PassesNegativeRedirect a)
    (hs : s.step a = some t) : t.inBuf.Sound := by
  cases a with
  | clear =>
    obtain rfl := Option.some.inj hs
    exact InBuf.clear_sound h.capa
  | read bytes =>
    unfold step at hs
    simp only at hs
    split at hs
    · rename_i hfree
      obtain rfl := Option.some.inj hs
      exact (InBuf.sysread_sound h hfree).1
    · cases hs
  | turnTo job fi =>
    obtain rfl := Option.some.inj hs
    exact h
  | pass env io bOnly =>
    obtain rfl := Option.some.inj hs
    exact (pass_fits _ _ h hno).2.1

theorem passFits_iff (h : s.inBuf.Sound) {a : BufAct} :
    s.PassFits a ↔ ¬ s.PassesNegativeRedirect a := by
  cases a with
  | pass env io bOnly =>
    exact ⟨fun hfit hneg => negative_unfit hneg hfit, fun hno => (pass_fits io bOnly h hno).1⟩
  | clear => exact iff_of_true trivial id
  | read bytes => exact iff_of_true trivial id
  | turnTo job fi => exact iff_of_true trivial id

/-- The indices of the input buffer stay in order, and all that is dropped is in it, in the runs in
which no redirection claims to have a body of negative length. -/
theorem drops_fit_iff (capa : UInt32) (job : DlJob) (fi : FileItem) (as : List BufAct) :
    ((∀ pre post m, as = pre ++ post → runs step (start capa job fi) pre = some m → m.inBuf.Ordered) ∧
      ∀ pre a post m, as = pre ++ a :: post → runs step (start capa job fi) pre = some m →
        m.PassFits a) ↔
      ∀ pre a post m, as = pre ++ a :: post → runs step (start capa job fi) pre = some m →
        ¬ m.PassesNegativeRedirect a := by
  have hstart : (start capa job fi).inBuf.Sound := InBuf.setsize_sound capa
  have hkeep : ∀ (m : Feeding) (a : BufAct) (t : Feeding), m.inBuf.Sound →
      ¬ m.PassesNegativeRedirect a → m.step a = some t → t.inBuf.Sound :=
    fun m a t hi hno hs => step_sound hi hno hs
  have hsteps := runs_steps_iff (fun m => m.inBuf.Sound) hstart
    (fun (m : Feeding) a hi => passFits_iff (a := a) hi) hkeep as
  constructor
  · exact fun hall => hsteps.mp hall.2
  · intro hno
    refine ⟨fun pre post m has hm => ?_, hsteps.mpr hno⟩
    have hsound := runs_inv (fun m => m.inBuf.Sound) hstart hkeep
      (fun pre a post m has hm _ => hno pre a post m has hm) pre post m has hm
    exact hsound.ordered

/-- A redirection whose body is to be dropped. -/
def negativeMoved : Bytes := lit "HTTP/1.1 302 Found\r\nLocation: http://a/x\r\nContent-Length: -5\r\n\r\n"

/-- A new connection that has read it. -/
def redirected : Feeding :=
  { start 30000 {} {} with inBuf := (start 30000 {} {}).inBuf.sysread negativeMoved }

theorem redirected_buf :
    negativeMoved.length ≤ (start 30000 {} {}).inBuf.freecapa ∧
      redirected.toDl.buf = negativeMoved := by
  have hfree : negativeMoved.length ≤ (start 30000 {} {}).inBuf.freecapa := by
    rw [show (start 30000 {} {}).inBuf.freecapa = 30000 from InBuf.setsize_freecapa 30000]
    decide
  exact ⟨hfree, (InBuf.sysread_sound (InBuf.setsize_sound 30000) hfree).2⟩

theorem load_negativeMoved :
    Redirects redirected.toDl.job negativeMoved = true ∧
      Dl.fieldNum (Header.load negativeMoved).2.hd .contentLength 0 < 0 ∧
      sizeT (Dl.fieldNum (Header.load negativeMoved).2.hd .contentLength 0) = 2 ^ 64 - 5 := by
  unfold negativeMoved lit
  rw [String.toList_ofList]
  decide +kernel

theorem redirected_negative : redirected.toDl.NegativeRedirect plainEnv := by
  refine ⟨rfl, by decide, ?_, ?_⟩
  · rw [redirected_buf.2]
    exact load_negativeMoved.1
  · rw [redirected_buf.2]
    exact load_negativeMoved.2.1

theorem redirected_dropped :
    (redirected.pass plainEnv {} false).1.inBuf = redirected.inBuf.drop (2 ^ 64 - 5) := by
  have hlen := load_negativeMoved.2.2
  have hst : redirected.job.dlState = .getHeader := rfl
  rw [pass_inBuf (by rw [hst]; decide), Dl.drops, show redirected.toDl.job.dlState = _ from hst]
  simp only [Dl.headDrops_negative redirected_negative, redirected_buf.2, hlen, List.foldl_cons,
    List.foldl_nil]

/-- The position for reading goes back beyond the start of the buffer, that is to its very end. -/
theorem negative_length_wraps :
    runs step (start 30000 {} {}) [.read negativeMoved] = some redirected ∧
      ¬ redirected.PassFits (.pass plainEnv {} false) ∧
      (redirected.pass plainEnv {} false).1.inBuf.r = 2 ^ 64 - 5 ∧
      ¬ (redirected.pass plainEnv {} false).1.inBuf.Ordered := by
  have hw : redirected.inBuf.w = negativeMoved.length := Nat.zero_add _
  have hr : redirected.inBuf.r = 0 := rfl
  have hlen : negativeMoved.length = 64 := by decide
  have hdropped : redirected.inBuf.drop (2 ^ 64 - 5) = { redirected.inBuf with r := 2 ^ 64 - 5 } := by
    unfold InBuf.drop
    simp only [hr, hw, hlen]
    exact if_neg (by decide)
  refine ⟨runs_cons.mpr ⟨redirected, step_read redirected_buf.1, rfl⟩, ?_, ?_, ?_⟩
  · exact negative_unfit redirected_negative
  · rw [redirected_dropped, hdropped]
  · rw [redirected_dropped, hdropped]
    intro hord
    have hle : 2 ^ 64 - 5 ≤ redirected.inBuf.w := hord.1
    omega

end Feeding

end Acng
