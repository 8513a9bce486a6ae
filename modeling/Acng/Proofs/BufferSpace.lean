import Acng.Proofs.InBuf

namespace Acng
open Lib

namespace InBuf

variable {b : InBuf}

/-- No more space can be made than there is behind the data. -/
def Exhausted (b : InBuf) : Prop := b.size < b.totalcapa ∧ b.freecapa = 0

theorem exhausted_iff (h : b.Sound) : b.Exhausted ↔ 0 < b.r ∧ b.w = b.totalcapa := by
  unfold Exhausted
  rw [size_eq h, freecapa_eq h]
  obtain ⟨⟨hr, hw⟩, hcapa, hempty⟩ := h
  omega

end InBuf

namespace Dl

/-- The head at the front is a hint only, and does not want the connection to be closed. -/
def HintOnly (d : Dl) : Prop :=
  0 < (Header.load d.buf).1 ∧ (Header.load d.buf).2.hd.type = .answer ∧
    (Header.load d.buf).2.hd.status.code < 200 ∧ closeHint (Header.load d.buf).2.hd = 0

theorem or_not_more {ret x : Nat} (hx : x ≠ 0) : ret ||| x ≠ HINT_MORE := by
  intro h
  have hle : x ≤ ret ||| x := Nat.right_le_or
  rw [h] at hle
  exact hx (Nat.le_zero.mp hle)

theorem redirect_not_more {d d' : Dl} {h : Header} {ret : Nat} :
    d.redirect h ret ≠ .ret d' HINT_MORE := by
  unfold redirect
  simp only
  split
  · intro he
    exact or_not_more (by decide) (HeadStep.ret.inj he).2
  · intro he
    exact or_not_more (by decide) (HeadStep.ret.inj he).2

theorem framing_not_more {env : Env} {d d' : Dl} {h : Header} {n ret : Nat} :
    d.framing env h n ret ≠ .ret d' HINT_MORE := by
  unfold framing
  simp only
  split
  · nofun
  · split
    · nofun
    · split
      · intro he
        exact or_not_more (by decide) (HeadStep.ret.inj he).2
      · nofun

theorem headStep_more {env : Env} {bOnly : Bool} {d d' : Dl}
    (hs : d.headStep env bOnly = .ret d' HINT_MORE) :
    d.buf = [] ∨ (Header.load d.buf).1 = 0 ∨ d.HintOnly := by
  have hcase := headStep_cases env bOnly d
  rw [hs] at hcase
  generalize hstep : HeadStep.ret d' HINT_MORE = step at hcase
  cases hcase with
  | missing h => exact h.imp_right .inl
  | invalid => cases hstep
  | noAnswer => cases hstep
  | hint hhead hcode =>
    have hclose : closeHint (Header.load d.buf).2.hd = 0 :=
      (Nat.or_zero _).symm.trans (HeadStep.ret.inj hstep).2.symm
    exact .inr (.inr ⟨hhead.1, hhead.2, hcode, hclose⟩)
  | redirected => exact absurd hstep.symm redirect_not_more
  | elsewhere => exact absurd (HeadStep.ret.inj hstep).2.symm (or_not_more (by decide))
  | keyfile => exact absurd (HeadStep.ret.inj hstep).2.symm (or_not_more (by decide))
  | framed => exact absurd hstep.symm framing_not_more

theorem procHeader_more {env : Env} {io : Io} {bOnly : Bool} {d : Dl}
    (h : (d.procHeader env io bOnly).2 = some HINT_MORE) :
    d.buf = [] ∨ (Header.load d.buf).1 = 0 ∨ d.HintOnly := by
  cases hs : d.headStep env bOnly with
  | ret d' res =>
    rw [procHeader_returned hs] at h
    obtain rfl : res = HINT_MORE := Option.some.inj h
    exact headStep_more hs
  | save d' hd n contLen ret =>
    rw [procHeader, hs] at h
    simp only at h
    split at h
    · exact absurd (Option.some.inj h) (or_not_more (by decide))
    · exact absurd (Option.some.inj h) (or_not_more (by decide))
    · cases h

theorem hintOnly_returns {env : Env} {bOnly : Bool} {d : Dl} (h : d.HintOnly) :
    d.headStep env bOnly =
      .ret { d with buf := d.buf.drop (Header.load d.buf).1.toNat } HINT_MORE := by
  obtain ⟨hpos, hans, hcode, hclose⟩ := h
  rw [headStep_answer env bOnly ⟨hpos, hans⟩, if_pos hcode, hclose]
  rfl

/-- `NewDataHandler` asks for more only if it has used up what there was. -/
theorem procData_more {io : Io} {d : Dl} (h : (d.procData io).2 = some HINT_MORE) :
    (d.procData io).1.buf = [] := by
  rcases procData_cases io d with ⟨-, he⟩ | ⟨-, hlt, he⟩ | ⟨-, -, he⟩
  · rw [he] at h
    exact absurd (Option.some.inj h) (by decide)
  · rw [he]
    rw [toStore_length] at hlt
    apply List.drop_eq_nil_of_le
    rw [toStore_length]
    omega
  · rw [he] at h
    cases h

theorem procTrailer_more_iff (d : Dl) :
    d.procTrailer.2 = some HINT_MORE ↔ d.buf.length < 2 ∨ find crlf (cstr d.buf) = none := by
  unfold procTrailer
  split
  · rename_i hshort
    exact iff_of_true rfl (.inl hshort)
  · rename_i hlong
    cases hfind : find crlf (cstr d.buf) with
    | none => exact iff_of_true rfl (.inr rfl)
    | some p =>
      cases p with
      | zero => exact iff_of_false nofun (by simp [hlong])
      | succ p => exact iff_of_false nofun (by simp [hlong])

end Dl

namespace Feeding

variable {env : Env} {io : Io} {bOnly : Bool} {s t : Feeding}

/-- The length of a redirection takes the position for reading beyond the start of the buffer. -/
def Wraps (env : Env) (s : Feeding) : Prop :=
  s.toDl.NegativeRedirect env ∧
    s.inBuf.r + Dl.fieldNum (Header.load s.toDl.buf).2.hd .contentLength 0 < 0

/-- The data reach the end of the buffer but not its start, and they are not enough to go on. Or a
hint in front of them is all that can be used. -/
def Stuck (s : Feeding) : Prop :=
  s.inBuf.w = s.inBuf.totalcapa ∧
    match s.job.dlState with
    | .getHeader =>
      ((Header.load s.toDl.buf).1 = 0 ∧ 0 < s.inBuf.r) ∨
        (s.toDl.HintOnly ∧ (Header.load s.toDl.buf).1.toNat < s.inBuf.size)
    | .getChunkTrailer =>
      (s.inBuf.size < 2 ∨ find crlf (cstr s.toDl.buf) = none) ∧ 0 < s.inBuf.r
    | _ => False

/-- A job that asks for more leaves space for it, if its data are fewer than the capacity. -/
def OffersSpace (s : Feeding) : BufAct → Prop
  | .pass env io bOnly =>
    bOnly = false → (s.pass env io bOnly).2 = some HINT_MORE →
      ¬ (s.pass env io bOnly).1.inBuf.Exhausted
  | _ => True

def PassesStuck (s : Feeding) : BufAct → Prop
  | .pass _ _ bOnly => bOnly = false ∧ s.Stuck
  | _ => False

def PassesWrapping (s : Feeding) : BufAct → Prop
  | .pass env _ _ => s.Wraps env
  | _ => False

theorem pass_sound (h : s.inBuf.Sound) (hno : ¬ s.Wraps env) :
    (s.pass env io bOnly).1.inBuf.Sound := by
  by_cases hneg : s.toDl.NegativeRedirect env
  · have hst : s.job.dlState = .getHeader := hneg.1
    have hbelow := hneg.2.2.2
    have hfrom := Dl.fieldNum_ge (Header.load s.toDl.buf).2.hd .contentLength
    have hback : 0 ≤ s.inBuf.r + Dl.fieldNum (Header.load s.toDl.buf).2.hd .contentLength 0 := by
      by_contra hlt
      exact hno ⟨hneg, not_le.mp hlt⟩
    rw [pass_inBuf (by rw [hst]; decide), Dl.drops, show s.toDl.job.dlState = .getHeader from hst]
    simp only [Dl.headDrops_negative hneg, List.foldl_cons, List.foldl_nil]
    have hcapa := h.capa
    have hord := h.ordered
    unfold InBuf.Ordered at hord
    apply InBuf.drop_sound h
    · unfold sizeT
      omega
    · refine .inr ?_
      unfold sizeT
      omega
  · exact (pass_fits io bOnly h hneg).2.1

theorem step_keeps_sound (h : s.inBuf.Sound) {a : BufAct} (hno : ¬ s.PassesWrapping a)
    (hs : s.step a = some t) : t.inBuf.Sound := by
  cases a with
  | pass env io bOnly =>
    obtain rfl := Option.some.inj hs
    exact pass_sound h hno
  | clear => exact step_sound h id hs
  | read bytes => exact step_sound h id hs
  | turnTo job fi => exact step_sound h id hs

/-- Without data there is nothing that keeps the buffer from being filled. -/
theorem not_exhausted_of_empty {b : InBuf} (h : b.Sound) (hempty : b.view = []) : ¬ b.Exhausted := by
  have hlen := InBuf.view_length h
  rw [hempty, InBuf.size_eq h] at hlen
  have hzero := h.empty
  have hord := h.ordered
  unfold InBuf.Ordered at hord
  rw [InBuf.exhausted_iff h]
  simp only [List.length_nil] at hlen
  omega

/-- A hint in front of other data leaves the end of the buffer where it is. -/
theorem hint_exhausted_iff (h : s.inBuf.Sound) {n : Nat} (hpos : 0 < n) (hle : n ≤ s.inBuf.size) :
    (s.inBuf.drop n).Exhausted ↔ s.inBuf.w = s.inBuf.totalcapa ∧ n < s.inBuf.size := by
  have hsize := InBuf.size_eq h
  have hcapa := h.capa
  have hord := h.ordered
  unfold InBuf.Ordered at hord
  have hsound : (s.inBuf.drop n).Sound := InBuf.drop_sound h (by omega) (.inl hle)
  have hmod : (s.inBuf.r + n) % 2 ^ 64 = s.inBuf.r + n := Nat.mod_eq_of_lt (by omega)
  rw [InBuf.exhausted_iff hsound, InBuf.drop_totalcapa]
  unfold InBuf.drop
  simp only [hmod]
  split
  · rename_i hall
    refine iff_of_false (fun hexh => absurd hexh.1 (lt_irrefl 0)) (fun hstuck => ?_)
    omega
  · rename_i hrest
    simp only
    omega

theorem header_exhausted_iff (h : s.inBuf.Sound) (hst : s.job.dlState = .getHeader) :
    ((s.toDl.procHeader env io bOnly).2 = some HINT_MORE ∧
        ((s.toDl.headDrops env bOnly).foldl InBuf.drop s.inBuf).Exhausted) ↔ s.Stuck := by
  have hlen : s.toDl.buf.length = s.inBuf.size := InBuf.view_length h
  have hload := Header.load_le s.toDl.buf none
  have hkept (hinc : (Header.load s.toDl.buf).1 = 0) : s.toDl.headDrops env bOnly = [] := by
    unfold Dl.headDrops
    simp [hinc]
  have hhint (hh : s.toDl.HintOnly) :
      s.toDl.headDrops env bOnly = [(Header.load s.toDl.buf).1.toNat] := by
    obtain ⟨hpos, hans, hcode, -⟩ := hh
    have hemp := Dl.isEmpty_of_load hpos
    unfold Dl.headDrops
    simp [hemp, not_le.mpr hpos, hans, hcode]
  rw [Stuck, hst]
  simp only
  constructor
  · rintro ⟨hmore, hexh⟩
    rcases Dl.procHeader_more hmore with hnil | hinc | hh
    · have hinc : (Header.load s.toDl.buf).1 = 0 := by
        rw [hnil]
        rfl
      rw [hkept hinc] at hexh
      exact absurd hexh (not_exhausted_of_empty h hnil)
    · rw [hkept hinc] at hexh
      obtain ⟨hr, hw⟩ := (InBuf.exhausted_iff h).mp hexh
      exact ⟨hw, .inl ⟨hinc, hr⟩⟩
    · rw [hhint hh] at hexh
      have hpos := hh.1
      obtain ⟨hw, hn⟩ := (hint_exhausted_iff h (by omega) (by omega)).mp hexh
      exact ⟨hw, .inr ⟨hh, hn⟩⟩
  · rintro ⟨hw, ⟨hinc, hr⟩ | ⟨hh, hn⟩⟩
    · rw [Dl.procHeader_returned (Dl.headStep_incomplete _ _ _ hinc), hkept hinc]
      exact ⟨rfl, (InBuf.exhausted_iff h).mpr ⟨hr, hw⟩⟩
    · rw [Dl.procHeader_returned (Dl.hintOnly_returns hh), hhint hh]
      have hpos := hh.1
      exact ⟨rfl, (hint_exhausted_iff h (by omega) (by omega)).mpr ⟨hw, hn⟩⟩

theorem trailer_exhausted_iff (h : s.inBuf.Sound) (hst : s.job.dlState = .getChunkTrailer) :
    (s.toDl.procTrailer.2 = some HINT_MORE ∧
        (s.toDl.trailerDrops.foldl InBuf.drop s.inBuf).Exhausted) ↔ s.Stuck := by
  have hlen : s.toDl.buf.length = s.inBuf.size := InBuf.view_length h
  have hkept (hmore : s.inBuf.size < 2 ∨ find crlf (cstr s.toDl.buf) = none) :
      s.toDl.trailerDrops = [] := by
    unfold Dl.trailerDrops
    rcases hmore with hshort | hnone
    · exact if_pos (hlen ▸ hshort)
    · rw [hnone]
      exact ite_self _
  rw [Dl.procTrailer_more_iff, hlen, Stuck, hst]
  simp only
  constructor
  · rintro ⟨hmore, hexh⟩
    rw [hkept hmore] at hexh
    obtain ⟨hr, hw⟩ := (InBuf.exhausted_iff h).mp hexh
    exact ⟨hw, hmore, hr⟩
  · rintro ⟨hw, hmore, hr⟩
    rw [hkept hmore]
    exact ⟨hmore, (InBuf.exhausted_iff h).mpr ⟨hr, hw⟩⟩

/-- A state that uses up its data, or moves them to the front, leaves space behind them. -/
theorem data_not_exhausted (h : s.inBuf.Sound)
    (hst : s.job.dlState = .processData ∨ s.job.dlState = .processChunkData)
    (hmore : (s.pass env io bOnly).2 = some HINT_MORE) :
    ¬ (s.pass env io bOnly).1.inBuf.Exhausted := by
  have hno : ¬ s.toDl.NegativeRedirect env := by
    rintro ⟨hhead, -⟩
    rcases hst with hd | hd
    · cases hhead.symm.trans hd
    · cases hhead.symm.trans hd
  have hproc : s.toDl.procStep env io bOnly = s.toDl.procData io := by
    unfold Dl.procStep
    rcases hst with hd | hd
    · rw [show s.toDl.job.dlState = _ from hd]
    · rw [show s.toDl.job.dlState = _ from hd]
  obtain ⟨-, hsound, htoDl⟩ := pass_fits io bOnly h hno
  have hempty : (s.toDl.procData io).1.buf = [] := Dl.procData_more (hproc ▸ hmore)
  rw [← hproc, ← htoDl] at hempty
  exact not_exhausted_of_empty hsound hempty

theorem chunkHead_not_exhausted (h : s.inBuf.Sound) (hst : s.job.dlState = .getChunkHead)
    (hmore : (s.pass env io bOnly).2 = some HINT_MORE) :
    ¬ (s.pass env io bOnly).1.inBuf.Exhausted := by
  have hno : ¬ s.toDl.NegativeRedirect env := fun hneg => by cases hneg.1.symm.trans hst
  have hlen : s.toDl.buf.length = s.inBuf.size := InBuf.view_length h
  have hshort := toDl_length h
  obtain ⟨hsum, -⟩ := Dl.drops_consumes io bOnly (by omega) hno
  obtain ⟨-, hsound, -⟩ := InBuf.dropsFit_of_sum h (hlen ▸ hsum)
  have hmoved : (s.pass env io bOnly).1.inBuf =
      ((s.toDl.drops env io bOnly).foldl InBuf.drop s.inBuf).move := by
    unfold pass at hmore ⊢
    simp only at hmore
    simp only [hst, hmore, decide_true, Bool.and_self, if_true]
  obtain ⟨hmsound, hfront⟩ := InBuf.move_sound hsound
  rw [hmoved, InBuf.exhausted_iff hmsound, hfront]
  exact fun hexh => absurd hexh.1 (lt_irrefl 0)

theorem pass_exhausted_iff (env : Env) (io : Io) (bOnly : Bool) (h : s.inBuf.Sound) :
    ((s.pass env io bOnly).2 = some HINT_MORE ∧ (s.pass env io bOnly).1.inBuf.Exhausted) ↔
      s.Stuck := by
  have hres : (s.pass env io bOnly).2 = (s.toDl.procStep env io bOnly).2 := rfl
  have hnot (hst : s.job.dlState ≠ .getHeader ∧ s.job.dlState ≠ .getChunkTrailer) : ¬ s.Stuck := by
    rintro ⟨-, hstuck⟩
    split at hstuck
    · rename_i hd
      exact hst.1 hd
    · rename_i hd
      exact hst.2 hd
    · exact hstuck
  cases hst : s.job.dlState with
  | getHeader =>
    rw [pass_inBuf (by rw [hst]; decide), hres, Dl.drops, Dl.procStep,
      show s.toDl.job.dlState = _ from hst]
    exact header_exhausted_iff h hst
  | getChunkTrailer =>
    rw [pass_inBuf (by rw [hst]; decide), hres, Dl.drops, Dl.procStep,
      show s.toDl.job.dlState = _ from hst]
    exact trailer_exhausted_iff h hst
  | getChunkHead =>
    refine iff_of_false (fun hexh => chunkHead_not_exhausted h hst hexh.1 hexh.2) (hnot ?_)
    rw [hst]
    decide
  | processData =>
    refine iff_of_false (fun hexh => data_not_exhausted h (.inl hst) hexh.1 hexh.2) (hnot ?_)
    rw [hst]
    decide
  | processChunkData =>
    refine iff_of_false (fun hexh => data_not_exhausted h (.inr hst) hexh.1 hexh.2) (hnot ?_)
    rw [hst]
    decide
  | finishJob =>
    refine iff_of_false (fun hexh => ?_) (hnot (by rw [hst]; decide))
    rw [hres, Dl.procStep, show s.toDl.job.dlState = _ from hst] at hexh
    exact absurd (Option.some.inj hexh.1) (by decide)

theorem offersSpace_iff (h : s.inBuf.Sound) {a : BufAct} : s.OffersSpace a ↔ ¬ s.PassesStuck a := by
  cases a with
  | pass env io bOnly =>
    have hexh := pass_exhausted_iff env io bOnly h
    simp only [OffersSpace, PassesStuck, ← hexh, not_and]
  | clear => exact iff_of_true trivial id
  | read bytes => exact iff_of_true trivial id
  | turnTo job fi => exact iff_of_true trivial id

/-- As long as no index wraps, the runs that leave space at every demand for more are those in which no
job is stuck with consumed bytes in front of a full buffer. -/
theorem space_offered_iff (capa : UInt32) (job : DlJob) (fi : FileItem) (as : List BufAct)
    (hno : ∀ pre a post m, as = pre ++ a :: post → runs step (start capa job fi) pre = some m →
      ¬ m.PassesWrapping a) :
    (∀ pre a post m, as = pre ++ a :: post → runs step (start capa job fi) pre = some m →
        m.OffersSpace a) ↔
      ∀ pre a post m, as = pre ++ a :: post → runs step (start capa job fi) pre = some m →
        ¬ m.PassesStuck a := by
  have hsound : ∀ pre post m, as = pre ++ post → runs step (start capa job fi) pre = some m →
      m.inBuf.Sound :=
    runs_inv (fun m => m.inBuf.Sound) (InBuf.setsize_sound capa)
      (fun m a t hi hno hs => step_keeps_sound hi hno hs)
      (fun pre a post m has hm _ => hno pre a post m has hm)
  constructor
  · intro hall pre a post m has hm
    exact (offersSpace_iff (hsound pre (a :: post) m has hm)).mp (hall pre a post m has hm)
  · intro hall pre a post m has hm
    exact (offersSpace_iff (hsound pre (a :: post) m has hm)).mpr (hall pre a post m has hm)

/-- A hint to go on, as it comes in front of the answer. -/
def hint : Bytes := lit "HTTP/1.1 102 Processing\r\n\r\n"

/-- A new connection that has read the hint, and with it the start of a long head. -/
def hinted (more : Nat) : Feeding :=
  { start 30000 {} {} with
    inBuf := (start 30000 {} {}).inBuf.sysread (hint ++ List.replicate more 120) }

theorem hinted_room {more : Nat} (h : more ≤ 29973) :
    (hint ++ List.replicate more 120).length ≤ (start 30000 {} {}).inBuf.freecapa := by
  have hfree : (start 30000 {} {}).inBuf.freecapa = 30000 := InBuf.setsize_freecapa 30000
  have hlen : hint.length = 27 := by decide
  rw [hfree, List.length_append, List.length_replicate, hlen]
  omega

theorem hinted_sound {more : Nat} (h : more ≤ 29973) :
    (hinted more).inBuf.Sound ∧ (hinted more).toDl.buf = hint ++ List.replicate more 120 :=
  InBuf.sysread_sound (InBuf.setsize_sound 30000) (hinted_room h)

theorem hinted_load {more : Nat} (h : more ≤ 29973) :
    Header.load (hinted more).toDl.buf = Header.load hint := by
  rw [(hinted_sound h).2]
  exact Header.load_append _ _ _ (by decide)

theorem hinted_size {more : Nat} (h : more ≤ 29973) : (hinted more).inBuf.size = 27 + more := by
  obtain ⟨hsound, hbuf⟩ := hinted_sound h
  have hview : (hinted more).inBuf.view = hint ++ List.replicate more 120 := hbuf
  have hlen : hint.length = 27 := by decide
  rw [← InBuf.view_length hsound, hview, List.length_append, List.length_replicate, hlen]

theorem hinted_end {more : Nat} (h : more ≤ 29973) :
    (hinted more).inBuf.w = 27 + more ∧ (hinted more).inBuf.totalcapa = 30000 := by
  have hsize := InBuf.size_eq (hinted_sound h).1
  rw [hinted_size h] at hsize
  refine ⟨hsize.symm, ?_⟩
  exact (InBuf.sysread_totalcapa (InBuf.setsize_sound 30000) (hinted_room h)).trans
    List.length_replicate

theorem hinted_stuck : (hinted 29973).Stuck := by
  obtain ⟨hw, hcapa⟩ := hinted_end le_rfl
  refine ⟨hw.trans hcapa.symm, .inr ⟨?_, ?_⟩⟩
  · unfold Dl.HintOnly
    rw [hinted_load le_rfl]
    decide
  · rw [hinted_load le_rfl, hinted_size le_rfl]
    decide

/-- The buffer has been filled with one read, and after the hint nothing more can be read. -/
theorem hint_leaves_no_space :
    runs step (start 30000 {} {}) [.read (hint ++ List.replicate 29973 120)] = some (hinted 29973) ∧
      ¬ (hinted 29973).OffersSpace (.pass plainEnv {} false) ∧
      ((hinted 29973).pass plainEnv {} false).1.inBuf.freecapa = 0 := by
  have hexh := (pass_exhausted_iff plainEnv {} false (hinted_sound le_rfl).1).mpr hinted_stuck
  refine ⟨runs_cons.mpr ⟨hinted 29973, step_read (hinted_room le_rfl), rfl⟩, ?_, hexh.2.2⟩
  exact fun hoffers => hoffers rfl hexh.1 hexh.2

/-- The same hint with less behind it. -/
theorem hint_leaves_space : (hinted 100).OffersSpace (.pass plainEnv {} false) := by
  have hread : (start 30000 {} {}).step (.read (hint ++ List.replicate 100 120)) =
      some (hinted 100) :=
    step_read (hinted_room (by decide))
  have hfree (pre : List BufAct) (a : BufAct) (post : List BufAct) (m : Feeding)
      (has : [.read (hint ++ List.replicate 100 120), .pass plainEnv {} false] = pre ++ a :: post)
      (hm : runs step (start 30000 {} {}) pre = some m) :
      ¬ m.PassesWrapping a ∧ ¬ m.PassesStuck a := by
    match pre, has with
    | [], has =>
      obtain ⟨rfl, -⟩ := List.cons.inj has
      exact ⟨id, id⟩
    | [_], has =>
      obtain ⟨rfl, hrest⟩ := List.cons.inj has
      obtain ⟨rfl, -⟩ := List.cons.inj hrest
      obtain ⟨m', hm', he⟩ := runs_cons.mp hm
      obtain rfl := Option.some.inj (hread.symm.trans hm')
      obtain rfl := Option.some.inj he
      refine ⟨fun hwrap => ?_, fun hstuck => ?_⟩
      · have hred := hwrap.1.2.2.1
        have hno : (Header.load hint).2.hd.status.isRedirect = false := by decide
        unfold Redirects at hred
        rw [hinted_load (by decide)] at hred
        simp [hno] at hred
      · have hw := hstuck.2.1
        obtain ⟨hend, hcapa⟩ := @hinted_end 100 (by decide)
        omega
    | _ :: _ :: pre, has =>
      obtain ⟨-, hrest⟩ := List.cons.inj has
      exact absurd (List.cons.inj hrest).2.symm (by simp)
  have hoffers := (space_offered_iff 30000 {} {} _
    (fun pre a post m has hm => (hfree pre a post m has hm).1)).mpr
    (fun pre a post m has hm => (hfree pre a post m has hm).2)
  exact hoffers [_] _ [] _ rfl (runs_cons.mpr ⟨_, hread, rfl⟩)

end Feeding

end Acng
