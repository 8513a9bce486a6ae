import Acng.Proofs.WorkLoop

namespace Acng
open Lib

namespace Exchange

variable {env : Env} {io : Io} {con : Option Upstream} {x : Exchange} {res : Nat}

theorem targetChange_res (env : Env) (io : Io) (x : Exchange) (front : PipeJob)
    (rest : List PipeJob) (buf : Bytes) :
    (targetChange env io x front rest buf).2 = HINT_TGTCHANGE ∨
      (targetChange env io x front rest buf).2 = HINT_TGTCHANGE ||| HINT_RECONNECT_NOW := by
  unfold targetChange
  simp only
  split
  · split
    · exact .inl rfl
    · exact .inr rfl
  · exact .inr rfl

/-- `HINT_DONE` does not come with other hints out of the queue. -/
theorem procQueue_done {queue : List PipeJob} (h : (procQueue env io x queue).2 = some res)
    (hdone : res &&& HINT_DONE ≠ 0) : res = HINT_DONE := by
  induction queue generalizing x with
  | nil =>
    cases h
    exact absurd rfl hdone
  | cons p rest ih =>
    unfold procQueue at h
    by_cases hb : x.inBuf.isEmpty = true
    · rw [if_pos hb] at h
      exact (Option.some.inj h).symm
    rw [if_neg hb] at h
    generalize p.process env io false x.inBuf = r at h
    obtain ⟨p', buf, c⟩ := r
    simp only at h
    by_cases hmore : c = HINT_MORE
    · rw [if_pos hmore] at h
      cases h
    rw [if_neg hmore] at h
    by_cases hfin : c &&& HINT_DONE ≠ 0
    · rw [if_pos hfin] at h
      split at h
      · cases h
        exact absurd rfl hdone
      · split at h
        · cases h
          exact absurd rfl hdone
        · exact ih h
    rw [if_neg hfin] at h
    split at h
    · obtain htarget | htarget := targetChange_res env io x p' rest buf
      · rw [htarget] at h
        cases h
        exact absurd rfl hdone
      · rw [htarget] at h
        cases h
        exact absurd rfl hdone
    · cases h
      exact absurd hdone hfin

theorem selectLoop_done {es : List SelectEvent} {e : Exchanged}
    (h : selectLoop env io con x es = some e) :
    e.con.isSome = con.isSome ∧ (e.res &&& HINT_DONE ≠ 0 → e.res = HINT_DONE) := by
  induction es generalizing con x with
  | nil => cases h
  | cons ev es ih =>
    cases ev with
    | interrupted => exact ih h
    | stop | badFd | failed | wakeup =>
      cases h
      refine ⟨rfl, fun hdone => absurd hdone ?_⟩
      simp only
      decide
    | timeout =>
      cases h
      refine ⟨rfl, fun hdone => absurd hdone ?_⟩
      simp only
      split
      · decide
      · decide
    | sendFailed | lost =>
      cases con with
      | none => cases h
      | some up =>
        cases h
        refine ⟨rfl, fun hdone => absurd hdone ?_⟩
        simp only
        decide
    | read r =>
      cases con with
      | none => cases h
      | some up =>
        rw [selectLoop] at h
        simp only at h
        split at h
        · rename_i hq
          cases h
          exact ⟨rfl, procQueue_done (congrArg Prod.snd hq)⟩
        · have hrest := ih h
          exact ⟨hrest.1, hrest.2⟩

theorem exchangeData_done {es : List SelectEvent} {e : Exchanged}
    (h : exchangeData env io con x es = some e) :
    e.con.isSome = con.isSome ∧ (e.res &&& HINT_DONE ≠ 0 → e.res = HINT_DONE) := by
  unfold exchangeData at h
  simp only at h
  split at h
  · split at h
    · rename_i hq
      cases h
      exact ⟨rfl, procQueue_done (congrArg Prod.snd hq)⟩
    · have hrest := selectLoop_done h
      exact ⟨hrest.1, hrest.2⟩
  · exact selectLoop_done h

end Exchange

namespace Worker

variable {cfg : WorkCfg} {t : Turn} {w : Worker} {res : Nat}

/-- Without a connection no job is active. -/
def Idle (w : Worker) : Prop := w.con = none → w.activeJobs = []

theorem moveJobsBack_idle (w : Worker) : w.moveJobsBack.Idle := fun _ => rfl

theorem recycleIdleConnection_active (w : Worker) :
    w.recycleIdleConnection.activeJobs = w.activeJobs := by
  unfold recycleIdleConnection
  split
  · rfl
  · rfl

theorem lostCon_res (w : Worker) (res : Nat) :
    (w.lostCon cfg res).2 = res ∨ (w.lostCon cfg res).2 = res ||| EFLAG_JOB_BROKEN := by
  unfold lostCon
  split
  · exact .inl rfl
  · split
    · exact .inl rfl
    · simp only
      split
      · exact .inl rfl
      · split
        · exact .inr rfl
        · exact .inl rfl

theorem lostCon_kept (w : Worker) (hkeep : res &&& EFLAG_LOST_CON = 0) :
    w.lostCon cfg res = (w, res) := by
  unfold lostCon
  split
  · rfl
  · rw [if_pos hkeep]

theorem stays_active {r : Nat} (hdone : res &&& HINT_DONE ≠ 0 → res = HINT_DONE)
    (hr : r = res ∨ r = res ||| EFLAG_JOB_BROKEN)
    (hstay : r &&& (HINT_DONE ||| HINT_MORE) ≠ 0 ∨ r = HINT_SWITCH) :
    res = HINT_DONE ∨ res = HINT_SWITCH := by
  obtain rfl | rfl := hr
  · exact hstay.imp hdone id
  · obtain hstay | hstay := hstay
    · refine .inl (hdone fun hno => hstay ?_)
      have hmore : HINT_DONE ||| HINT_MORE = HINT_DONE := rfl
      rw [hmore, Nat.and_or_distrib_right, hno]
      rfl
    · -- the bit of a broken job is not in `HINT_SWITCH`
      have hbit : (res ||| EFLAG_JOB_BROKEN).testBit 2 = true := by
        rw [Nat.testBit_or, show EFLAG_JOB_BROKEN.testBit 2 = true from rfl, Bool.or_true]
      rw [hstay] at hbit
      exact absurd hbit (by decide)

/-- The jobs stay active behind `HINT_DONE`, `HINT_MORE` and `HINT_SWITCH` only, and these keep the
connection. -/
theorem afterExchange_idle (cfg : WorkCfg) (hdone : res &&& HINT_DONE ≠ 0 → res = HINT_DONE)
    (h : w.Idle) : (w.afterExchange cfg res).Idle := by
  unfold afterExchange
  simp only
  have hv : (if w.activeJobs.isEmpty then { w with bStopRequesting := false } else w).Idle ∧
      (if w.activeJobs.isEmpty then { w with bStopRequesting := false } else w).activeJobs =
        w.activeJobs := by
    split
    · exact ⟨h, rfl⟩
    · exact ⟨h, rfl⟩
  generalize (if w.activeJobs.isEmpty then { w with bStopRequesting := false } else w) = v at hv ⊢
  obtain ⟨hidle, hsame⟩ := hv
  split
  · rename_i hempty
    simp only [Bool.and_eq_true, List.isEmpty_iff] at hempty
    exact fun _ => (recycleIdleConnection_active v).trans (hsame.trans hempty.1.1)
  have hu : res &&& (HINT_RECONNECT_NOW ||| EFLAG_LOST_CON) = 0 →
      (if res &&& (HINT_RECONNECT_NOW ||| EFLAG_LOST_CON) ≠ 0 then
        { v with con := none, x := { v.x with inBuf := [] } } else v) = v :=
    fun hnow => if_neg (not_not.mpr hnow)
  generalize (if res &&& (HINT_RECONNECT_NOW ||| EFLAG_LOST_CON) ≠ 0 then
    { v with con := none, x := { v.x with inBuf := [] } } else v) = u at hu ⊢
  split
  · exact moveJobsBack_idle _
  split
  · rename_i hstay
    rw [Bool.or_eq_true, decide_eq_true_eq, decide_eq_true_eq] at hstay
    obtain rfl | rfl := stays_active hdone (lostCon_res u res) hstay
    · rw [lostCon_kept u (by decide), hu (by decide)]
      exact hidle
    · rw [lostCon_kept u (by decide), hu (by decide)]
      exact hidle
  · exact moveJobsBack_idle _

theorem addRequests_con (up : Upstream) (w : Worker) (js : List PipeJob) :
    (w.addRequests cfg t up js).con = w.con ∧ (w.addRequests cfg t up js).returned = w.returned := by
  induction js generalizing w with
  | nil => exact ⟨rfl, rfl⟩
  | cons p rest ih =>
    unfold addRequests
    split
    · exact ⟨rfl, rfl⟩
    · split
      · exact ih w
      · simp only
        split
        · exact ⟨rfl, rfl⟩
        · split
          · exact ⟨rfl, rfl⟩
          · exact ih _

theorem request_con (up : Upstream) (w : Worker) :
    (w.request cfg t up).worker.con = w.con := by
  unfold request
  simp only [Entered.worker]
  split
  · rfl
  · exact (addRequests_con up w w.nextJobs).1

theorem reconnect_idle (w : Worker) : (w.reconnect cfg t).worker.Idle := by
  unfold reconnect
  simp only
  split
  · exact fun _ => rfl
  · split
    · exact fun _ => rfl
    · exact fun _ => rfl
    · exact fun hcon => absurd ((request_con _ _).symm.trans hcon) nofun

theorem enter_idle (h : w.Idle) : (w.enter cfg t).worker.Idle := by
  unfold enter
  have hmean : (w.meanwhile t).Idle := fun hcon => List.map_eq_nil_iff.mpr (h hcon)
  split
  · rename_i hstop
    simp only [Bool.and_eq_true, List.isEmpty_iff] at hstop
    exact fun _ => (recycleIdleConnection_active w).trans hstop.2
  · simp only
    split
    · exact hmean
    · split
      · exact reconnect_idle _
      · rename_i up hup
        exact fun hcon => absurd (hup.symm.trans ((request_con up _).symm.trans hcon)) nofun

theorem turn_idle {w' : Worker} (h : w.Idle) (hturn : turn cfg w t = some w')
    (hret : w'.returned = false) : w'.Idle := by
  have hidle : (w.enter cfg t).worker.Idle := enter_idle h
  unfold turn at hturn
  split at hturn
  · cases hturn
  generalize w.enter cfg t = r at hturn hidle
  cases r with
  | ended v =>
    cases hturn
    exact hidle
  | select v =>
    obtain ⟨e, he, rfl⟩ := Option.map_eq_some_iff.mp hturn
    split at hret
    · cases hret
    rename_i hafter
    rw [if_neg hafter]
    obtain ⟨hcon, hdone⟩ := Exchange.exchangeData_done he
    refine afterExchange_idle cfg hdone (fun hnone => ?_)
    have hv : v.con = none := by
      have hnone' : e.con = none := hnone
      rw [hnone'] at hcon
      exact Option.isSome_eq_false_iff.mp hcon.symm |> Option.isNone_iff_eq_none.mp
    exact ((Exchange.exchangeData_spec he).nothing (hidle hv)).1

/-- In every run of the main loop: while there is no connection, no job is active. -/
theorem workLoop_idle {ts : List Turn} (h : workLoop cfg ts = some w) (hret : w.returned = false) :
    w.Idle := by
  refine runs_induct (motive := fun _ w => w.returned = false → w.Idle) ?_ ?_ h hret
  · exact fun _ _ => rfl
  · intro _ t m w' _ ih hturn hret'
    have hm : m.returned = false := by
      unfold turn at hturn
      split at hturn
      · cases hturn
      · rename_i hno
        exact Bool.eq_false_iff.mpr hno
    exact turn_idle (ih hm) hturn hret'

end Worker

end Acng
