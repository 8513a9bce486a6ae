import Acng.WorkLoop
import Acng.Proofs.Pipeline

namespace Acng
open Lib

/-- The last final head that was read from the connection announced its end. -/
def announced (con : Option Upstream) : Bool := con.any (·.closing)

namespace Exchange

variable {env : Env} {io : Io}

/-- What the results of a pass over the buffer mean for a connection that announced its end. -/
structure PassSpec (queue : List PipeJob) (x : Exchange) (r : Option Nat) (closing quits : Bool) :
    Prop where
  waits : queue ≠ [] → r = none → x.queue ≠ []
  quit : quits = true → closing = true ∧
    ((r = some HINT_SWITCH ∧ x.queue = []) ∨ (r = some HINT_TGTCHANGE ∧ x.queue ≠ []))
  idle : quits = false → closing = true → ∀ res, r = some res → x.queue = [] →
    res &&& Worker.allErr ≠ 0
  change : quits = false → closing = true → ∀ res, r = some res → res &&& HINT_TGTCHANGE ≠ 0 →
    res &&& (HINT_RECONNECT_NOW ||| EFLAG_LOST_CON) ≠ 0

/-- Nobody is done with the connection, and the target stays. -/
theorem PassSpec.busy {queue : List PipeJob} {x : Exchange} {r : Option Nat} {closing : Bool}
    (waits : r = none → x.queue ≠ [])
    (idle : ∀ res, r = some res → x.queue = [] → res &&& Worker.allErr ≠ 0)
    (change : ∀ res, r = some res → res &&& HINT_TGTCHANGE = 0) :
    PassSpec queue x r closing false where
  waits := fun _ => waits
  quit := fun h => absurd h (by decide)
  idle := fun _ _ => idle
  change := fun _ _ res hr htgt => absurd (change res hr) htgt

/-- The last job is finished, or all of them leave for another target. -/
theorem PassSpec.leaving {queue : List PipeJob} {x : Exchange} {res : Nat} {closing : Bool}
    (h : (res = HINT_SWITCH ∧ x.queue = []) ∨ (res = HINT_TGTCHANGE ∧ x.queue ≠ [])) :
    PassSpec queue x (some res) closing closing where
  waits := fun _ hr => nomatch hr
  quit := fun hc =>
    ⟨hc, h.imp (fun h => ⟨congrArg some h.1, h.2⟩) (fun h => ⟨congrArg some h.1, h.2⟩)⟩
  idle := fun hno hc => absurd hc (hno ▸ Bool.false_ne_true)
  change := fun hno hc => absurd hc (hno ▸ Bool.false_ne_true)

/-- The jobs leave for another target, but the connection is not kept. -/
theorem PassSpec.dropping {queue : List PipeJob} {x : Exchange} {closing : Bool}
    (hx : x.queue ≠ []) :
    PassSpec queue x (some (HINT_TGTCHANGE ||| HINT_RECONNECT_NOW)) closing false where
  waits := fun _ hr => nomatch hr
  quit := fun h => absurd h Bool.false_ne_true
  idle := fun _ _ _ _ h => absurd h hx
  change := fun _ _ res hr _ => by
    cases hr
    decide

theorem targetChange_spec (env : Env) (io : Io) (x : Exchange) (front : PipeJob)
    (queue rest : List PipeJob) (buf : Bytes) (closing : Bool) :
    PassSpec queue (targetChange env io x front rest buf).1
      (some (targetChange env io x front rest buf).2) closing
      (closing && ((redirectRest env io rest buf).2.2 &&
        (redirectRest env io rest buf).2.1.isEmpty)) := by
  unfold targetChange
  obtain ⟨rest', buf', all⟩ := redirectRest env io rest buf
  cases all with
  | false =>
    simp only [Bool.false_eq_true, if_false, Bool.false_and, Bool.and_false]
    exact .dropping (List.cons_ne_nil _ _)
  | true =>
    cases hb : buf'.isEmpty with
    | false =>
      simp only [hb, Bool.false_eq_true, if_true, if_false, Bool.and_false]
      exact .dropping (List.cons_ne_nil _ _)
    | true =>
      simp only [hb, if_true, Bool.and_true]
      exact .leaving (.inr ⟨rfl, List.cons_ne_nil _ _⟩)

/-- The step and run lemma of the loop over the buffer. -/
theorem procQueue_spec (queue : List PipeJob) (x : Exchange) (closing : Bool) :
    PassSpec queue (procQueue env io x queue).1 (procQueue env io x queue).2
      (observe env io x closing queue).1 (observe env io x closing queue).2 := by
  induction queue generalizing x closing with
  | nil =>
    refine ⟨fun h => absurd rfl h, fun h => absurd h Bool.false_ne_true, ?_, ?_⟩
    · rintro - - res hr -
      cases hr
      decide
    · rintro - - res hr htgt
      cases hr
      exact absurd htgt (by decide)
  | cons p rest ih =>
    unfold procQueue observe
    by_cases hb : x.inBuf.isEmpty = true
    · simp only [hb, if_true]
      refine .busy (fun h => ?_) (fun _ _ h => ?_) (fun res hr => ?_)
      · cases h
      · cases h
      · cases hr
        decide
    simp only [hb]
    generalize (p.finalHead x.inBuf).getD closing = c
    generalize p.process env io false x.inBuf = r
    obtain ⟨p', buf, res⟩ := r
    simp only [Bool.false_eq_true, if_false]
    by_cases hmore : res = HINT_MORE
    · simp only [hmore, if_true]
      refine .busy (fun _ => List.cons_ne_nil _ _) (fun _ h => ?_) (fun _ h => ?_)
      · cases h
      · cases h
    simp only [hmore, if_false]
    by_cases hdone : res &&& HINT_DONE ≠ 0
    · rw [if_pos hdone, if_pos hdone]
      by_cases hnow : res &&& HINT_RECONNECT_NOW ≠ 0
      · rw [if_pos hnow, if_pos hnow]
        refine .busy (fun h => ?_) (fun res hr _ => ?_) (fun res hr => ?_)
        · cases h
        · cases hr
          decide
        · cases hr
          decide
      rw [if_neg hnow, if_neg hnow]
      cases rest with
      | nil => exact .leaving (.inl ⟨rfl, rfl⟩)
      | cons q rest =>
        simp only [List.isEmpty_cons, Bool.false_eq_true, if_false]
        have hi := ih { x with queue := q :: rest, inBuf := buf, left := x.left ++ [p'.release] } c
        exact ⟨fun _ => hi.waits (List.cons_ne_nil _ _), hi.quit, hi.idle, hi.change⟩
    rw [if_neg hdone, if_neg hdone]
    by_cases htgt : res &&& HINT_TGTCHANGE ≠ 0
    · rw [if_pos htgt, if_pos htgt]
      exact targetChange_spec env io x p' (p :: rest) rest buf _
    rw [if_neg htgt, if_neg htgt]
    refine .busy (fun h => ?_) (fun _ _ h => ?_) (fun res' hr => ?_)
    · cases h
    · cases h
    · cases hr
      exact not_not.mp htgt

/-- For what is read from the connection, the jobs are done with it behind a head that announced its
end. -/
def quitsOn (env : Env) (io : Io) : List SelectEvent → Option Upstream → Exchange → Bool
  | .interrupted :: es, con, x => quitsOn env io es con x
  | .read r :: es, some up, x =>
    let x := { x with inBuf := x.inBuf ++ r }
    let (closing, quits) := observe env io x up.closing x.queue
    match procQueue env io x x.queue with
    | (_, some _) => quits
    | (x', none) => quitsOn env io es (some { up with closing := closing }) x'
  | _, _, _ => false

/-- The same from the start of `ExchangeData`, with the old contents of the buffer. -/
def quits (env : Env) (io : Io) (es : List SelectEvent) (con : Option Upstream) (x : Exchange) :
    Bool :=
  let x := if x.queue.isEmpty then { x with inBuf := [] } else x
  match con, x.inBuf.isEmpty with
  | some up, false =>
    let (closing, quits) := observe env io x up.closing x.queue
    match procQueue env io x x.queue with
    | (_, some _) => quits
    | (x', none) => quitsOn env io es (some { up with closing := closing }) x'
  | _, _ => quitsOn env io es con x

/-- The thread is woken up, or the time is over, before anything else happens. -/
def woken : List SelectEvent → Bool
  | .interrupted :: es => woken es
  | .timeout :: _ | .wakeup :: _ => true
  | _ => false

/-- What a call of `ExchangeData` leaves, for the queue and the connection it began with. -/
structure ExchangeSpec (queue : List PipeJob) (con : Option Upstream) (quits woken : Bool)
    (e : Exchanged) : Prop where
  nothing : queue = [] → e.x.queue = [] ∧ announced e.con = announced con ∧ quits = false ∧
    (woken = true → e.res = HINT_SWITCH)
  quit : quits = true → announced e.con = true ∧
    ((e.res = HINT_SWITCH ∧ e.x.queue = []) ∨ (e.res = HINT_TGTCHANGE ∧ e.x.queue ≠ []))
  idle : quits = false → announced e.con = true → e.x.queue = [] → e.res &&& Worker.allErr = 0 →
    queue = [] ∧ woken = true
  change : quits = false → announced e.con = true → e.res &&& HINT_TGTCHANGE ≠ 0 →
    e.res &&& (HINT_RECONNECT_NOW ||| EFLAG_LOST_CON) ≠ 0

/-- A result that does not come from the buffer. -/
theorem ExchangeSpec.event {x : Exchange} {con : Option Upstream} {woken : Bool} {res : Nat}
    (wake : x.queue = [] → woken = true → res = HINT_SWITCH)
    (idle : x.queue = [] → res &&& Worker.allErr = 0 → woken = true)
    (change : res &&& HINT_TGTCHANGE = 0) :
    ExchangeSpec x.queue con false woken ⟨x, con, res⟩ where
  nothing := fun h => ⟨h, rfl, rfl, wake h⟩
  quit := fun h => absurd h Bool.false_ne_true
  idle := fun _ _ hq hr => ⟨hq, idle hq hr⟩
  change := fun _ _ htgt => absurd change htgt

theorem ExchangeSpec.error {x : Exchange} {con : Option Upstream} {res : Nat}
    (err : res &&& Worker.allErr ≠ 0) (change : res &&& HINT_TGTCHANGE = 0) :
    ExchangeSpec x.queue con false false ⟨x, con, res⟩ :=
  .event (fun _ => nofun) (fun _ h => absurd h err) change

theorem procQueue_nil (x : Exchange) :
    procQueue env io x [] = ({ x with queue := [] }, some EFLAG_LOST_CON) := rfl

/-- A pass over the buffer that returns. -/
theorem PassSpec.exchange {queue : List PipeJob} {x : Exchange} {res : Nat} {up : Upstream}
    {closing q : Bool} (h : PassSpec queue x (some res) closing q) (hq : queue ≠ []) :
    ExchangeSpec queue (some up) q false ⟨x, some { up with closing := closing }, res⟩ where
  nothing := fun h => absurd h hq
  quit := fun hquit => by
    obtain ⟨hc, hr⟩ := h.quit hquit
    refine ⟨hc, hr.imp (fun hr => ⟨?_, hr.2⟩) (fun hr => ⟨?_, hr.2⟩)⟩
    · exact Option.some.inj hr.1
    · exact Option.some.inj hr.1
  idle := fun hquit hc hx hr => absurd hr (h.idle hquit hc res rfl hx)
  change := fun hquit hc htgt => h.change hquit hc res rfl htgt

/-- With jobs in the queue only the jobs decide. -/
theorem ExchangeSpec.busy {queue queue' : List PipeJob} {con con' : Option Upstream} {q k k' : Bool}
    {e : Exchanged} (h : ExchangeSpec queue' con' q k e) (hq : queue ≠ []) (hq' : queue' ≠ []) :
    ExchangeSpec queue con q k' e where
  nothing := fun h' => absurd h' hq
  quit := h.quit
  idle := fun hquit hc hx hr => absurd (h.idle hquit hc hx hr).1 hq'
  change := h.change

/-- A pass over the buffer, and the events behind it if the jobs want more. -/
theorem pass_exchange {x : Exchange} {up : Upstream} {es : List SelectEvent} {k : Bool}
    {e : Exchanged} (hq : x.queue ≠ [])
    (next : ∀ (x' : Exchange) (con' : Option Upstream), selectLoop env io con' x' es = some e →
      ExchangeSpec x'.queue con' (quitsOn env io es con' x') (woken es) e)
    (h : (match procQueue env io x x.queue with
      | (x', some res) =>
        some ⟨x', some { up with closing := (observe env io x up.closing x.queue).1 }, res⟩
      | (x', none) =>
        selectLoop env io (some { up with closing := (observe env io x up.closing x.queue).1 }) x'
          es) = some e) :
    ExchangeSpec x.queue (some up)
      (match procQueue env io x x.queue with
        | (_, some _) => (observe env io x up.closing x.queue).2
        | (x', none) =>
          quitsOn env io es
            (some { up with closing := (observe env io x up.closing x.queue).1 }) x')
      k e := by
  have hp : PassSpec x.queue (procQueue env io x x.queue).1 (procQueue env io x x.queue).2 _ _ :=
    procQueue_spec x.queue x up.closing
  generalize procQueue env io x x.queue = r at hp h ⊢
  obtain ⟨x', _ | res⟩ := r
  · exact (next _ _ h).busy hq (hp.waits hq rfl)
  · cases h
    exact (hp.exchange hq).busy hq hq

/-- The step and run lemma of the loop around `select`. -/
theorem selectLoop_spec {con : Option Upstream} {x : Exchange} {es : List SelectEvent}
    {e : Exchanged} (h : selectLoop env io con x es = some e) :
    ExchangeSpec x.queue con (quitsOn env io es con x) (woken es) e := by
  induction es generalizing con x with
  | nil => cases h
  | cons ev es ih =>
    cases ev with
    | interrupted => exact ih h
    | stop =>
      cases h
      exact .error (by decide) (by decide)
    | badFd =>
      cases h
      exact .error (by decide) (by decide)
    | failed =>
      cases h
      exact .error (by decide) (by decide)
    | wakeup =>
      cases h
      exact .event (fun _ _ => rfl) (fun _ _ => rfl) (by decide)
    | timeout =>
      cases h
      refine .event (fun hq _ => ?_) (fun _ _ => rfl) ?_
      · rw [hq]
        rfl
      · split
        · decide
        · decide
    | sendFailed =>
      cases con with
      | none => cases h
      | some up =>
        cases h
        exact .error (by decide) (by decide)
    | lost =>
      cases con with
      | none => cases h
      | some up =>
        cases h
        exact .error (by decide) (by decide)
    | read r =>
      cases con with
      | none => cases h
      | some up =>
        by_cases hq : x.queue = []
        · -- nothing was expected
          simp only [selectLoop, quitsOn, woken, hq, procQueue_nil, observe, Option.some.injEq] at h ⊢
          subst h
          have herr : EFLAG_LOST_CON &&& Worker.allErr ≠ 0 := by decide
          have hsame : EFLAG_LOST_CON &&& HINT_TGTCHANGE = 0 := by decide
          exact ⟨fun _ => ⟨rfl, rfl, rfl, nofun⟩, nofun, fun _ _ _ h => absurd h herr,
            fun _ _ h => absurd hsame h⟩
        · have hx : ({ x with inBuf := x.inBuf ++ r } : Exchange).queue ≠ [] := hq
          exact pass_exchange hx (fun _ _ => ih) h

theorem exchangeData_spec {con : Option Upstream} {x : Exchange} {es : List SelectEvent}
    {e : Exchanged} (h : exchangeData env io con x es = some e) :
    ExchangeSpec x.queue con (quits env io es con x) (woken es) e := by
  have hqueue :
      (if x.queue.isEmpty then { x with inBuf := [] } else x : Exchange).queue = x.queue := by
    split
    · rfl
    · rfl
  have hidle : x.queue = [] →
      (if x.queue.isEmpty then { x with inBuf := [] } else x : Exchange).inBuf = [] := by
    intro hq
    rw [hq]
    rfl
  unfold exchangeData at h
  unfold quits
  simp only at h ⊢
  generalize (if x.queue.isEmpty then { x with inBuf := [] } else x : Exchange) = y
    at h hqueue hidle ⊢
  rw [← hqueue] at hidle ⊢
  cases con with
  | none => exact selectLoop_spec h
  | some up =>
    by_cases hb : y.inBuf.isEmpty = true
    · simp only [hb] at h ⊢
      exact selectLoop_spec h
    · simp only [hb] at h ⊢
      have hq : y.queue ≠ [] := fun hq => hb (by rw [hidle hq]; rfl)
      exact pass_exchange hq (fun _ _ => selectLoop_spec) h

end Exchange

namespace Worker

variable {cfg : WorkCfg} {t : Turn}

/-- What is logged if a connection is passed on. -/
def given (con : Option Upstream) : List Bool := con.toList.map (·.closing)

theorem true_mem_given (con : Option Upstream) : true ∈ given con ↔ announced con = true := by
  cases con with
  | none => simp [given, announced]
  | some up => simp [given, announced, eq_comm (a := true)]

theorem recycleIdleConnection_log (w : Worker) :
    w.recycleIdleConnection.recycled = w.recycled ++ given w.con := by
  unfold recycleIdleConnection
  cases w.con with
  | none => exact (List.append_nil _).symm
  | some up => rfl

theorem blacklistMirror_log (w : Worker) : w.blacklistMirror.recycled = w.recycled := by
  unfold blacklistMirror
  split
  · rfl
  · rfl

theorem lostCon_log (w : Worker) (res : Nat) : (w.lostCon cfg res).1.recycled = w.recycled := by
  unfold lostCon
  cases w.activeJobs with
  | nil => rfl
  | cons p rest =>
    simp only
    have hw : (if w.bExpectRemoteClosing then w
        else if w.nLostConTolerance - 1 ≤ 0 then
          { w.blacklistMirror with nLostConTolerance := cfg.dlretriesmax }
        else { w with nLostConTolerance := w.nLostConTolerance - 1 }).recycled = w.recycled := by
      split
      · rfl
      · split
        · exact blacklistMirror_log w
        · rfl
    split
    · rfl
    · split
      · exact hw
      · split
        · exact hw
        · exact hw

theorem brokenJob_log (w : Worker) (res : Nat) : (w.brokenJob res).recycled = w.recycled := by
  unfold brokenJob
  have hw : (if res &&& EFLAG_MIRROR_BROKEN ≠ 0 then w.blacklistMirror else w).recycled =
      w.recycled := by
    split
    · exact blacklistMirror_log w
    · rfl
  generalize (if res &&& EFLAG_MIRROR_BROKEN ≠ 0 then w.blacklistMirror else w) = v at hw ⊢
  simp only
  split
  · exact hw
  · split
    · exact hw
    · exact hw

/-- The results of `ExchangeData` with which the connection is passed on. -/
def passesOn (queue : List PipeJob) (res : Nat) : Prop :=
  (queue = [] ∧ res &&& allErr = 0) ∨
    (res &&& (HINT_RECONNECT_NOW ||| EFLAG_LOST_CON) = 0 ∧ res &&& HINT_TGTCHANGE ≠ 0)

theorem not_passesOn {w : Worker} {res : Nat}
    (hidle : ¬ (w.activeJobs.isEmpty && w.con.isSome && res &&& allErr = 0) = true)
    (hchange : res &&& (HINT_RECONNECT_NOW ||| EFLAG_LOST_CON) = 0 → res &&& HINT_TGTCHANGE = 0) :
    ¬ (announced w.con = true ∧ passesOn w.activeJobs res) := by
  rintro ⟨hc, ⟨hq, hr⟩ | ⟨hnow, htgt⟩⟩
  · have hsome : w.con.isSome = true := by
      cases hcon : w.con with
      | none => rw [hcon] at hc; cases hc
      | some up => rfl
    simp [hq, hsome, hr] at hidle
  · exact htgt (hchange hnow)

theorem afterExchange_log (cfg : WorkCfg) (w : Worker) (res : Nat) :
    ∃ l, (w.afterExchange cfg res).recycled = w.recycled ++ l ∧
      (true ∈ l ↔ announced w.con = true ∧ passesOn w.activeJobs res) := by
  unfold afterExchange
  have hlog : (if w.activeJobs.isEmpty then { w with bStopRequesting := false } else w).recycled =
      w.recycled := by
    split
    · rfl
    · rfl
  have hcon : (if w.activeJobs.isEmpty then { w with bStopRequesting := false } else w).con =
      w.con := by
    split
    · rfl
    · rfl
  simp only
  generalize (if w.activeJobs.isEmpty then { w with bStopRequesting := false } else w) = v
    at hlog hcon ⊢
  rw [hcon]
  by_cases hidle : (w.activeJobs.isEmpty && w.con.isSome && res &&& allErr = 0) = true
  · rw [if_pos hidle]
    simp only [Bool.and_eq_true, List.isEmpty_iff, decide_eq_true_eq] at hidle
    refine ⟨given w.con, ?_, (true_mem_given w.con).trans ⟨fun h => ⟨h, ?_⟩, And.left⟩⟩
    swap
    · exact .inl ⟨hidle.1.1, hidle.2⟩
    rw [recycleIdleConnection_log, hlog, hcon]
  rw [if_neg hidle]
  have hlost : (if res &&& (HINT_RECONNECT_NOW ||| EFLAG_LOST_CON) ≠ 0 then
      { v with con := none, x := { v.x with inBuf := [] } } else v).recycled = w.recycled := by
    split
    · exact hlog
    · exact hlog
  by_cases htgt : res &&& HINT_TGTCHANGE ≠ 0
  · rw [if_pos htgt]
    by_cases hnow : res &&& (HINT_RECONNECT_NOW ||| EFLAG_LOST_CON) ≠ 0
    · rw [if_pos hnow]
      refine ⟨[], ?_, iff_of_false List.not_mem_nil (not_passesOn hidle (fun h => absurd h hnow))⟩
      exact hlog.trans (List.append_nil _).symm
    · rw [if_neg hnow]
      refine ⟨given w.con, ?_, (true_mem_given w.con).trans ⟨fun h => ⟨h, ?_⟩, And.left⟩⟩
      · exact (recycleIdleConnection_log v).trans (by rw [hlog, hcon])
      · exact .inr ⟨not_not.mp hnow, htgt⟩
  · rw [if_neg htgt]
    refine ⟨[], ?_, iff_of_false List.not_mem_nil (not_passesOn hidle (fun _ => not_not.mp htgt))⟩
    rw [List.append_nil]
    generalize (if res &&& (HINT_RECONNECT_NOW ||| EFLAG_LOST_CON) ≠ 0 then
      { v with con := none, x := { v.x with inBuf := [] } } else v) = u at hlost ⊢
    have hu : (u.lostCon cfg res).1.recycled = w.recycled := (lostCon_log u res).trans hlost
    split
    · exact hu
    · exact (brokenJob_log _ _).trans hu

/-- The connection that announced its end is passed on in a turn: the thread is stopped while nobody
uses it, the jobs are done with it, or nobody uses it and the thread is woken up. -/
def KeepsClosing (cfg : WorkCfg) (w : Worker) (t : Turn) : Prop :=
  (t.stopTop = true ∧ w.activeJobs = [] ∧ announced w.con = true) ∨
    ∃ v, w.enter cfg t = .select v ∧ t.stopAfter = false ∧
      (Exchange.quits cfg.env t.io t.events v.con v.x = true ∨
        (v.activeJobs = [] ∧ announced v.con = true ∧ Exchange.woken t.events = true))

def Entered.worker : Entered → Worker
  | .ended w | .select w => w

theorem addRequests_log (up : Upstream) (w : Worker) (js : List PipeJob) :
    (w.addRequests cfg t up js).recycled = w.recycled := by
  induction js generalizing w with
  | nil => rfl
  | cons p rest ih =>
    unfold addRequests
    split
    · rfl
    · split
      · exact ih w
      · simp only
        split
        · rfl
        · split
          · rfl
          · exact ih _

theorem request_log (up : Upstream) (w : Worker) :
    (w.request cfg t up).worker.recycled = w.recycled := by
  unfold request
  simp only [Entered.worker]
  split
  · rfl
  · exact addRequests_log up w w.nextJobs

theorem reconnect_log (w : Worker) : (w.reconnect cfg t).worker.recycled = w.recycled := by
  unfold reconnect
  simp only
  split
  · rfl
  · split
    · rfl
    · rfl
    · exact request_log _ _

/-- Before `ExchangeData` only a stop of the thread passes a connection on. -/
theorem enter_log (cfg : WorkCfg) (t : Turn) (w : Worker)
    (h : ¬ (t.stopTop = true ∧ w.activeJobs = [])) :
    (w.enter cfg t).worker.recycled = w.recycled := by
  unfold enter
  rw [if_neg (by simpa [List.isEmpty_iff] using h)]
  simp only
  split
  · rfl
  · split
    · exact reconnect_log (w.meanwhile t)
    · exact request_log _ (w.meanwhile t)

/-- What the turn leaves of the connection behind `ExchangeData`. -/
theorem passesOn_iff {queue : List PipeJob} {con : Option Upstream} {quits woken : Bool}
    {e : Exchanged} (h : Exchange.ExchangeSpec queue con quits woken e) :
    announced e.con = true ∧ passesOn e.x.queue e.res ↔
      quits = true ∨ (queue = [] ∧ announced con = true ∧ woken = true) := by
  constructor
  · rintro ⟨hc, hpass⟩
    cases hquit : quits with
    | true => exact .inl rfl
    | false =>
      right
      obtain ⟨hq, hr⟩ | ⟨hnow, htgt⟩ := hpass
      · obtain ⟨hqueue, hwoken⟩ := h.idle hquit hc hq hr
        exact ⟨hqueue, (h.nothing hqueue).2.1 ▸ hc, hwoken⟩
      · exact absurd hnow (h.change hquit hc htgt)
  · rintro (hquit | ⟨hqueue, hc, hwoken⟩)
    · obtain ⟨hc, ⟨hr, hq⟩ | ⟨hr, -⟩⟩ := h.quit hquit
      · rw [hr]
        exact ⟨hc, .inl ⟨hq, by decide⟩⟩
      · rw [hr]
        exact ⟨hc, .inr ⟨by decide, by decide⟩⟩
    · obtain ⟨hq, hcon, -, hr⟩ := h.nothing hqueue
      rw [hr hwoken]
      exact ⟨hcon ▸ hc, .inl ⟨hq, by decide⟩⟩

/-- The step lemma: what a turn adds to the log. -/
theorem turn_log {w w' : Worker} (h : turn cfg w t = some w') :
    ∃ l, w'.recycled = w.recycled ++ l ∧ (true ∈ l ↔ KeepsClosing cfg w t) := by
  unfold turn at h
  split at h
  · cases h
  unfold KeepsClosing
  by_cases hstop : t.stopTop = true ∧ w.activeJobs = []
  · -- a stop at the top of the loop
    have henter : w.enter cfg t = .ended { w.recycleIdleConnection with returned := true } := by
      unfold enter
      rw [if_pos (by simpa [List.isEmpty_iff] using hstop)]
    rw [henter] at h ⊢
    cases h
    refine ⟨given w.con, recycleIdleConnection_log w,
      (true_mem_given w.con).trans ⟨fun hc => ?_, ?_⟩⟩
    · exact .inl ⟨hstop.1, hstop.2, hc⟩
    · rintro (⟨-, -, hc⟩ | ⟨v, hv, -⟩)
      · exact hc
      · cases hv
  have hlog := enter_log cfg t w hstop
  rw [or_iff_right (fun h => hstop ⟨h.1, h.2.1⟩)]
  generalize w.enter cfg t = r at h hlog ⊢
  cases r with
  | ended v =>
    cases h
    refine ⟨[], hlog.trans (List.append_nil _).symm, iff_of_false List.not_mem_nil ?_⟩
    rintro ⟨v, hv, -⟩
    cases hv
  | select v =>
    obtain ⟨e, he, hw'⟩ := Option.map_eq_some_iff.mp h
    have hspec := passesOn_iff (Exchange.exchangeData_spec he)
    by_cases hafter : t.stopAfter = true
    · rw [if_pos hafter] at hw'
      cases hw'
      refine ⟨[], hlog.trans (List.append_nil _).symm, iff_of_false List.not_mem_nil ?_⟩
      rintro ⟨-, -, hno, -⟩
      rw [hafter] at hno
      cases hno
    · rw [if_neg hafter] at hw'
      obtain ⟨l, hl, hmem⟩ := afterExchange_log cfg (v.exchanged e) e.res
      refine ⟨l, ?_, hmem.trans (hspec.trans ⟨fun h => ⟨v, rfl, ?_, h⟩, ?_⟩)⟩
      · rw [← hw', hl]
        exact congrArg (· ++ l) hlog
      · exact Bool.eq_false_iff.mpr hafter
      · rintro ⟨v', hv', -, h⟩
        cases hv'
        exact h

/-- Over every run of the main loop: no connection is passed on whose last final head announced that
it is closed, if and only if no turn is taken in a state that gives such a connection away. -/
theorem closing_not_recycled_iff (cfg : WorkCfg) (ts : List Turn) (w : Worker)
    (h : workLoop cfg ts = some w) :
    (∀ c ∈ w.recycled, c = false) ↔
      ∀ pre t post v, ts = pre ++ t :: post → workLoop cfg pre = some v → ¬ KeepsClosing cfg v t := by
  refine runs_keep_iff (fun w : Worker => ∀ c ∈ w.recycled, c = false) (fun _ hc => by cases hc) ?_ h
  intro _ v t v' _ hv
  obtain ⟨l, hlog, hl⟩ := turn_log hv
  rw [hlog, ← hl]
  simp only [List.forall_mem_append, and_congr_right_iff]
  intro _
  refine ⟨fun hall hmem => ?_, fun hno c hc => ?_⟩
  · exact Bool.noConfusion (hall true hmem)
  · cases c with
    | false => rfl
    | true => exact absurd hc hno

/-- One job, and all of the answer comes at once. -/
def answered (answer : Bytes) : Turn :=
  let job := freshJob (lit "a")
  let remoteUri : HttpUrl := { sHost := lit "m", sPath := lit "/a" }
  { newJobs := [{ job with job := { job.job with remoteUri := remoteUri } }]
    connect := .connected (lit "m") 80
    events := [.read answer] }

def keepAliveAnswer : Bytes := lit "HTTP/1.1 200 OK\r\nContent-Length: 3\r\n\r\nabc"

def closingAnswer : Bytes :=
  lit "HTTP/1.1 200 OK\r\nConnection: close\r\nContent-Length: 3\r\n\r\nabc"

theorem keepAlive_not_closing :
    ∃ w, workLoop { env := plainEnv } [answered keepAliveAnswer] = some w ∧ w.recycled = [false] ∧
      ¬ KeepsClosing { env := plainEnv } {} (answered keepAliveAnswer) := by
  have h : (workLoop { env := plainEnv } [answered keepAliveAnswer]).map (·.recycled) =
      some [false] := by
    rw [keepAliveAnswer, lit, String.toList_ofList]
    decide +kernel
  obtain ⟨w, hw, hlog⟩ := Option.map_eq_some_iff.mp h
  refine ⟨w, hw, hlog, ?_⟩
  exact (closing_not_recycled_iff { env := plainEnv } _ w hw).mp (by simp [hlog]) [] _ [] _ rfl rfl

/-- The wish to close is lost on the way to the main loop. -/
theorem closing_recycled :
    ¬ ∀ cfg ts w, workLoop cfg ts = some w → ∀ c ∈ w.recycled, c = false := by
  intro h
  have hrun : (workLoop { env := plainEnv } [answered closingAnswer]).map (·.recycled) =
      some [true] := by
    rw [closingAnswer, lit, String.toList_ofList]
    decide +kernel
  obtain ⟨w, hw, hlog⟩ := Option.map_eq_some_iff.mp hrun
  have hc := h _ _ w hw true
  rw [hlog] at hc
  exact Bool.noConfusion (hc (List.mem_singleton_self true))

end Worker

end Acng
