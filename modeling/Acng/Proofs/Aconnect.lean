import Acng.Aconnect
import Mathlib.Data.List.Nodup

namespace Acng.Aconnector
open Lib

/-- The callback is invoked once, and with a descriptor if one has been connected; all others are
closed then. An error means that all addresses failed or that the time ran out. As long as there
was no call there is a descriptor whose event will end the matter at last. -/
structure Disciplined (env : ConnectEnv) (c : Aconnector) : Prop where
  once : c.reports.length = if c.stage = .gone then 1 else 0
  handed : ∀ fd ∈ c.succeeded, c.reports = [{ fd := some fd }]
  closed : c.stage = .gone → ∀ fd ∈ c.openFds, { fd := some fd } ∈ c.reports
  error : ∀ r ∈ c.reports, r.fd = none → c.failed = c.targets.length ∨ c.late = true
  armed : c.stage = .probing → ∃ fd ∈ c.eventFds, ∀ now, c.tmoutTotal < now →
    ∃ t, c.step env (.socket fd .timeout now) = some t ∧ t.stage = .gone

/-- The state before the addresses are known, or after a report. -/
structure Waiting (c : Aconnector) : Prop where
  reports : c.reports = []
  openFds : c.openFds = []
  eventFds : c.eventFds = []
  succeeded : c.succeeded = []
  targets : c.targets = []
  pending : c.pending = 0
  failed : c.failed = 0

/-- While addresses are tried: each one has failed, is watched or is still to come. -/
structure Probing (c : Aconnector) (rest : List ConnectTarget) : Prop where
  reports : c.reports = []
  succeeded : c.succeeded = []
  nodup : c.eventFds.Nodup
  openFds : ∀ fd, fd ∈ c.openFds ↔ fd ∈ c.eventFds
  pending : c.pending = c.eventFds.length
  total : c.failed + c.eventFds.length + rest.length = c.targets.length

/-- Nothing was tried when the addresses come. -/
theorem Waiting.probing {c : Aconnector} (h : c.Waiting) (targets : List ConnectTarget) :
    Probing { c with stage := .probing, targets := targets } targets where
  reports := h.reports
  succeeded := h.succeeded
  nodup := h.eventFds ▸ List.nodup_nil
  openFds fd := by rw [h.openFds, h.eventFds]
  pending := h.pending.trans (by rw [h.eventFds]; rfl)
  total := by rw [h.failed, h.eventFds, List.length_nil, Nat.zero_add]

/-- After the report. -/
structure Reported (c : Aconnector) : Prop where
  gone : c.stage = .gone
  eventFds : c.eventFds = []
  result : (c.succeeded = [] ∧ c.openFds = [] ∧ (∃ r, c.reports = [r] ∧ r.fd = none) ∧
      (c.failed = c.targets.length ∨ c.late = true)) ∨
    ∃ fd, c.succeeded = [fd] ∧ (∀ x ∈ c.openFds, x = fd) ∧ c.reports = [{ fd := some fd }]

/-- What holds between two events. -/
def Sound (c : Aconnector) : Prop :=
  ((c.stage = .posted ∨ c.stage = .resolving) ∧ c.Waiting) ∨
  (c.stage = .probing ∧ c.eventFds ≠ [] ∧ c.Probing c.cursor) ∨ c.Reported

/-- The next candidate that does not fail is connected at once. -/
def stops (t : ConnectTarget) : Bool :=
  t.socket.isSome && (t.errno == 0 || (t.errno == EINPROGRESS && t.watched))

def connectsAtOnce (rest : List ConnectTarget) : Prop := ∃ t ∈ rest.find? stops, t.errno = 0

theorem Waiting.retError {c : Aconnector} (h : c.Waiting) (msg : Bytes) : (c.retError msg).Reported := by
  refine ⟨rfl, rfl, .inl ⟨h.succeeded, ?_, ⟨{ sError := msg }, ?_, rfl⟩, .inl ?_⟩⟩
  · simp [Aconnector.retError, report, h.openFds]
  · simp [Aconnector.retError, report, h.reports]
  · simp [Aconnector.retError, report, h.failed, h.targets]

theorem Probing.retError {c : Aconnector} {rest : List ConnectTarget} (h : c.Probing rest) (msg : Bytes)
    (hall : c.failed = c.targets.length ∨ c.late = true) : (c.retError msg).Reported := by
  refine ⟨rfl, rfl, .inl ⟨h.succeeded, ?_, ⟨{ sError := msg }, ?_, rfl⟩, hall⟩⟩
  · simp only [Aconnector.retError, report, List.filter_eq_nil_iff]
    intro fd hfd
    simpa using (h.openFds fd).mp hfd
  · simp [Aconnector.retError, report, h.reports]

/-- A watched descriptor is handed over, and the destructor closes the others. -/
theorem Probing.retSuccess {c : Aconnector} {rest : List ConnectTarget} {fd : Int} (h : c.Probing rest)
    (hfd : fd ∈ c.eventFds) : (c.retSuccess fd).Reported := by
  have hc : c.eventFds.contains fd = true := List.contains_iff_mem.mpr hfd
  unfold Aconnector.retSuccess
  simp only [hc, if_true]
  refine ⟨rfl, rfl, .inr ⟨fd, ?_, fun x hx => ?_, ?_⟩⟩
  · simp only [report, h.succeeded]
  · simp only [report, List.mem_filter, Bool.not_eq_true', List.contains_eq_mem,
      decide_eq_false_iff_not, h.openFds] at hx
    by_contra hne
    exact hx.2 ((List.mem_erase_of_ne hne).mpr hx.1)
  · simp only [report, h.reports, List.nil_append]

/-- An address that cannot be used: a descriptor made for it is closed again. -/
theorem Probing.fail {c : Aconnector} {a : ConnectTarget} {rest : List ConnectTarget}
    (h : c.Probing (a :: rest)) (msg : Bytes) : (c.fail msg).Probing rest := by
  refine ⟨h.reports, h.succeeded, h.nodup, h.openFds, h.pending, ?_⟩
  have := h.total
  rw [List.length_cons] at this
  simp only [Aconnector.fail]
  omega

theorem Probing.dropped {c : Aconnector} {a : ConnectTarget} {rest : List ConnectTarget} {fd : Int}
    (h : c.Probing (a :: rest)) (hfd : c.openFds.contains fd = false) (msg : Bytes) :
    ((Aconnector.fail { c with openFds := fd :: c.openFds } msg).closeFd fd).Probing rest := by
  have hfail := h.fail msg
  refine ⟨h.reports, h.succeeded, h.nodup, fun x => ?_, h.pending, hfail.total⟩
  rw [List.contains_eq_mem, decide_eq_false_iff_not] at hfd
  change x ∈ (fd :: c.openFds).filter (· ≠ fd) ↔ x ∈ c.eventFds
  rw [← h.openFds]
  simp only [List.mem_filter, List.mem_cons, decide_eq_true_eq]
  constructor
  · rintro ⟨rfl | hx, hne⟩
    · exact absurd rfl hne
    · exact hx
  · exact fun hx => ⟨.inr hx, fun he => hfd (he ▸ hx)⟩

theorem Probing.watch {c : Aconnector} {a : ConnectTarget} {rest : List ConnectTarget} {fd : Int}
    (h : c.Probing (a :: rest)) (hfd : c.openFds.contains fd = false) :
    Probing { c with
      openFds := fd :: c.openFds, cursor := rest
      eventFds := c.eventFds ++ [fd], pending := c.pending + 1 } rest := by
  rw [List.contains_eq_mem, decide_eq_false_iff_not, h.openFds] at hfd
  refine ⟨h.reports, h.succeeded, ?_, fun x => ?_, ?_, ?_⟩
  · rw [List.nodup_append]
    refine ⟨h.nodup, List.nodup_singleton fd, fun x hx y hy => ?_⟩
    rw [List.mem_singleton] at hy
    exact fun he => hfd (hy ▸ he ▸ hx)
  · simp only [List.mem_cons, List.mem_append, h.openFds, List.not_mem_nil, or_false]
    exact or_comm
  · simp only [List.length_append, List.length_cons, List.length_nil, h.pending]
  · have := h.total
    rw [List.length_cons] at this
    simp only [List.length_append, List.length_cons, List.length_nil]
    omega

theorem connectsAtOnce_cons {a : ConnectTarget} {rest : List ConnectTarget} (h : stops a = false) :
    connectsAtOnce (a :: rest) ↔ connectsAtOnce rest := by
  rw [connectsAtOnce, connectsAtOnce, List.find?_cons_of_neg (by rw [h]; decide)]

/-- One pass of the loop: a candidate fails, and the next one is looked at, or it ends the loop,
connected at once or to be watched. -/
theorem openNext_cons {env : ConnectEnv} {c t : Aconnector} {a : ConnectTarget}
    {rest : List ConnectTarget} (h : c.Probing (a :: rest))
    (ht : c.openNext env (a :: rest) = some t) :
    (stops a = false ∧ ∃ c' : Aconnector, c'.Probing rest ∧ c'.stage = c.stage ∧
        c'.openNext env rest = some t) ∨
      ∃ fd, stops a = true ∧ c.openFds.contains fd = false ∧
        ((a.errno = 0 ∧
            t = { c with openFds := fd :: c.openFds, cursor := a :: rest }.retSuccess fd) ∨
          (a.errno ≠ 0 ∧ t = { c with
            openFds := fd :: c.openFds, cursor := rest
            eventFds := c.eventFds ++ [fd], pending := c.pending + 1 })) := by
  rw [openNext] at ht
  split at ht
  · rename_i hs
    exact .inl ⟨by rw [stops, hs]; rfl, _, h.fail _, rfl, ht⟩
  · rename_i fd hs
    split at ht
    · cases ht
    · rename_i hnew
      rw [Bool.not_eq_true] at hnew
      simp only at ht
      split at ht
      · rename_i hzero
        exact .inr ⟨fd, by simp [stops, hs, hzero], hnew, .inl ⟨hzero, (Option.some.inj ht).symm⟩⟩
      · rename_i hzero
        split at ht
        · rename_i herr
          exact .inl ⟨by simp [stops, hzero, herr], _, h.dropped hnew _, rfl, ht⟩
        · rename_i herr
          rw [not_not] at herr
          split at ht
          · rename_i hw
            exact .inr ⟨fd, by simp [stops, hs, herr, hw], hnew,
              .inr ⟨hzero, (Option.some.inj ht).symm⟩⟩
          · rename_i hw
            exact .inl ⟨by simp [stops, hzero, hw], _, h.dropped hnew _, rfl, ht⟩

theorem openNext_sound {env : ConnectEnv} {c t : Aconnector} {rest : List ConnectTarget}
    (hst : c.stage = .probing) (h : c.Probing rest) (hno : ¬ connectsAtOnce rest)
    (ht : c.openNext env rest = some t) : t.Sound := by
  induction rest generalizing c with
  | nil =>
    obtain rfl := Option.some.inj ht
    have hdone : Probing { c with cursor := [] } [] :=
      ⟨h.reports, h.succeeded, h.nodup, h.openFds, h.pending, h.total⟩
    by_cases hp : c.pending = 0
    · simp only [if_pos hp]
      refine .inr (.inr (hdone.retError _ (.inl ?_)))
      have htotal := h.total
      have hpending := h.pending
      rw [List.length_nil] at htotal
      simp only
      omega
    · simp only [if_neg hp]
      refine .inr (.inl ⟨hst, fun he => hp ?_, hdone⟩)
      rw [h.pending, show c.eventFds = [] from he]
      rfl
  | cons a rest ih =>
    obtain ⟨hstops, c', hc', hstage, ht⟩ | ⟨fd, hstops, hnew, hend⟩ := openNext_cons h ht
    · exact ih (hstage.trans hst) hc' (mt (connectsAtOnce_cons hstops).mpr hno) ht
    obtain ⟨hzero, rfl⟩ | ⟨-, rfl⟩ := hend
    · exact absurd ⟨a, List.find?_cons_of_pos hstops, hzero⟩ hno
    · exact .inr (.inl ⟨hst, by simp, h.watch hnew⟩)

theorem nextCandidate_sound {env : ConnectEnv} {c t : Aconnector} (isFirst : Bool) {now : Int}
    {rest : List ConnectTarget} (hst : c.stage = .probing) (h : c.Probing rest)
    (hrest : rest = if isFirst then c.targets else c.cursor)
    (hno : now ≤ c.tmoutTotal → ¬ connectsAtOnce rest)
    (ht : c.nextCandidate env isFirst now = some t) : t.Sound := by
  unfold nextCandidate at ht
  split at ht
  · obtain rfl := Option.some.inj ht
    have hlate : Probing { c with late := true } rest :=
      ⟨h.reports, h.succeeded, h.nodup, h.openFds, h.pending, h.total⟩
    exact .inr (.inr (hlate.retError _ (.inr rfl)))
  · rename_i hlate
    have hno := hno (not_lt.mp hlate)
    subst hrest
    cases isFirst with
    | true =>
      exact openNext_sound (c := { c with timeNextCand := _, cursor := c.targets }) hst
        ⟨h.reports, h.succeeded, h.nodup, h.openFds, h.pending, h.total⟩ hno ht
    | false =>
      simp only [Bool.false_eq_true, if_false] at ht hno h
      split at ht
      · exact openNext_sound (c := { c with timeNextCand := now + env.firstConTimeout }) hst
          ⟨h.reports, h.succeeded, h.nodup, h.openFds, h.pending, h.total⟩ hno ht
      · exact openNext_sound hst h hno ht

/-- The socket of a failed attempt is closed. -/
theorem Probing.disable {env : ConnectEnv} {c : Aconnector} {rest : List ConnectTarget} {fd : Int}
    (h : c.Probing rest) (hfd : fd ∈ c.eventFds) (ec : Int) : (c.disable env fd ec).Probing rest := by
  have hlen := List.length_erase_of_mem hfd
  have hpos := List.length_pos_of_mem hfd
  have hopen : ∀ x, x ∈ c.openFds.filter (· ≠ fd) ↔ x ∈ c.eventFds.erase fd := fun x => by
    rw [List.mem_filter, h.openFds, h.nodup.mem_erase_iff]
    simp [and_comm]
  have htotal := h.total
  unfold Aconnector.disable
  rw [if_pos (List.contains_iff_mem.mpr hfd)]
  simp only
  have hpending : c.pending - 1 = (c.eventFds.erase fd).length := by rw [hlen, h.pending]
  have hcounted : c.failed + 1 + (c.eventFds.erase fd).length + rest.length = c.targets.length := by omega
  split
  · exact ⟨h.reports, h.succeeded, h.nodup.erase fd, hopen, hpending, hcounted⟩
  · exact ⟨h.reports, h.succeeded, h.nodup.erase fd, hopen, hpending, hcounted⟩

theorem disable_kept (env : ConnectEnv) (c : Aconnector) (fd ec : Int) :
    (c.disable env fd ec).stage = c.stage ∧ (c.disable env fd ec).cursor = c.cursor ∧
      (c.disable env fd ec).tmoutTotal = c.tmoutTotal := by
  unfold Aconnector.disable
  split
  · simp only
    split
    · exact ⟨rfl, rfl, rfl⟩
    · exact ⟨rfl, rfl, rfl⟩
  · exact ⟨rfl, rfl, rfl⟩

theorem cbStep_failed {env : ConnectEnv} {c : Aconnector} {fd err now : Int} (h : err ≠ 0) :
    c.cbStep env fd (.write (.ok err)) now = (c.disable env fd err).nextCandidate env false now := by
  simp [cbStep]

/-- The event makes the code try an address that is connected at once. -/
def ConnectsAtOnce (c : Aconnector) : Event → Prop
  | .posted _ => False
  | .resolved res now =>
    now ≤ c.tmoutTotal ∧ ∃ targets, res = some ([], targets) ∧ connectsAtOnce targets
  | .socket _ ev now => ev ≠ .write (.ok 0) ∧ now ≤ c.tmoutTotal ∧ connectsAtOnce c.cursor

theorem step_sound {env : ConnectEnv} {c t : Aconnector} {e : Event} (h : c.Sound)
    (hno : ¬ c.ConnectsAtOnce e) (ht : c.step env e = some t) : t.Sound := by
  cases e with
  | posted canceled =>
    obtain ⟨hst, ht⟩ := Option.ite_none_right_eq_some.mp ht
    obtain rfl := Option.some.inj ht
    rcases h with ⟨-, hw⟩ | ⟨hp, -⟩ | hr
    · cases canceled with
      | true => exact .inr (.inr (hw.retError _))
      | false =>
        exact .inl ⟨.inr rfl, hw.reports, hw.openFds, hw.eventFds, hw.succeeded, hw.targets,
          hw.pending, hw.failed⟩
    · exact absurd (hst.symm.trans hp) (by decide)
    · exact absurd (hst.symm.trans hr.gone) (by decide)
  | resolved res now =>
    obtain ⟨hst, ht⟩ := Option.ite_none_right_eq_some.mp ht
    rcases h with ⟨-, hw⟩ | ⟨hp, -⟩ | hr
    · unfold processDnsResult at ht
      split at ht
      · obtain rfl := Option.some.inj ht
        exact .inr (.inr (hw.retError _))
      · rename_i errDns targets _
        split at ht
        · obtain rfl := Option.some.inj ht
          exact .inr (.inr (hw.retError _))
        · rename_i herr
          split at ht
          · obtain rfl := Option.some.inj ht
            exact .inr (.inr (hw.retError _))
          · have herr : errDns = [] := by simpa using herr
            exact nextCandidate_sound true rfl (hw.probing targets) rfl
              (fun hle hat => hno ⟨hle, targets, by rw [herr], hat⟩) ht
    · exact absurd (hst.symm.trans hp) (by decide)
    · exact absurd (hst.symm.trans hr.gone) (by decide)
  | socket fd ev now =>
    obtain ⟨⟨hst, hfd⟩, ht⟩ := Option.ite_none_right_eq_some.mp ht
    rcases h with ⟨hw, -⟩ | ⟨-, -, hp⟩ | hr
    · rw [hst] at hw
      rcases hw with hw | hw <;> cases hw
    · have hdisable : ∀ ec, ev ≠ .write (.ok 0) →
          (c.disable env fd ec).nextCandidate env false now = some t → t.Sound := by
        intro ec hev ht
        obtain ⟨hs, hc, htm⟩ := disable_kept env c fd ec
        refine nextCandidate_sound false (hs.trans hst) (hp.disable hfd ec) hc.symm
          (fun hle hat => hno ⟨hev, ?_, hat⟩) ht
        rwa [htm] at hle
      cases ev with
      | timeout =>
        exact nextCandidate_sound false hst hp rfl (fun hle hat => hno ⟨by simp, hle, hat⟩) ht
      | write soError =>
        cases soError with
        | error errno => exact hdisable errno (fun he => by cases he) ht
        | ok err =>
          by_cases hzero : err = 0
          · subst hzero
            obtain rfl := Option.some.inj ht
            exact .inr (.inr (hp.retSuccess hfd))
          · rw [cbStep_failed hzero] at ht
            exact hdisable err (fun he => hzero (by cases he; rfl)) ht
    · exact absurd (hst.symm.trans hr.gone) (by decide)

theorem Sound.disciplined {env : ConnectEnv} {c : Aconnector} (h : c.Sound) : c.Disciplined env := by
  rcases h with ⟨hst, hw⟩ | ⟨hst, hne, hp⟩ | hr
  · have hgone : c.stage ≠ .gone := by rcases hst with hst | hst <;> rw [hst] <;> decide
    refine ⟨by rw [hw.reports, if_neg hgone]; rfl, ?_, fun hg => absurd hg hgone, ?_, ?_⟩
    · exact fun fd hfd => absurd hfd (by rw [hw.succeeded]; exact List.not_mem_nil)
    · exact fun r hr => absurd hr (by rw [hw.reports]; exact List.not_mem_nil)
    · intro hp
      rw [hp] at hst
      rcases hst with hst | hst <;> cases hst
  · have hgone : c.stage ≠ .gone := by rw [hst]; decide
    refine ⟨by rw [hp.reports, if_neg hgone]; rfl, ?_, fun hg => absurd hg hgone, ?_, fun _ => ?_⟩
    · exact fun fd hfd => absurd hfd (by rw [hp.succeeded]; exact List.not_mem_nil)
    · exact fun r hr => absurd hr (by rw [hp.reports]; exact List.not_mem_nil)
    · obtain ⟨fd, hfd⟩ := List.exists_mem_of_ne_nil _ hne
      refine ⟨fd, hfd, fun now hlate => ?_⟩
      have hstep : c.step env (.socket fd .timeout now) =
          some ({ c with late := true }.retError (lit "Connection timeout")) := by
        rw [step, if_pos ⟨hst, hfd⟩, cbStep, nextCandidate, if_pos hlate]
      exact ⟨_, hstep, rfl⟩
  · have hcases := hr.result
    refine ⟨?_, ?_, fun _ => ?_, ?_, fun hp => absurd (hr.gone.symm.trans hp) (by decide)⟩
    · rcases hcases with ⟨-, -, ⟨r, hrep, -⟩, -⟩ | ⟨fd, -, -, hrep⟩ <;> rw [hrep, if_pos hr.gone] <;> rfl
    · intro fd hfd
      rcases hcases with ⟨hs, -⟩ | ⟨fd', hs, -, hrep⟩
      · rw [hs] at hfd
        exact absurd hfd List.not_mem_nil
      · rw [hs, List.mem_singleton] at hfd
        rw [hrep, hfd]
    · rcases hcases with ⟨-, hopen, -⟩ | ⟨fd', -, hopen, hrep⟩
      · exact fun fd hfd => absurd (hopen ▸ hfd) List.not_mem_nil
      · intro fd hfd
        rw [hopen fd hfd, hrep]
        exact List.mem_cons_self
    · intro r hmem hnone
      rcases hcases with ⟨-, -, -, hall⟩ | ⟨fd', -, -, hrep⟩
      · exact hall
      · rw [hrep, List.mem_singleton] at hmem
        rw [hmem] at hnone
        cases hnone

/-- The descriptor is given up before anyone can find it. -/
theorem openNext_lost {env : ConnectEnv} {c t : Aconnector} {rest : List ConnectTarget}
    (h : c.Probing rest) (hat : connectsAtOnce rest) (ht : c.openNext env rest = some t) :
    ∃ fd ∈ t.succeeded, ∃ r ∈ t.reports, r.fd = none := by
  induction rest generalizing c with
  | nil =>
    obtain ⟨a, ha, -⟩ := hat
    cases ha
  | cons a rest ih =>
    obtain ⟨hstops, c', hc', -, ht⟩ | ⟨fd, hstops, hnew, hend⟩ := openNext_cons h ht
    · exact ih hc' ((connectsAtOnce_cons hstops).mp hat) ht
    obtain ⟨-, rfl⟩ | ⟨hzero, -⟩ := hend
    · have hlost : c.eventFds.contains fd = false := by
        simpa only [List.contains_eq_mem, decide_eq_false_iff_not, h.openFds] using hnew
      refine ⟨fd, ?_, { sError := lit "Internal error" }, ?_, rfl⟩
      · simp only [Aconnector.retSuccess, hlost, Bool.false_eq_true, if_false, report]
        exact List.mem_cons_self
      · simp only [Aconnector.retSuccess, hlost, Bool.false_eq_true, if_false, report]
        exact List.mem_append_right _ List.mem_cons_self
    · obtain ⟨b, hb, hbz⟩ := hat
      rw [List.find?_cons_of_pos hstops] at hb
      obtain rfl := Option.some.inj hb
      exact absurd hbz hzero

theorem nextCandidate_lost {env : ConnectEnv} {c t : Aconnector} (isFirst : Bool) {now : Int}
    {rest : List ConnectTarget} (h : c.Probing rest)
    (hrest : rest = if isFirst then c.targets else c.cursor) (hle : now ≤ c.tmoutTotal)
    (hat : connectsAtOnce rest) (ht : c.nextCandidate env isFirst now = some t) :
    ∃ fd ∈ t.succeeded, ∃ r ∈ t.reports, r.fd = none := by
  rw [nextCandidate, if_neg (not_lt.mpr hle)] at ht
  subst hrest
  cases isFirst with
  | true =>
    exact openNext_lost (c := { c with timeNextCand := now + env.fasttimeout, cursor := c.targets })
      ⟨h.reports, h.succeeded, h.nodup, h.openFds, h.pending, h.total⟩ hat ht
  | false =>
    simp only [Bool.false_eq_true, if_false] at ht hat h
    split at ht
    · exact openNext_lost (c := { c with timeNextCand := now + env.firstConTimeout })
        ⟨h.reports, h.succeeded, h.nodup, h.openFds, h.pending, h.total⟩ hat ht
    · exact openNext_lost h hat ht

theorem step_lost {env : ConnectEnv} {c t : Aconnector} {e : Event} (h : c.Sound)
    (hat : c.ConnectsAtOnce e) (ht : c.step env e = some t) :
    ∃ fd ∈ t.succeeded, ∃ r ∈ t.reports, r.fd = none := by
  cases e with
  | posted canceled => exact hat.elim
  | resolved res now =>
    obtain ⟨hst, ht⟩ := Option.ite_none_right_eq_some.mp ht
    obtain ⟨hle, targets, rfl, hat⟩ := hat
    rcases h with ⟨-, hw⟩ | ⟨hp, -⟩ | hr
    · have hne : targets.isEmpty = false := by
        obtain ⟨a, ha, -⟩ := hat
        cases targets with
        | nil => cases ha
        | cons b targets => rfl
      simp only [processDnsResult, List.isEmpty_nil, Bool.not_true, Bool.false_eq_true, if_false,
        hne] at ht
      exact nextCandidate_lost true (hw.probing targets) rfl hle hat ht
    · exact absurd (hst.symm.trans hp) (by decide)
    · exact absurd (hst.symm.trans hr.gone) (by decide)
  | socket fd ev now =>
    obtain ⟨⟨hst, hfd⟩, ht⟩ := Option.ite_none_right_eq_some.mp ht
    obtain ⟨hev, hle, hat⟩ := hat
    rcases h with ⟨hw, -⟩ | ⟨-, -, hp⟩ | hr
    · rw [hst] at hw
      rcases hw with hw | hw <;> cases hw
    · have hdisable : ∀ ec, (c.disable env fd ec).nextCandidate env false now = some t →
          ∃ fd ∈ t.succeeded, ∃ r ∈ t.reports, r.fd = none := by
        intro ec ht
        obtain ⟨-, hc, htm⟩ := disable_kept env c fd ec
        exact nextCandidate_lost false (hp.disable hfd ec) hc.symm (by rwa [htm]) hat ht
      cases ev with
      | timeout => exact nextCandidate_lost false hp rfl hle hat ht
      | write soError =>
        cases soError with
        | error errno => exact hdisable errno ht
        | ok err =>
          by_cases hzero : err = 0
          · exact absurd (by rw [hzero]) hev
          · rw [cbStep_failed hzero] at ht
            exact hdisable err ht
    · exact absurd (hst.symm.trans hr.gone) (by decide)

/-- A connector that is about to be posted. -/
def start (exTime : Int) : Aconnector := { tmoutTotal := exTime }

theorem start_sound (exTime : Int) : (start exTime).Sound :=
  .inl ⟨.inl rfl, rfl, rfl, rfl, rfl, rfl, rfl, rfl⟩

/-- Whatever happens, the callback discipline is kept in all states of a run if and only if no event
of it makes the code try an address whose `connect` succeeds at once. -/
theorem disciplined_iff (env : ConnectEnv) (exTime : Int) (es : List Event) (c : Aconnector)
    (h : runs (step env) (start exTime) es = some c) :
    (∀ pre post m, es = pre ++ post → runs (step env) (start exTime) pre = some m →
      m.Disciplined env) ↔
    ∀ pre e post m, es = pre ++ e :: post → runs (step env) (start exTime) pre = some m →
      ¬ m.ConnectsAtOnce e := by
  refine runs_all_iff (Aconnector.Sound) (start_sound exTime) (fun _ hs => hs.disciplined)
    (fun _ _ _ hs hno ht => step_sound hs hno ht) ?_ h
  intro m e t hs hat ht hd
  obtain ⟨fd, hfd, r, hr, hnone⟩ := step_lost hs hat ht
  rw [hd.handed fd hfd, List.mem_singleton] at hr
  rw [hr] at hnone
  cases hnone

def numbered : ConnectEnv := { errnoText := fun n => lit (toString n) }

/-- The first address is refused, and the connection to the second one takes its time. -/
def slowTargets : List ConnectTarget :=
  [{ socket := some 5, connect := fun _ => 111 }, { socket := some 6, connect := fun _ => EINPROGRESS }]

theorem slow_disciplined :
    ∃ c, runs (step numbered) (start 100)
      [.posted false, .resolved (some ([], slowTargets)) 50, .socket 6 (.write (.ok 0)) 52] = some c ∧
    ((∀ pre post m, [.posted false, .resolved (some ([], slowTargets)) 50,
        .socket 6 (.write (.ok 0)) 52] = pre ++ post →
        runs (step numbered) (start 100) pre = some m → m.Disciplined numbered) ↔
      ∀ pre e post m, [.posted false, .resolved (some ([], slowTargets)) 50,
        .socket 6 (.write (.ok 0)) 52] = pre ++ e :: post →
        runs (step numbered) (start 100) pre = some m → ¬ m.ConnectsAtOnce e) :=
  ⟨_, rfl, disciplined_iff numbered 100 _ _ rfl⟩

/-- The address is connected at once: there is an error, and nobody closes the socket. -/
theorem immediate_connection_lost :
    ∃ c, runs (step numbered) (start 100)
      [.posted false, .resolved (some ([], [{ socket := some 6, connect := fun _ => 0 }])) 50] = some c ∧
    c.succeeded = [6] ∧ c.reports = [{ fd := none, sError := lit "Internal error" }] ∧
    c.stage = .gone ∧ c.openFds = [6] :=
  ⟨_, rfl, rfl, rfl, rfl, rfl⟩

end Acng.Aconnector
