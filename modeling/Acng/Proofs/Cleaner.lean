import Acng.Cleaner
import Mathlib.Order.Lattice
import Mathlib.Order.Defs.LinearOrder

namespace Acng.Cleaner
open Lib

/-- Each pending deadline is covered by a stamp. -/
def StampCovers (c : Cleaner) : Prop := ∀ i, ∀ d ∈ c.pending i, c.stamps i ≤ d

/-- Each pending deadline is covered by a stamp or by the snapshot, where it still counts. -/
def BothCover (c : Cleaner) (snapshot : Stamps) (i : EType) : Prop :=
  ∀ d ∈ c.pending i, c.stamps i ≤ d ∨ snapshot i ≤ d

/-- What holds at each place in the loop. -/
def Covered (c : Cleaner) : Prop :=
  match c.stage with
  | .off => c.terminating = false → ∀ i, c.pending i = []
  | .top => c.terminating = false → c.StampCovers
  | .copying _ => c.StampCovers
  | .scanning _ snapshot _ => ∀ i, c.BothCover snapshot i
  | .cleaning _ snapshot what _ =>
    (∀ i, i ≠ what → c.BothCover snapshot i) ∧ ∀ d ∈ c.pending what, c.stamps what ≤ d
  | .sleeping start delay notified =>
    c.StampCovers ∧ (notified = false → ∀ i, start + delay ≤ 1000 * c.stamps i + 1000)
  | .ended => c.terminating = true ∨ c.inShutdown = true

/-- What a request does to a cleaner whose thread is there. -/
structure Asked (c t : Cleaner) (moment : Int) (what : EType) : Prop where
  pending : ∀ i, ∀ d ∈ t.pending i, d ∈ c.pending i ∨ (i = what ∧ d = moment)
  lower : ∀ i, t.stamps i ≤ c.stamps i
  own : t.stamps what ≤ moment
  terminating : t.terminating = c.terminating
  inShutdown : t.inShutdown = c.inShutdown
  stage : (t.stage = c.stage ∧ (c.asleep = true → t.stamps = c.stamps)) ∨
    ∃ start delay n, c.stage = .sleeping start delay n ∧ t.stage = .sleeping start delay true

theorem mem_ask {c : Cleaner} {moment d : Int} {what i : EType}
    (h : d ∈ (c.ask moment what).pending i) : d ∈ c.pending i ∨ (i = what ∧ d = moment) := by
  change d ∈ Function.update c.pending what (moment :: c.pending what) i at h
  by_cases hi : i = what
  · subst hi
    rw [Function.update_self] at h
    rcases List.mem_cons.mp h with rfl | h
    · exact .inr ⟨rfl, rfl⟩
    · exact .inl h
  · rw [Function.update_of_ne hi] at h
    exact .inl h

theorem update_le {t : Stamps} {what : EType} {moment : Int} (h : moment ≤ t what) (i : EType) :
    Function.update t what moment i ≤ t i := by
  by_cases hi : i = what
  · subst hi
    rw [Function.update_self]
    exact h
  · rw [Function.update_of_ne hi]

theorem scheduleFor_asked {c : Cleaner} (moment : Int) (what : EType) (hs : c.stage ≠ .off) :
    c.scheduleFor moment what = c ∨ Asked c (c.scheduleFor moment what) moment what := by
  unfold scheduleFor
  split
  · exact .inl rfl
  · right
    have hmem : ∀ i, ∀ d ∈ (c.ask moment what).pending i, d ∈ c.pending i ∨ (i = what ∧ d = moment) :=
      fun i d => mem_ask
    split
    · rename_i hoff
      exact absurd hoff hs
    · split
      · rename_i hlt
        exact ⟨hmem, fun i => le_refl _, hlt.le, rfl, rfl, .inl ⟨rfl, fun _ => rfl⟩⟩
      · rename_i hle
        have hlow := update_le (not_lt.mp hle)
        have hown : Function.update c.stamps what moment what ≤ moment :=
          (Function.update_self what moment c.stamps).le
        unfold notifyAll
        split
        · rename_i start delay n hsl
          exact ⟨hmem, hlow, hown, rfl, rfl, .inr ⟨start, delay, n, hsl, rfl⟩⟩
        · rename_i hno
          refine ⟨hmem, hlow, hown, rfl, rfl, .inl ⟨rfl, fun ha => ?_⟩⟩
          unfold asleep at ha
          split at ha
          · rename_i start delay n hsl
            exact absurd hsl (hno start delay n)
          · cases ha

theorem Asked.stampCovers {c t : Cleaner} {moment : Int} {what : EType} (h : Asked c t moment what)
    (hc : c.StampCovers) : t.StampCovers := by
  intro i d hd
  rcases h.pending i d hd with hold | ⟨rfl, rfl⟩
  · exact (h.lower i).trans (hc i d hold)
  · exact h.own

theorem Asked.bothCover {c t : Cleaner} {moment : Int} {what : EType} (h : Asked c t moment what)
    {snapshot : Stamps} {i : EType} (hc : c.BothCover snapshot i) : t.BothCover snapshot i := by
  intro d hd
  rcases h.pending i d hd with hold | ⟨rfl, rfl⟩
  · exact (hc d hold).imp (h.lower i).trans id
  · exact .inl h.own

theorem Asked.covered {c t : Cleaner} {moment : Int} {what : EType} (h : Asked c t moment what)
    (hs : c.stage ≠ .off) (hc : c.Covered) : t.Covered := by
  unfold Covered at hc
  rcases h.stage with ⟨hstage, hsame⟩ | ⟨start, delay, n, hfrom, hto⟩
  · unfold Covered
    rw [hstage, h.terminating, h.inShutdown]
    cases hst : c.stage with
    | off => exact absurd hst hs
    | top =>
      rw [hst] at hc
      exact fun hn => h.stampCovers (hc hn)
    | copying now =>
      rw [hst] at hc
      exact h.stampCovers hc
    | scanning now snapshot rest =>
      rw [hst] at hc
      exact fun i => h.bothCover (hc i)
    | cleaning now snapshot w rest =>
      rw [hst] at hc
      refine ⟨fun i hi => h.bothCover (hc.1 i hi), fun d hd => ?_⟩
      rcases h.pending w d hd with hold | ⟨rfl, rfl⟩
      · exact (h.lower w).trans (hc.2 d hold)
      · exact h.own
    | sleeping start delay n =>
      rw [hst] at hc
      refine ⟨h.stampCovers hc.1, fun hn i => ?_⟩
      rw [hsame (by rw [asleep, hst])]
      exact hc.2 hn i
    | ended =>
      rw [hst] at hc
      exact hc
  · unfold Covered
    rw [hto]
    rw [hfrom] at hc
    exact ⟨h.stampCovers hc.1, fun hn => absurd hn (by decide)⟩

/-- The first request starts the thread. -/
theorem scheduleFor_off {c : Cleaner} {moment : Int} {what : EType} (hs : c.stage = .off)
    (hc : c.Covered) : (c.scheduleFor moment what).Covered := by
  rw [Covered, hs] at hc
  unfold scheduleFor
  split
  · rw [Covered, hs]
    exact hc
  · rw [hs]
    change c.terminating = false → _
    intro hn i d hd
    rcases mem_ask hd with hold | ⟨rfl, rfl⟩
    · rw [hc hn i] at hold
      exact absurd hold List.not_mem_nil
    · change Function.update (fun _ => END_OF_TIME) i d i ≤ d
      rw [Function.update_self]

theorem scheduleFor_covered {c : Cleaner} {moment : Int} {what : EType} (hc : c.Covered) :
    (c.scheduleFor moment what).Covered := by
  by_cases hs : c.stage = .off
  · exact scheduleFor_off hs hc
  · rcases scheduleFor_asked moment what hs with heq | hasked
    · rw [heq]
      exact hc
    · exact hasked.covered hs hc

theorem notifyAll_covered {c : Cleaner} (hc : c.Covered) : c.notifyAll.Covered := by
  unfold notifyAll
  split
  · rename_i hs
    rw [Covered, hs] at hc
    exact ⟨hc.1, fun hn => absurd hn (by decide)⟩
  · exact hc

theorem stop_covered {c : Cleaner} (hc : c.Covered) : c.stop.Covered := by
  unfold stop
  split
  · exact hc
  · rename_i hoff
    apply notifyAll_covered
    unfold Covered at hc ⊢
    cases hs : c.stage with
    | off => exact absurd hs hoff
    | top => exact fun hn => Bool.noConfusion hn
    | ended => exact .inl rfl
    | copying now | scanning now snapshot rest | cleaning now snapshot what rest
      | sleeping start delay n =>
      rw [hs] at hc
      exact hc

theorem shutdown_covered {c : Cleaner} (hc : c.Covered) : Covered { c with inShutdown := true } := by
  unfold Covered at hc ⊢
  cases hs : c.stage with
  | ended => exact .inr rfl
  | off | top | copying now | scanning now snapshot rest | cleaning now snapshot what rest
    | sleeping start delay n =>
    rw [hs] at hc
    exact hc

/-- The earliest stamp, or the end of time. -/
theorem playback_le (snapshot stamps : Stamps) (i : EType) :
    (playback snapshot stamps).2 ≤ (playback snapshot stamps).1 i := by
  simp only [playback, EType.all, List.foldl_cons, List.foldl_nil]
  cases i
  · exact (min_le_left _ _).trans ((min_le_left _ _).trans (min_le_right _ _))
  · exact (min_le_left _ _).trans (min_le_right _ _)
  · exact min_le_right _ _

theorem playback_covered {c t : Cleaner} {ms : Int} (hc : c.Covered)
    (h : c.step (.playback ms) = some t) : t.Covered := by
  cases hs : c.stage with
  | scanning now snapshot todo =>
    rw [Covered, hs] at hc
    cases todo with
    | cons i rest => simp [step, hs] at h
    | nil =>
      simp only [step, hs] at h
      obtain rfl := Option.some.inj h
      have hstamps : ∀ i, ∀ d ∈ c.pending i, (playback snapshot c.stamps).1 i ≤ d := fun i d hd =>
        (hc i d hd).elim (min_le_right _ _).trans (min_le_left _ _).trans
      by_cases hnext : (playback snapshot c.stamps).2 ≤ getTime ms
      · simp only [Covered, if_pos hnext]
        exact fun _ => hstamps
      · simp only [Covered, if_neg hnext]
        refine ⟨hstamps, fun _ i => ?_⟩
        have hle := playback_le snapshot c.stamps i
        have hmin : min ((playback snapshot c.stamps).2 - getTime ms) 84600 ≤
            (playback snapshot c.stamps).2 - getTime ms := min_le_left _ _
        unfold getTime at hmin ⊢
        omega
  | off | top | copying | cleaning | sleeping | ended => simp [step, hs] at h

theorem joined_covered {c t : Cleaner} (h : c.step .joined = some t) : t.Covered := by
  cases hs : c.stage with
  | ended =>
    simp only [step, hs] at h
    obtain ⟨hterm, ht⟩ := Option.ite_none_right_eq_some.mp h
    obtain rfl := Option.some.inj ht
    exact fun hn => absurd (hterm.symm.trans hn) (by decide)
  | off | top | copying | scanning | cleaning | sleeping => simp [step, hs] at h

theorem head_covered {c t : Cleaner} {ms : Int} (hc : c.Covered) (h : c.step (.head ms) = some t) : t.Covered := by
  cases hs : c.stage with
  | top =>
    simp only [step, hs] at h
    rw [Covered, hs] at hc
    obtain rfl := Option.some.inj h
    by_cases hq : (c.terminating || c.inShutdown) = true
    · simp only [Covered, if_pos hq]
      exact (Bool.or_eq_true _ _).mp hq
    · simp only [Covered, if_neg hq]
      rw [Bool.not_eq_true, Bool.or_eq_false_iff] at hq
      exact hc hq.1
  | off | copying | scanning | cleaning | sleeping | ended => simp [step, hs] at h

theorem copy_covered {c t : Cleaner} (hc : c.Covered) (h : c.step .copy = some t) : t.Covered := by
  cases hs : c.stage with
  | copying now =>
    simp only [step, hs] at h
    rw [Covered, hs] at hc
    obtain rfl := Option.some.inj h
    exact fun i d hd => .inr (hc i d hd)
  | off | top | scanning | cleaning | sleeping | ended => simp [step, hs] at h

/-- The requests of a type are dropped when its cleaner starts. -/
theorem scan_covered {c t : Cleaner} (hc : c.Covered) (h : c.step .scan = some t) : t.Covered := by
  cases hs : c.stage with
  | scanning now snapshot todo =>
    rw [Covered, hs] at hc
    cases todo with
    | nil => simp [step, hs] at h
    | cons i rest =>
      simp only [step, hs] at h
      split at h
      · obtain rfl := Option.some.inj h
        exact hc
      · split at h
        · rename_i hq
          obtain rfl := Option.some.inj h
          exact (Bool.or_eq_true _ _).mp hq
        · obtain rfl := Option.some.inj h
          refine ⟨fun j hj d hd => hc j d ?_, fun d hd => ?_⟩
          · simpa only [Function.update_of_ne hj] using hd
          · simp only [Function.update_self] at hd
            exact absurd hd List.not_mem_nil
  | off | top | copying | cleaning | sleeping | ended => simp [step, hs] at h

theorem cleaned_covered {c t : Cleaner} {time_cand : Int} (hc : c.Covered)
    (h : c.step (.cleaned time_cand) = some t) : t.Covered := by
  cases hs : c.stage with
  | cleaning now snapshot what rest =>
    simp only [step, hs] at h
    rw [Covered, hs] at hc
    obtain rfl := Option.some.inj h
    intro j d hd
    by_cases hj : j = what
    · subst hj
      exact .inl (hc.2 d hd)
    · rw [Function.update_of_ne hj]
      exact hc.1 j hj d hd
  | off | top | copying | scanning | sleeping | ended => simp [step, hs] at h

theorem wake_covered {c t : Cleaner} (hc : c.Covered) (h : c.step .wake = some t) : t.Covered := by
  cases hs : c.stage with
  | sleeping start delay n =>
    simp only [step, hs] at h
    rw [Covered, hs] at hc
    obtain rfl := Option.some.inj h
    exact fun _ => hc.1
  | off | top | copying | scanning | cleaning | ended => simp [step, hs] at h

theorem step_covered {c t : Cleaner} {e : Event} (hc : c.Covered) (h : c.step e = some t) :
    t.Covered := by
  cases e with
  | scheduleFor moment what =>
    obtain rfl := Option.some.inj h
    exact scheduleFor_covered hc
  | stop =>
    obtain rfl := Option.some.inj h
    exact stop_covered hc
  | shutdown =>
    obtain rfl := Option.some.inj h
    exact shutdown_covered hc
  | joined => exact joined_covered h
  | head ms => exact head_covered hc h
  | copy => exact copy_covered hc h
  | scan => exact scan_covered hc h
  | cleaned time_cand => exact cleaned_covered hc h
  | playback ms => exact playback_covered hc h
  | wake => exact wake_covered hc h

theorem runs_covered {noop registry : Bool} {es : List Event} {c : Cleaner}
    (h : runs step { noop := noop, itemRegistry := registry } es = some c) : c.Covered := by
  refine runs_induct (motive := fun _ c => Covered c) ?_ (fun _ _ _ _ _ ih he => step_covered ih he) h
  exact fun _ _ => rfl

/-- Whenever the loop sleeps, no stamp is later than a deadline that was asked for and not served
since. If nobody cuts it short, the sleep ends at most one second behind the earliest stamp. -/
theorem sleep_covers {noop registry : Bool} {es : List Event} {c : Cleaner}
    (h : runs step { noop := noop, itemRegistry := registry } es = some c) (hs : c.asleep = true) :
    (∀ i, ∀ d ∈ c.pending i, c.stamps i ≤ d) ∧
      ∀ ms ∈ c.sleepEnd, ∀ i, ms ≤ 1000 * c.stamps i + 1000 := by
  have hc := runs_covered h
  unfold asleep at hs
  split at hs
  · rename_i start delay n hst
    rw [Covered, hst] at hc
    refine ⟨hc.1, fun ms hms i => ?_⟩
    unfold sleepEnd at hms
    rw [hst] at hms
    cases n with
    | true => cases hms
    | false =>
      obtain rfl := Option.some.inj hms
      exact hc.2 rfl i
  · cases hs

/-- A deadline in ten seconds that is asked for while another one of its type is served. -/
def lateRequest : List Event :=
  [.scheduleFor 100 .exConns, .head 100000, .copy, .scan, .scan, .scan, .scheduleFor 110 .exConns,
    .cleaned 133, .playback 100250]

theorem lateRequest_covered :
    ∃ c, runs step {} lateRequest = some c ∧ c.stamps .exConns = 110 ∧
      (∀ i, ∀ d ∈ c.pending i, c.stamps i ≤ d) ∧
      ∀ ms ∈ c.sleepEnd, ∀ i, ms ≤ 1000 * c.stamps i + 1000 :=
  ⟨_, rfl, rfl, @sleep_covers false true lateRequest _ rfl rfl⟩

/-- The sleep is counted from within the second that the clock shows, and is a little longer. -/
theorem sleep_behind_stamp :
    ∃ c, runs step {} lateRequest = some c ∧ c.sleepEnd = some 110251 ∧
      1000 * c.stamps .exConns < 110251 :=
  ⟨_, rfl, rfl, by decide⟩

end Acng.Cleaner
