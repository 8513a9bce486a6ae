import Acng.RepoHooks
import Mathlib.Data.List.Perm.Basic

namespace Acng
open Lib

/-- The commands that are executed if they take turns. -/
def alternating (n : Nat) : List Hook :=
  (List.range n).map (fun i => if i % 2 = 0 then .preUp else .down)

theorem alternating_preUp {n : Nat} (h : n % 2 = 0) :
    alternating n ++ [.preUp] = alternating (n + 1) := by
  simp [alternating, List.range_succ, h]

theorem alternating_down {n : Nat} (h : n % 2 = 1) :
    alternating n ++ [.down] = alternating (n + 1) := by
  simp [alternating, List.range_succ, h]

namespace HookHandler

/-- The handler of a repository of which so many connections are in use. The repository is up as
long as there are any, and for the time that it is kept up behind that. -/
structure Watches (hs : HookHandler) (inUse : Nat) (ran : List Hook) : Prop where
  count : hs.nRefCnt = inUse
  idle : hs.downTimeNext ≠ 0 → inUse = 0
  turns : hs.cmdCon ≠ [] → hs.cmdRel ≠ [] →
    ran = alternating ran.length ∧ (ran.length % 2 = 1 ↔ 0 < inUse ∨ hs.downTimeNext ≠ 0)

theorem onAccess_watches {hs : HookHandler} {n : Nat} {ran : List Hook} (h : Watches hs n ran) :
    Watches hs.onAccess.1 (n + 1) (ran ++ hs.onAccess.2) := by
  have hcount : hs.nRefCnt + 1 = ((n + 1 : Nat) : Int) := by rw [h.count]; rfl
  have hzero : hs.nRefCnt = 0 ↔ n = 0 := by rw [h.count]; omega
  unfold onAccess
  by_cases hn : n = 0
  · rw [if_pos (hzero.mpr hn)]
    by_cases hd : hs.downTimeNext ≠ 0
    · rw [if_pos hd, List.append_nil]
      refine ⟨hcount, fun hne => absurd rfl hne, fun hc hr => ?_⟩
      obtain ⟨hran, hup⟩ := h.turns hc hr
      exact ⟨hran, iff_of_true (hup.mpr (.inr hd)) (.inl (Nat.succ_pos n))⟩
    · rw [if_neg hd]
      split
      · rename_i hempty
        exact ⟨hcount, fun hne => absurd hne hd,
          fun hc => absurd (List.isEmpty_iff.mp hempty) hc⟩
      · refine ⟨hcount, fun hne => absurd hne hd, fun hc hr => ?_⟩
        obtain ⟨hran, hup⟩ := h.turns hc hr
        have heven : ran.length % 2 = 0 := by
          have : ¬ ran.length % 2 = 1 := fun hodd => by
            rcases hup.mp hodd with hpos | hne
            · exact absurd hn (Nat.pos_iff_ne_zero.mp hpos)
            · exact hd hne
          omega
        rw [List.length_append, List.length_singleton]
        refine ⟨?_, iff_of_true (by omega) (.inl (Nat.succ_pos n))⟩
        rw [← alternating_preUp heven, ← hran]
  · rw [if_neg (mt hzero.mp hn), List.append_nil]
    refine ⟨hcount, fun hne => absurd (h.idle hne) hn, fun hc hr => ?_⟩
    obtain ⟨hran, hup⟩ := h.turns hc hr
    refine ⟨hran, iff_of_true (hup.mpr (.inl (Nat.pos_of_ne_zero hn))) (.inl (Nat.succ_pos n))⟩

theorem onRelease_watches {hs : HookHandler} {n : Nat} {ran : List Hook} (now : WallTime)
    (h : Watches hs (n + 1) ran) : Watches (hs.onRelease now) n ran := by
  have hcount : hs.nRefCnt - 1 = (n : Int) := by rw [h.count]; omega
  have hidle : hs.downTimeNext = 0 := by
    by_contra hne
    exact absurd (h.idle hne) (Nat.succ_ne_zero n)
  have hup : hs.cmdCon ≠ [] → hs.cmdRel ≠ [] → ran.length % 2 = 1 := fun hc hr =>
    (h.turns hc hr).2.mpr (.inl (Nat.succ_pos n))
  unfold onRelease
  simp only [hcount]
  by_cases hn : n = 0
  · have hnext : (now : Int) + hs.downDuration ≠ 0 := by
      have := now.2
      omega
    rw [if_pos (by omega)]
    exact ⟨rfl, fun _ => hn, fun hc hr =>
      ⟨(h.turns hc hr).1, iff_of_true (hup hc hr) (.inr hnext)⟩⟩
  · rw [if_neg (by omega)]
    exact ⟨rfl, fun hne => absurd hidle hne, fun hc hr =>
      ⟨(h.turns hc hr).1, iff_of_true (hup hc hr) (.inl (Nat.pos_of_ne_zero hn))⟩⟩

theorem backgroundCleanup_watches {hs : HookHandler} {n : Nat} {ran : List Hook} (now : Int)
    (h : Watches hs n ran) :
    Watches (hs.backgroundCleanup now).1 n (ran ++ (hs.backgroundCleanup now).2.1) := by
  unfold backgroundCleanup
  split
  · rename_i hd
    split
    · split
      · rw [List.append_nil]
        exact h
      · refine ⟨h.count, fun hne => absurd rfl hne, fun hc hr => ?_⟩
        obtain ⟨hran, hup⟩ := h.turns hc hr
        have hodd := hup.mpr (.inr hd)
        have hn := h.idle hd
        rw [List.length_append, List.length_singleton]
        refine ⟨?_, iff_of_false (by omega) ?_⟩
        · rw [← alternating_down hodd, ← hran]
        · rintro (hpos | hne)
          · exact absurd hn (Nat.pos_iff_ne_zero.mp hpos)
          · exact hne rfl
    · rw [List.append_nil]
      exact h
  · rw [List.append_nil]
    exact h

/-- The down command needs a time to have come. -/
theorem backgroundCleanup_down {hs : HookHandler} {now : Int}
    (h : (hs.backgroundCleanup now).2.1 ≠ []) : hs.downTimeNext ≠ 0 := by
  intro hz
  rw [backgroundCleanup, if_neg (not_not.mpr hz)] at h
  exact h rfl

end HookHandler

namespace RepoUse
open HookHandler

variable {Repo : Type} [DecidableEq Repo]

/-- Idle connections have no observer, and each handler counts the held ones. -/
structure Consistent (files : Repo → HooksFile) (u : RepoUse Repo) : Prop where
  pool : ∀ obs ∈ u.spareConPool, obs = none
  file : ∀ r, (u.hooks r).cmdCon = (files r).preUp ∧ (u.hooks r).cmdRel = (files r).down
  watches : ∀ r, Watches (u.hooks r) (u.held.count (some r)) (u.ranFor r)

theorem setHooks_same (u : RepoUse Repo) (r : Repo) (hs : HookHandler) (cmds : List Hook) :
    (u.setHooks r hs cmds).hooks r = hs ∧
      (u.setHooks r hs cmds).ranFor r = u.ranFor r ++ cmds := by
  constructor
  · exact Function.update_self r hs u.hooks
  · simp only [ranFor, setHooks, List.filter_append, List.map_append]
    congr 1
    induction cmds with
    | nil => rfl
    | cons c cmds ih => simpa using ih

theorem setHooks_other (u : RepoUse Repo) {r r' : Repo} (hs : HookHandler) (cmds : List Hook)
    (h : r' ≠ r) :
    (u.setHooks r hs cmds).hooks r' = u.hooks r' ∧
      (u.setHooks r hs cmds).ranFor r' = u.ranFor r' := by
  constructor
  · exact Function.update_of_ne h hs u.hooks
  · have hnone : (cmds.map (fun c => (r, c))).filter (fun e => e.1 = r') = [] := by
      rw [List.filter_eq_nil_iff]
      intro e he
      obtain ⟨c, -, rfl⟩ := List.mem_map.mp he
      simpa using Ne.symm h
    simp only [ranFor, setHooks, List.filter_append, hnone, List.append_nil]

theorem access_cmds (hs : HookHandler) :
    hs.onAccess.1.cmdCon = hs.cmdCon ∧ hs.onAccess.1.cmdRel = hs.cmdRel := by
  unfold onAccess
  simp only
  repeat' split
  all_goals exact ⟨rfl, rfl⟩

theorem release_cmds (hs : HookHandler) (now : WallTime) :
    (hs.onRelease now).cmdCon = hs.cmdCon ∧ (hs.onRelease now).cmdRel = hs.cmdRel := by
  unfold onRelease
  simp only
  split
  all_goals exact ⟨rfl, rfl⟩

theorem cleanup_cmds (hs : HookHandler) (now : Int) :
    (hs.backgroundCleanup now).1.cmdCon = hs.cmdCon ∧
      (hs.backgroundCleanup now).1.cmdRel = hs.cmdRel := by
  unfold backgroundCleanup
  repeat' split
  all_goals exact ⟨rfl, rfl⟩

/-- One handler is replaced, together with its connections. -/
theorem setHooks_consistent {files : Repo → HooksFile} {u t : RepoUse Repo} {r : Repo}
    {hs : HookHandler} {cmds : List Hook} (h : Consistent files u)
    (hpool : ∀ obs ∈ t.spareConPool, obs = none)
    (hhooks : t.hooks = (u.setHooks r hs cmds).hooks) (hran : t.ran = (u.setHooks r hs cmds).ran)
    (hcmds : hs.cmdCon = (u.hooks r).cmdCon ∧ hs.cmdRel = (u.hooks r).cmdRel)
    (hw : Watches hs (t.held.count (some r)) (u.ranFor r ++ cmds))
    (hheld : ∀ r', r' ≠ r → t.held.count (some r') = u.held.count (some r')) :
    Consistent files t := by
  have hranFor : ∀ r', t.ranFor r' = (u.setHooks r hs cmds).ranFor r' := fun r' => by
    rw [ranFor, hran]
    rfl
  refine ⟨hpool, fun r' => ?_, fun r' => ?_⟩
  · by_cases hr : r' = r
    · rw [hr, hhooks, (u.setHooks_same r hs cmds).1, hcmds.1, hcmds.2]
      exact h.file r
    · rw [hhooks, (u.setHooks_other hs cmds hr).1]
      exact h.file r'
  · by_cases hr : r' = r
    · rw [hranFor, hr, hhooks, (u.setHooks_same r hs cmds).1, (u.setHooks_same r hs cmds).2]
      exact hw
    · rw [hranFor, hhooks, (u.setHooks_other hs cmds hr).1, (u.setHooks_other hs cmds hr).2,
        hheld r' hr]
      exact h.watches r'

/-- Nothing but the connections without an observer changes. -/
theorem same_consistent {files : Repo → HooksFile} {u t : RepoUse Repo} (h : Consistent files u)
    (hpool : ∀ obs ∈ t.spareConPool, obs = none) (hhooks : t.hooks = u.hooks) (hran : t.ran = u.ran)
    (hheld : ∀ r, t.held.count (some r) = u.held.count (some r)) : Consistent files t := by
  refine ⟨hpool, fun r => hhooks ▸ h.file r, fun r => ?_⟩
  have hranFor : t.ranFor r = u.ranFor r := by rw [ranFor, hran]; rfl
  rw [hhooks, hheld, hranFor]
  exact h.watches r

theorem access_consistent {files : Repo → HooksFile} {u t : RepoUse Repo} {tracker : Option Repo}
    (h : Consistent files u) (hpool : ∀ obs ∈ t.spareConPool, obs = none)
    (hhooks : t.hooks = (u.access tracker).hooks) (hran : t.ran = (u.access tracker).ran)
    (hheld : t.held = tracker :: u.held) : Consistent files t := by
  cases tracker with
  | none => exact same_consistent h hpool hhooks hran (fun r => by simp [hheld])
  | some r =>
    refine setHooks_consistent h hpool hhooks hran (access_cmds _) ?_ (fun r' hr => ?_)
    · rw [hheld, List.count_cons_self]
      exact onAccess_watches (h.watches r)
    · rw [hheld, List.count_cons_of_ne (by simpa using Ne.symm hr)]

theorem release_consistent {files : Repo → HooksFile} {u t : RepoUse Repo} {now : WallTime}
    {i : Nat} {obs : Option Repo} (h : Consistent files u) (hi : u.held[i]? = some obs)
    (hpool : t.spareConPool = u.spareConPool) (hhooks : t.hooks = (u.release now obs).hooks)
    (hran : t.ran = (u.release now obs).ran)
    (hheld : ∀ r, t.held.count (some r) = (u.held.eraseIdx i).count (some r)) :
    Consistent files t := by
  obtain ⟨hlt, hget⟩ := List.getElem?_eq_some_iff.mp hi
  have hcount : ∀ r, u.held.count (some r) = (obs :: u.held.eraseIdx i).count (some r) := fun r => by
    rw [← hget]
    exact ((List.getElem_cons_eraseIdx_perm hlt).count_eq _).symm
  cases obs with
  | none =>
    refine same_consistent h (hpool ▸ h.pool) hhooks hran (fun r => ?_)
    rw [hheld, hcount, List.count_cons_of_ne (by simp)]
  | some r =>
    refine setHooks_consistent h (hpool ▸ h.pool) hhooks hran (release_cmds _ _) ?_ (fun r' hr => ?_)
    · rw [hheld, List.append_nil]
      refine onRelease_watches now ?_
      have hw := h.watches r
      rwa [hcount, List.count_cons_self] at hw
    · rw [hheld, hcount, List.count_cons_of_ne (by simpa using Ne.symm hr)]

theorem step_consistent {files : Repo → HooksFile} {u t : RepoUse Repo} {a : Event Repo}
    (h : Consistent files u) (ha : u.step a = some t) : Consistent files t := by
  cases a with
  | construct tracker =>
    obtain rfl := Option.some.inj ha
    refine access_consistent h ?_ rfl rfl rfl
    cases tracker <;> exact h.pool
  | reuse i tracker =>
    obtain ⟨obs, hobs, rfl⟩ := Option.map_eq_some_iff.mp ha
    obtain rfl := h.pool obs (List.mem_of_getElem? hobs)
    refine access_consistent h (fun obs ho => h.pool obs (List.mem_of_mem_eraseIdx ho)) rfl rfl ?_
    rw [Option.or_none]
  | detach i now =>
    obtain ⟨obs, hobs, rfl⟩ := Option.map_eq_some_iff.mp ha
    refine release_consistent h hobs ?_ rfl rfl (fun r => ?_)
    · cases obs <;> rfl
    · exact List.count_cons_of_ne (by simp)
  | park i =>
    obtain ⟨hnone, ht⟩ := Option.ite_none_right_eq_some.mp ha
    obtain rfl := Option.some.inj ht
    obtain ⟨hlt, hget⟩ := List.getElem?_eq_some_iff.mp hnone
    refine same_consistent h (fun obs ho => ?_) rfl rfl (fun r => ?_)
    · rcases List.mem_cons.mp ho with rfl | ho
      · rfl
      · exact h.pool obs ho
    · have := (List.getElem_cons_eraseIdx_perm hlt).count_eq (some r)
      rwa [hget, List.count_cons_of_ne (by simp)] at this
  | destroy i now =>
    obtain ⟨obs, hobs, rfl⟩ := Option.map_eq_some_iff.mp ha
    refine release_consistent h hobs ?_ rfl rfl (fun r => rfl)
    cases obs <;> rfl
  | evict i now =>
    obtain ⟨obs, hobs, rfl⟩ := Option.map_eq_some_iff.mp ha
    obtain rfl := h.pool obs (List.mem_of_getElem? hobs)
    exact same_consistent h (fun obs ho => h.pool obs (List.mem_of_mem_eraseIdx ho)) rfl rfl
      (fun r => rfl)
  | cleanup r now =>
    obtain rfl := Option.some.inj ha
    exact setHooks_consistent h h.pool rfl rfl (cleanup_cmds _ _)
      (backgroundCleanup_watches now (h.watches r)) (fun _ _ => rfl)

theorem runs_consistent {files : Repo → HooksFile} {as : List (Event Repo)} {u : RepoUse Repo}
    (h : runs step (start files) as = some u) : Consistent files u := by
  refine runs_induct (motive := fun _ u => Consistent files u) ?_
    (fun _ _ _ _ _ ih ha => step_consistent ih ha) h
  refine ⟨fun obs ho => absurd ho List.not_mem_nil, fun r => ⟨rfl, rfl⟩, fun r => ?_⟩
  refine ⟨rfl, fun hne => absurd rfl hne, fun _ _ => ⟨rfl, ?_⟩⟩
  exact iff_of_false Nat.zero_ne_one (fun hup => hup.elim (Nat.lt_irrefl 0) (fun hne => hne rfl))

theorem onAccess_ran (hs : HookHandler) : .down ∉ hs.onAccess.2 := by
  unfold onAccess
  simp only
  repeat' split
  all_goals simp

theorem access_ranFor (u : RepoUse Repo) (tracker : Option Repo) (r : Repo) :
    ∃ cmds, (u.access tracker).ranFor r = u.ranFor r ++ cmds ∧ .down ∉ cmds := by
  cases tracker with
  | none => exact ⟨[], (List.append_nil _).symm, List.not_mem_nil⟩
  | some r' =>
    by_cases hr : r = r'
    · subst hr
      exact ⟨_, (u.setHooks_same r _ _).2, onAccess_ran _⟩
    · exact ⟨[], (u.setHooks_other _ _ hr).2.trans (List.append_nil _).symm, List.not_mem_nil⟩

theorem release_ranFor (u : RepoUse Repo) (now : WallTime) (obs : Option Repo) (r : Repo) :
    (u.release now obs).ranFor r = u.ranFor r := by
  cases obs with
  | none => rfl
  | some r' =>
    by_cases hr : r = r'
    · subst hr
      exact (u.setHooks_same r _ []).2.trans (List.append_nil _)
    · exact (u.setHooks_other _ [] hr).2

/-- Only the cleaner executes the command, when the handler has a time for it. -/
theorem step_down {u t : RepoUse Repo} {a : Event Repo} {r : Repo} (ha : u.step a = some t)
    (hdown : t.ranFor r = u.ranFor r ++ [.down]) :
    t.held = u.held ∧ (u.hooks r).downTimeNext ≠ 0 := by
  have hsame : ∀ v : RepoUse Repo, v.ran = u.ran → v.ranFor r ≠ u.ranFor r ++ [.down] := by
    intro v hv heq
    rw [show v.ranFor r = u.ranFor r by rw [ranFor, hv]; rfl] at heq
    exact absurd (congrArg List.length heq) (by simp)
  have haccess : ∀ tracker, (u.access tracker).ranFor r ≠ u.ranFor r ++ [.down] := by
    intro tracker heq
    obtain ⟨cmds, hcmds, hnot⟩ := u.access_ranFor tracker r
    obtain rfl := List.append_cancel_left (hcmds.symm.trans heq)
    exact hnot List.mem_cons_self
  have hrelease : ∀ now obs, (u.release now obs).ranFor r ≠ u.ranFor r ++ [.down] := by
    intro now obs heq
    rw [release_ranFor] at heq
    exact absurd (congrArg List.length heq) (by simp)
  cases a with
  | construct tracker =>
    obtain rfl := Option.some.inj ha
    exact absurd hdown (haccess tracker)
  | reuse i tracker =>
    obtain ⟨obs, -, rfl⟩ := Option.map_eq_some_iff.mp ha
    exact absurd hdown (haccess tracker)
  | detach i now | destroy i now | evict i now =>
    obtain ⟨obs, -, rfl⟩ := Option.map_eq_some_iff.mp ha
    exact absurd hdown (hrelease now obs)
  | park i =>
    obtain ⟨-, ht⟩ := Option.ite_none_right_eq_some.mp ha
    obtain rfl := Option.some.inj ht
    exact absurd hdown (hsame _ rfl)
  | cleanup r' now =>
    have ht : u.setHooks r' ((u.hooks r').backgroundCleanup now).1
        ((u.hooks r').backgroundCleanup now).2.1 = t := Option.some.inj ha
    subst ht
    refine ⟨rfl, ?_⟩
    by_cases hr : r = r'
    · subst hr
      have hcmds := List.append_cancel_left ((u.setHooks_same r _ _).2.symm.trans hdown)
      have hne : ((u.hooks r).backgroundCleanup now).2.1 ≠ [] := by
        rw [hcmds]
        exact List.cons_ne_nil _ _
      exact backgroundCleanup_down hne
    · have hnone := (u.setHooks_other (r := r') ((u.hooks r').backgroundCleanup now).1
        ((u.hooks r').backgroundCleanup now).2.1 hr).2
      exact absurd (congrArg List.length (hnone.symm.trans hdown)) (by simp)

/-- In every interleaving the two commands of a repository take turns, the second one is only
executed while no connection of the repository is in use, and a time for it is only pending then. -/
theorem hooks_alternate {files : Repo → HooksFile} {as : List (Event Repo)} {u : RepoUse Repo}
    (h : runs step (start files) as = some u) (r : Repo) (hup : (files r).preUp ≠ [])
    (hdown : (files r).down ≠ []) :
    u.ranFor r = alternating (u.ranFor r).length ∧
      (∀ a t, u.step a = some t → t.ranFor r = u.ranFor r ++ [.down] →
        t.held = u.held ∧ some r ∉ u.held) ∧
      ((u.hooks r).downTimeNext ≠ 0 → (u.hooks r).nRefCnt = 0) := by
  have hc := runs_consistent h
  have hw := hc.watches r
  obtain ⟨hcon, hrel⟩ := hc.file r
  refine ⟨(hw.turns (hcon ▸ hup) (hrel ▸ hdown)).1, fun a t ha hran => ?_, fun hne => ?_⟩
  · obtain ⟨hheld, hne⟩ := step_down ha hran
    exact ⟨hheld, List.count_eq_zero.mp (hw.idle hne)⟩
  · rw [hw.count, hw.idle hne]
    rfl

theorem reconnect_before_down :
    let files : Unit → HooksFile := fun _ => { preUp := lit "up", down := lit "down", downTimeout := 30 }
    let u : RepoUse Unit :=
      { hooks := fun _ => { HookHandler.ofFile (files ()) with downTimeNext := 0, nRefCnt := 1 }
        held := [some ()], ran := [((), .preUp)] }
    u.ranFor () = alternating (u.ranFor ()).length ∧
      (∀ a t, u.step a = some t → t.ranFor () = u.ranFor () ++ [.down] →
        t.held = u.held ∧ some () ∉ u.held) ∧
      ((u.hooks ()).downTimeNext ≠ 0 → (u.hooks ()).nRefCnt = 0) := by
  exact @hooks_alternate Unit _ (fun _ => { preUp := lit "up", down := lit "down" })
    [.construct (some ()), .detach 0 ⟨7, by decide⟩, .park 0, .reuse 0 (some ())] _ rfl ()
    (by decide) (by decide)

end RepoUse

end Acng
