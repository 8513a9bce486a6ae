import Acng.Proofs.Cleaner
import Acng.Proofs.ConnPool

namespace Acng
open Lib

namespace Cleaner

/-- A cleanup of this type begins by then, or is under way. -/
def DueBy (c : Cleaner) (i : EType) (d : Int) : Prop :=
  match c.stage with
  | .off | .ended => False
  | .top | .copying _ | .sleeping _ _ _ => c.stamps i ≤ d
  | .scanning _ snapshot _ => c.stamps i ≤ d ∨ snapshot i ≤ d
  | .cleaning _ snapshot what _ => what = i ∨ c.stamps i ≤ d ∨ snapshot i ≤ d

variable {c t : Cleaner} {i what : EType} {d d' moment : Int}

theorem DueBy.mono (h : c.DueBy i d) (hd : d ≤ d') : c.DueBy i d' := by
  unfold DueBy at h ⊢
  cases hs : c.stage with
  | off | ended =>
    rw [hs] at h
    exact h
  | top | copying now | sleeping start delay n =>
    rw [hs] at h
    exact le_trans h hd
  | scanning now snapshot rest =>
    rw [hs] at h
    exact h.imp (fun h => h.trans hd) (fun h => h.trans hd)
  | cleaning now snapshot what rest =>
    rw [hs] at h
    exact h.imp_right (Or.imp (fun h => h.trans hd) (fun h => h.trans hd))

theorem Asked.dueBy (h : Asked c t moment what) (hc : c.DueBy i d) : t.DueBy i d := by
  have hlow := h.lower i
  unfold DueBy at hc
  rcases h.stage with ⟨hstage, -⟩ | ⟨start, delay, n, hfrom, hto⟩
  · unfold DueBy
    rw [hstage]
    cases hs : c.stage with
    | off | ended =>
      rw [hs] at hc
      exact hc
    | top | copying now | sleeping start delay n =>
      rw [hs] at hc
      exact hlow.trans hc
    | scanning now snapshot rest =>
      rw [hs] at hc
      exact hc.imp_left hlow.trans
    | cleaning now snapshot what rest =>
      rw [hs] at hc
      exact hc.imp_right (Or.imp_left hlow.trans)
  · unfold DueBy
    rw [hto]
    rw [hfrom] at hc
    exact hlow.trans hc

theorem scheduleFor_dueBy (moment : Int) (what : EType) (h : c.DueBy i d) :
    (c.scheduleFor moment what).DueBy i d := by
  by_cases hs : c.stage = .off
  · rw [DueBy, hs] at h
    exact h.elim
  · rcases scheduleFor_asked moment what hs with heq | hasked
    · rwa [heq]
    · exact hasked.dueBy h

/-- A thread that is there takes a request down, unless no cleaning is wanted. -/
theorem scheduleFor_asks (moment : Int) (what : EType) (hnoop : c.noop = false)
    (hshut : c.inShutdown = false) (hs : c.stage ≠ .off) :
    Asked c (c.scheduleFor moment what) moment what := by
  rcases scheduleFor_asked moment what hs with heq | hasked
  · have hgo : (c.noop || c.inShutdown) = false := by simp [hnoop, hshut]
    have hkeep : ∀ k : Cleaner, k.notifyAll.pending = k.pending := by
      intro k
      unfold notifyAll
      split <;> rfl
    have hpending : (c.scheduleFor moment what).pending what = moment :: c.pending what := by
      unfold scheduleFor
      rw [if_neg (by simp [hgo])]
      split
      · exact absurd ‹_› hs
      · split
        · simp [ask]
        · simp [hkeep, ask]
    rw [heq] at hpending
    exact absurd hpending (List.cons_ne_self _ _).symm
  · exact hasked

/-- A request for a moment is served by then. -/
theorem scheduleFor_due (moment : Int) (what : EType) (hc : c.Covered) (hnoop : c.noop = false)
    (hterm : c.terminating = false) (hshut : c.inShutdown = false) :
    (c.scheduleFor moment what).DueBy what moment := by
  by_cases hs : c.stage = .off
  · simp only [scheduleFor, hnoop, hshut, hs, Bool.or_self, Bool.false_eq_true, if_false, DueBy,
      Function.update_self, le_refl]
  · have hasked := scheduleFor_asks moment what hnoop hshut hs
    have hown := hasked.own
    unfold Covered at hc
    unfold DueBy
    rcases hasked.stage with ⟨hstage, -⟩ | ⟨start, delay, n, -, hto⟩
    · rw [hstage]
      cases hst : c.stage with
      | off => exact absurd hst hs
      | ended =>
        rw [hst, hterm, hshut] at hc
        simp at hc
      | top | copying now | sleeping start delay n => exact hown
      | scanning now snapshot rest => exact .inl hown
      | cleaning now snapshot k rest => exact .inr (.inl hown)
    · rw [hto]
      exact hown

theorem notifyAll_flags (c : Cleaner) : c.notifyAll.terminating = c.terminating ∧
    c.notifyAll.inShutdown = c.inShutdown ∧ c.notifyAll.noop = c.noop := by
  unfold notifyAll
  split <;> exact ⟨rfl, rfl, rfl⟩

theorem scheduleFor_flags (c : Cleaner) (moment : Int) (what : EType) :
    (c.scheduleFor moment what).terminating = c.terminating ∧
      (c.scheduleFor moment what).inShutdown = c.inShutdown ∧
      (c.scheduleFor moment what).noop = c.noop := by
  unfold scheduleFor
  split
  · exact ⟨rfl, rfl, rfl⟩
  split
  · exact ⟨rfl, rfl, rfl⟩
  split
  · exact ⟨rfl, rfl, rfl⟩
  · exact notifyAll_flags _

/-- No step of the loop takes a flag back. -/
theorem step_flags {e : Event} (h : c.step e = some t) :
    (t.terminating = false → c.terminating = false) ∧ (t.inShutdown = false → c.inShutdown = false) ∧
      t.noop = c.noop := by
  cases e with
  | scheduleFor moment what =>
    obtain rfl := Option.some.inj h
    obtain ⟨h1, h2, h3⟩ := scheduleFor_flags c moment what
    exact ⟨fun ht => h1.symm.trans ht, fun ht => h2.symm.trans ht, h3⟩
  | stop =>
    obtain rfl := Option.some.inj h
    unfold stop
    split
    · exact ⟨id, id, rfl⟩
    · obtain ⟨h1, h2, h3⟩ := notifyAll_flags { c with terminating := true }
      exact ⟨fun ht => absurd (h1.symm.trans ht) (by simp), fun ht => h2.symm.trans ht, h3⟩
  | shutdown =>
    obtain rfl := Option.some.inj h
    exact ⟨id, fun ht => Bool.noConfusion ht, rfl⟩
  | joined | head ms | copy | scan | cleaned tc | playback ms | wake =>
    simp only [step] at h
    repeat' split at h
    all_goals first
      | cases h
        exact ⟨id, id, rfl⟩
      | cases h

/-- Only the end of a cleanup of its type takes a deadline away. -/
theorem DueBy.step {e : Event} (h : c.DueBy i d) (hstep : c.step e = some t)
    (hno : ∀ tc, e = .cleaned tc → ∀ now snapshot rest, c.stage ≠ .cleaning now snapshot i rest)
    (hterm : t.terminating = false) (hshut : t.inShutdown = false) : t.DueBy i d := by
  obtain ⟨hct, hcs, -⟩ := step_flags hstep
  have hrun : (c.terminating || c.inShutdown) = false := by simp [hct hterm, hcs hshut]
  cases e with
  | scheduleFor moment what =>
    obtain rfl := Option.some.inj hstep
    exact scheduleFor_dueBy moment what h
  | stop =>
    obtain rfl := Option.some.inj hstep
    unfold stop at hterm ⊢
    split at hterm
    · exact h
    · exact absurd ((notifyAll_flags _).1.symm.trans hterm) (by simp)
  | shutdown =>
    obtain rfl := Option.some.inj hstep
    exact absurd hshut (by simp)
  | joined =>
    simp only [Cleaner.step] at hstep
    split at hstep
    · rename_i hs
      rw [DueBy, hs] at h
      exact h.elim
    · cases hstep
  | head ms =>
    simp only [Cleaner.step] at hstep
    split at hstep
    · rename_i hs
      rw [DueBy, hs] at h
      obtain rfl := Option.some.inj hstep
      rw [DueBy, if_neg (by simp [hrun])]
      exact h
    · cases hstep
  | copy =>
    simp only [Cleaner.step] at hstep
    split at hstep
    · rename_i now hs
      rw [DueBy, hs] at h
      obtain rfl := Option.some.inj hstep
      exact .inr h
    · cases hstep
  | scan =>
    simp only [Cleaner.step] at hstep
    split at hstep
    · rename_i now snapshot k rest hs
      rw [DueBy, hs] at h
      split at hstep
      · obtain rfl := Option.some.inj hstep
        exact h
      · rw [if_neg (by simp [hrun])] at hstep
        obtain rfl := Option.some.inj hstep
        exact .inr h
    · cases hstep
  | cleaned tc =>
    simp only [Cleaner.step] at hstep
    split at hstep
    · rename_i now snapshot k rest hs
      have hk : i ≠ k := fun hik => hno tc rfl now snapshot rest (hik ▸ hs)
      rw [DueBy, hs] at h
      obtain rfl := Option.some.inj hstep
      rcases h with rfl | h
      · exact absurd rfl hk
      · exact h.imp_right (fun h => by rwa [Function.update_of_ne hk])
    · cases hstep
  | playback ms =>
    simp only [Cleaner.step] at hstep
    split at hstep
    · rename_i now snapshot hs
      rw [DueBy, hs] at h
      obtain rfl := Option.some.inj hstep
      have hmin : (playback snapshot c.stamps).1 i ≤ d :=
        h.elim (min_le_right _ _).trans (min_le_left _ _).trans
      unfold DueBy
      split_ifs <;> exact hmin
    · cases hstep
  | wake =>
    simp only [Cleaner.step] at hstep
    split at hstep
    · rename_i start delay n hs
      rw [DueBy, hs] at h
      obtain rfl := Option.some.inj hstep
      exact h
    · cases hstep

/-- A cleanup asks to be called again. -/
theorem cleaned_dueBy {now time_cand : Int} {snapshot : Stamps} {rest : List EType}
    (hs : c.stage = .cleaning now snapshot i rest) (hi : i ≠ .exFileItem)
    (hstep : c.step (.cleaned time_cand) = some t) : t.DueBy i time_cand := by
  simp only [step, hs, hi, decide_false, Bool.false_and, Bool.false_eq_true, if_false] at hstep
  obtain rfl := Option.some.inj hstep
  exact .inr (Function.update_self i time_cand snapshot).le

end Cleaner

namespace SpareCon

theorem eraseReadable_sublist (rfds : Finset Nat) (r : Nat) (spareConPool : List SpareCon) :
    (eraseReadable rfds r spareConPool).Sublist spareConPool := by
  rw [eraseReadable_eq]
  conv_rhs => rw [← List.take_append_drop r spareConPool]
  exact List.filter_sublist.append_right _

/-- The cleanup only takes entries away, and all that have expired. -/
theorem backgroundCleanup_sublist (now later : Int) (select : Option (Finset Nat))
    (spareConPool : List SpareCon) :
    (backgroundCleanup now later select spareConPool).1.Sublist
      (spareConPool.filter (fun con => !con.expired now)) := by
  unfold backgroundCleanup
  cases select with
  | none => exact List.Sublist.refl _
  | some rfds => exact eraseReadable_sublist rfds _ _

/-- As long as something is left, the cleanup is to come back soon. -/
theorem backgroundCleanup_again {now later : Int} {select : Option (Finset Nat)}
    {spareConPool : List SpareCon} {e : SpareCon}
    (h : e ∈ (backgroundCleanup now later select spareConPool).1) :
    (backgroundCleanup now later select spareConPool).2 = later + TIME_SOCKET_EXPIRE_CLOSE / 4 + 1 := by
  simp only [backgroundCleanup] at h ⊢
  refine if_neg (fun he => ?_)
  rw [List.isEmpty_iff.mp he] at h
  exact absurd h List.not_mem_nil

theorem emplace_perm (con : SpareCon) (spareConPool : List SpareCon) :
    (emplace con spareConPool).Perm (con :: spareConPool) := by
  unfold emplace
  refine List.perm_middle.trans ?_
  rw [List.takeWhile_append_dropWhile]

end SpareCon

/-- A connection that shows a name talks to whom the name says, over TLS exactly if it says so, and then
with a handshake for that name. -/
def TcpConnect.Genuine (con : TcpConnect) : Prop :=
  con.sHostName ≠ [] →
    con.peer = (con.sHostName, con.nPort) ∧ con.handshake = if con.bio then some con.sHostName else none

namespace IdlePool

open Cleaner (getTime)

/-- Each connection is in one hand or once in the pool, and the entries of the pool say what they are. -/
structure Sound (s : IdlePool) : Prop where
  once : s.used.Nodup
  few : s.spareConPool.length ≤ 50
  keyed : ∀ e ∈ s.spareConPool, e.key = (s.cons e.fd).key ∧ (s.cons e.fd).sHostName ≠ []
  genuine : ∀ fd ∈ s.used, (s.cons fd).Genuine

section Step

variable {s t : IdlePool}

theorem mem_used_of_entry {e : SpareCon} (h : e ∈ s.spareConPool) : e.fd ∈ s.used :=
  List.mem_append_right _ (List.mem_map_of_mem h)

/-- Another connection in the place of a descriptor that the pool does not have. -/
theorem Sound.update (h : s.Sound) (fd : Nat) (con : TcpConnect) (hg : con.Genuine)
    (hfd : fd ∉ s.spareConPool.map (·.fd)) :
    Sound { s with cons := Function.update s.cons fd con } where
  once := h.once
  few := h.few
  keyed := fun e he => by
    have hne : e.fd ≠ fd := fun heq => hfd (heq ▸ List.mem_map_of_mem he)
    simpa only [Function.update_of_ne hne] using h.keyed e he
  genuine := fun k hk => by
    by_cases hkf : k = fd
    · subst hkf
      simpa only [Function.update_self] using hg
    · simpa only [Function.update_of_ne hkf] using h.genuine k hk

/-- A descriptor that nobody has, for a new connection. -/
theorem Sound.hold (h : s.Sound) {fd : Nat} (hfd : fd ∉ s.used) (hg : (s.cons fd).Genuine) :
    Sound { s with held := fd :: s.held } where
  once := List.nodup_cons.mpr ⟨hfd, h.once⟩
  few := h.few
  keyed := h.keyed
  genuine := fun k hk => by
    rcases List.mem_cons.mp hk with rfl | hk
    · exact hg
    · exact h.genuine k hk

/-- Fewer entries in the pool. -/
theorem Sound.shrink (h : s.Sound) {pool : List SpareCon} (hp : pool.Sublist s.spareConPool) :
    Sound { s with spareConPool := pool } where
  once := h.once.sublist ((hp.map _).append_left _)
  few := hp.length_le.trans h.few
  keyed := fun e he => h.keyed e (hp.subset he)
  genuine := fun k hk => h.genuine k (((hp.map _).append_left _).subset hk)

theorem Sound.drop (h : s.Sound) (fd : Nat) : Sound { s with held := s.held.erase fd } where
  once := h.once.sublist (List.erase_sublist.append_right _)
  few := h.few
  keyed := h.keyed
  genuine := fun k hk => h.genuine k ((List.erase_sublist.append_right _).subset hk)

theorem held_not_pooled (h : s.Sound) {fd : Nat} (hfd : fd ∈ s.held) :
    fd ∉ s.spareConPool.map (·.fd) :=
  fun hm => (List.nodup_append.mp h.once).2.2 fd hfd fd hm rfl

/-- What a call of `CreateConnected` gives: a connection that nobody holds, with the wanted name. -/
structure Handed (s t : IdlePool) (key : Bytes × Nat × Bool) (fd : Nat) : Prop where
  new : fd ∉ s.held
  held : t.held = fd :: s.held
  key : (t.cons fd).key = key
  others : ∀ k, k ≠ fd → t.cons k = s.cons k

/-- An entry that is taken out of the pool is nowhere else. -/
theorem Sound.take (h : s.Sound) {it : SpareCon} (hit : it ∈ s.spareConPool) :
    it.fd ∉ used { s with spareConPool := s.spareConPool.erase it } := by
  have hperm : s.used.Perm (it.fd :: used { s with spareConPool := s.spareConPool.erase it }) := by
    refine List.Perm.trans ?_ List.perm_middle
    exact ((List.perm_cons_erase hit).map _).append_left _
  exact (List.nodup_cons.mp (hperm.nodup_iff.mp h.once)).1

theorem Sound.reuse (h : s.Sound) {it : SpareCon} {key : Bytes × Nat × Bool}
    (hfind : s.spareConPool.find? (fun it => it.key == key) = some it) :
    Sound { s with spareConPool := s.spareConPool.erase it, held := it.fd :: s.held } ∧
      Handed s { s with spareConPool := s.spareConPool.erase it, held := it.fd :: s.held } key it.fd := by
  have hit := List.mem_of_find?_eq_some hfind
  have hkey : it.key = key := by simpa using List.find?_some hfind
  have hnew := h.take hit
  refine ⟨(h.shrink List.erase_sublist).hold hnew (h.genuine _ (mem_used_of_entry hit)), ?_⟩
  exact ⟨fun hm => hnew (List.mem_append_left _ hm), rfl, (h.keyed it hit).1 ▸ hkey, fun _ _ => rfl⟩

theorem Sound.connect (h : s.Sound) {fd : Nat} (hfd : fd ∉ s.used) (con : TcpConnect) (hg : con.Genuine) :
    Sound { s with cons := Function.update s.cons fd con, held := fd :: s.held } ∧
      Handed s { s with cons := Function.update s.cons fd con, held := fd :: s.held } con.key fd := by
  have hnot : fd ∉ s.spareConPool.map (·.fd) := fun hm => hfd (List.mem_append_right _ hm)
  refine ⟨(h.update fd con hg hnot).hold hfd ?_, ?_⟩
  · simpa only [Function.update_self] using hg
  · exact ⟨fun hm => hfd (List.mem_append_left _ hm), rfl, by simp only [Function.update_self],
      fun k hk => Function.update_of_ne hk _ _⟩

theorem Sound.create (h : s.Sound) {sHostname : Bytes} {nPort : Nat} {bSsl nocache : Bool} {io : ConnectIo}
    (hfd : ∀ fd ∈ io.fd, fd ∉ s.used) (r : IdlePool × Option Nat × Bool × Option Bytes)
    (hr : s.createConnected sHostname nPort bSsl nocache io = r) :
    r.1.Sound ∧ ((r.2.1 = none ∧ r.1 = s) ∨
      ∃ fd, r.2.1 = some fd ∧ Handed s r.1 (sHostname, nPort, bSsl) fd) := by
  unfold createConnected at hr
  simp only at hr
  split at hr
  · rename_i it hfind
    cases nocache with
    | true => cases hfind
    | false =>
      obtain ⟨hs, hh⟩ := h.reuse hfind
      subst hr
      exact ⟨hs, .inr ⟨_, rfl, hh⟩⟩
  · split at hr
    · subst hr
      exact ⟨h, .inl ⟨rfl, rfl⟩⟩
    · split at hr
      · subst hr
        exact ⟨h, .inl ⟨rfl, rfl⟩⟩
      · rename_i fd hio
        have hnew := hfd fd (hio ▸ rfl)
        cases bSsl with
        | true =>
          rw [if_pos rfl] at hr
          split at hr
          · subst hr
            exact ⟨h, .inl ⟨rfl, rfl⟩⟩
          · subst hr
            obtain ⟨hs, hh⟩ := h.connect hnew { sHostName := sHostname, nPort := nPort
                                                peer := (sHostname, nPort), bio := true
                                                handshake := some sHostname } (fun _ => ⟨rfl, rfl⟩)
            exact ⟨hs, .inr ⟨fd, rfl, hh⟩⟩
        | false =>
          rw [if_neg Bool.false_ne_true] at hr
          subst hr
          obtain ⟨hs, hh⟩ := h.connect hnew { sHostName := sHostname, nPort := nPort
                                              peer := (sHostname, nPort) } (fun _ => ⟨rfl, rfl⟩)
          exact ⟨hs, .inr ⟨fd, rfl, hh⟩⟩

theorem Sound.startTunnel (h : s.Sound) {fd : Nat} (hfd : fd ∈ s.held) (realTarget : HttpUrl)
    (io : StartTunnelIo) : (s.startTunnel fd realTarget io).1.Sound := by
  unfold IdlePool.startTunnel
  cases io with
  | refused => exact h
  | sslFailed bio => exact h.update fd _ (fun hn => absurd rfl hn) (held_not_pooled h hfd)
  | done => exact h.update fd _ (fun _ => ⟨rfl, rfl⟩) (held_not_pooled h hfd)

theorem Sound.recycle (h : s.Sound) {fd : Nat} (hfd : fd ∈ s.held) (persistoutgoing : Bool) :
    (s.recycleIdleConnection fd persistoutgoing).Sound := by
  have hdrop := h.drop fd
  unfold recycleIdleConnection
  simp only
  split
  · exact hdrop
  split
  · exact hdrop
  rename_i hhost
  split
  · rename_i hroom
    have hused : (s.held.erase fd ++ (SpareCon.emplace ⟨(s.cons fd).key, fd, getTime s.ms⟩
        s.spareConPool).map (·.fd)).Perm s.used := by
      refine (((SpareCon.emplace_perm _ _).map _).append_left _).trans ?_
      refine List.perm_middle.trans ?_
      exact (List.perm_cons_erase hfd).symm.append_right _
    refine ⟨hused.nodup_iff.mpr h.once, ?_, fun e he => ?_, fun k hk => h.genuine k (hused.mem_iff.mp hk)⟩
    · rw [(SpareCon.emplace_perm _ _).length_eq]
      exact hroom
    · rcases List.mem_cons.mp ((SpareCon.emplace_perm _ _).mem_iff.mp he) with rfl | he
      · exact ⟨rfl, by simpa using hhost⟩
      · exact h.keyed e he
  · exact hdrop

theorem Sound.step (h : s.Sound) {a : PoolAct} (hstep : s.step a = some t) : t.Sound := by
  cases a with
  | tick ms =>
    simp only [IdlePool.step] at hstep
    split at hstep
    · cases hstep
    · cases hstep
      exact ⟨h.once, h.few, h.keyed, h.genuine⟩
  | create sHostname nPort bSsl nocache io =>
    simp only [IdlePool.step] at hstep
    split at hstep
    · cases hstep
    · rename_i hfd
      cases hstep
      exact (h.create (by simpa [Option.any_eq_false] using hfd) _ rfl).1
  | startTunnel fd realTarget io =>
    simp only [IdlePool.step, List.contains_iff_mem] at hstep
    split at hstep
    · cases hstep
      exact h.startTunnel ‹_› realTarget io
    · cases hstep
  | recycle fd persistoutgoing =>
    simp only [IdlePool.step, List.contains_iff_mem] at hstep
    split at hstep
    · cases hstep
      exact h.recycle ‹_› persistoutgoing
    · cases hstep
  | drop fd =>
    simp only [IdlePool.step, List.contains_iff_mem] at hstep
    split at hstep
    · cases hstep
      exact h.drop fd
    · cases hstep
  | closeAll =>
    cases hstep
    exact h.shrink (List.nil_sublist _)
  | cleanup select ms =>
    simp only [IdlePool.step] at hstep
    split at hstep
    · cases hstep
    · obtain ⟨c, -, rfl⟩ := Option.map_eq_some_iff.mp hstep
      have hs := h.shrink ((SpareCon.backgroundCleanup_sublist (getTime s.ms) (getTime ms) select
        s.spareConPool).trans List.filter_sublist)
      exact ⟨hs.once, hs.few, hs.keyed, hs.genuine⟩
  | loop e =>
    simp only [IdlePool.step] at hstep
    split at hstep
    · cases hstep
    · obtain ⟨c, -, rfl⟩ := Option.map_eq_some_iff.mp hstep
      exact ⟨h.once, h.few, h.keyed, h.genuine⟩

theorem runs_sound {ms : Int} {acts : List PoolAct} (h : run (start ms) acts = some s) : s.Sound := by
  refine runs_induct (motive := fun _ s => Sound s) ?_ (fun _ _ _ _ _ hm hstep => hm.step hstep) h
  exact ⟨List.nodup_nil, Nat.zero_le _, by simp [start], by simp [used, start]⟩

/-- When the pool has to be looked at for the sake of an entry: when that expires, or nine seconds after
the pool was looked at last. -/
def deadline (s : IdlePool) (e : SpareCon) : Int :=
  max (e.stored + TIME_SOCKET_EXPIRE_CLOSE) (s.cleanedAt + TIME_SOCKET_EXPIRE_CLOSE / 4 + 1)

/-- Someone looks at each entry in time, as long as the cleaner is not told to end. -/
structure Watched (s : IdlePool) : Prop where
  covered : s.cleaner.Covered
  noop : s.cleaner.noop = false
  due : s.cleaner.terminating = false → s.cleaner.inShutdown = false →
    ∀ e ∈ s.spareConPool, s.cleaner.DueBy .exConns (s.deadline e)
  past : ∀ e ∈ s.spareConPool, e.stored ≤ getTime s.ms
  cleaned : s.cleanedAt ≤ getTime s.ms

theorem Watched.recycle (h : s.Watched) (fd : Nat) (persistoutgoing : Bool) :
    (s.recycleIdleConnection fd persistoutgoing).Watched := by
  have hdrop : Watched { s with held := s.held.erase fd } := ⟨h.covered, h.noop, h.due, h.past, h.cleaned⟩
  unfold recycleIdleConnection
  simp only
  split
  · exact hdrop
  split
  · exact hdrop
  split
  · obtain ⟨hterm, hshut, hnoop⟩ := Cleaner.scheduleFor_flags s.cleaner
      (getTime s.ms + TIME_SOCKET_EXPIRE_CLOSE) .exConns
    refine ⟨Cleaner.scheduleFor_covered h.covered, hnoop.trans h.noop, fun ht hs e he => ?_, fun e he => ?_,
      h.cleaned⟩
    · rcases List.mem_cons.mp ((SpareCon.emplace_perm _ _).mem_iff.mp he) with rfl | he
      · exact (Cleaner.scheduleFor_due _ .exConns h.covered h.noop (hterm.symm.trans ht)
          (hshut.symm.trans hs)).mono (le_max_left _ _)
      · exact Cleaner.scheduleFor_dueBy _ _ (h.due (hterm.symm.trans ht) (hshut.symm.trans hs) e he)
    · rcases List.mem_cons.mp ((SpareCon.emplace_perm _ _).mem_iff.mp he) with rfl | he
      · exact le_refl _
      · exact h.past e he
  · exact hdrop

theorem Watched.cleanup (h : s.Watched) {select : Option (Finset Nat)} {ms : Int}
    (hstep : s.step (.cleanup select ms) = some t) : t.Watched := by
  simp only [IdlePool.step] at hstep
  split at hstep
  · cases hstep
  · rename_i hgo
    simp only [Bool.or_eq_true, Bool.not_eq_true', decide_eq_true_eq, not_or, Bool.not_eq_false,
      not_lt] at hgo
    obtain ⟨hcleaning, hms⟩ := hgo
    obtain ⟨c, hc, rfl⟩ := Option.map_eq_some_iff.mp hstep
    have hsub := SpareCon.backgroundCleanup_sublist (getTime s.ms) (getTime ms) select s.spareConPool
    have hclock : getTime s.ms ≤ getTime ms := Int.ediv_le_ediv (by decide) hms
    refine ⟨Cleaner.step_covered h.covered hc, (Cleaner.step_flags hc).2.2.trans h.noop, fun _ _ e he => ?_,
      fun e he => ?_, le_refl _⟩
    · unfold cleaningPool at hcleaning
      split at hcleaning
      · rename_i now snapshot what rest hs
        obtain rfl := of_decide_eq_true hcleaning
        refine (Cleaner.cleaned_dueBy hs (by decide) hc).mono ?_
        rw [SpareCon.backgroundCleanup_again he]
        exact le_max_right _ _
      · cases hcleaning
    · exact (h.past e (List.mem_of_mem_filter (hsub.subset he))).trans hclock

/-- A step of the cleaner that does not clean the pool. -/
theorem Watched.loop (h : s.Watched) {e : Cleaner.Event} (hstep : s.step (.loop e) = some t) :
    t.Watched := by
  simp only [IdlePool.step] at hstep
  split at hstep
  · cases hstep
  · rename_i hgo
    simp only [Bool.or_eq_true, Bool.and_eq_true, not_or, not_and] at hgo
    obtain ⟨c, hc, rfl⟩ := Option.map_eq_some_iff.mp hstep
    obtain ⟨hterm, hshut, hnoop⟩ := Cleaner.step_flags hc
    refine ⟨Cleaner.step_covered h.covered hc, hnoop.trans h.noop, fun ht hs k hk => ?_, h.past, h.cleaned⟩
    refine (h.due (hterm ht) (hshut hs) k hk).step hc (fun tc he now snapshot rest hst => ?_) ht hs
    subst he
    refine hgo.1 ?_ rfl
    simp [cleaningPool, hst]

theorem Watched.create (h : s.Watched) (sHostname : Bytes) (nPort : Nat) (bSsl nocache : Bool) (io : ConnectIo) :
    (s.createConnected sHostname nPort bSsl nocache io).1.Watched := by
  have hkeep : ∀ cons held, Watched { s with cons := cons, held := held } := fun _ _ =>
    ⟨h.covered, h.noop, h.due, h.past, h.cleaned⟩
  unfold createConnected
  simp only
  split
  · exact ⟨h.covered, h.noop, fun ht hs e he => h.due ht hs e (List.mem_of_mem_erase he),
      fun e he => h.past e (List.mem_of_mem_erase he), h.cleaned⟩
  · repeat' split
    all_goals first
      | exact h
      | exact hkeep _ _

theorem Watched.step (h : s.Watched) {a : PoolAct} (hstep : s.step a = some t) : t.Watched := by
  cases a with
  | tick ms =>
    simp only [IdlePool.step] at hstep
    split at hstep
    · cases hstep
    · rename_i hms
      cases hstep
      have hclock : getTime s.ms ≤ getTime ms := Int.ediv_le_ediv (by decide) (not_lt.mp hms)
      exact ⟨h.covered, h.noop, h.due, fun e he => (h.past e he).trans hclock, h.cleaned.trans hclock⟩
  | create sHostname nPort bSsl nocache io =>
    simp only [IdlePool.step] at hstep
    split at hstep
    · cases hstep
    · cases hstep
      exact h.create sHostname nPort bSsl nocache io
  | startTunnel fd realTarget io =>
    simp only [IdlePool.step] at hstep
    split at hstep
    · cases hstep
      unfold IdlePool.startTunnel
      cases io <;> exact ⟨h.covered, h.noop, h.due, h.past, h.cleaned⟩
    · cases hstep
  | recycle fd persistoutgoing =>
    simp only [IdlePool.step] at hstep
    split at hstep
    · cases hstep
      exact h.recycle fd persistoutgoing
    · cases hstep
  | drop fd =>
    simp only [IdlePool.step] at hstep
    split at hstep
    · cases hstep
      exact ⟨h.covered, h.noop, h.due, h.past, h.cleaned⟩
    · cases hstep
  | closeAll =>
    cases hstep
    exact ⟨h.covered, h.noop, fun _ _ => by simp, by simp, h.cleaned⟩
  | cleanup select ms => exact h.cleanup hstep
  | loop e => exact h.loop hstep

theorem runs_watched {ms : Int} {acts : List PoolAct} (h : run (start ms) acts = some s) : s.Watched := by
  refine runs_induct (motive := fun _ s => Watched s) ?_ (fun _ _ _ _ _ hm hstep => hm.step hstep) h
  exact ⟨fun _ _ => rfl, rfl, fun _ _ => by simp [start], by simp [start], le_refl _⟩

end Step

/-- Whatever downloads, tunnels, broken connections and cleanups do in any order: each connection is in one
hand or once in the pool, which holds at most fifty, and a request for a host gets a connection that nobody
else has and that talks to that host and port, over TLS with that name exactly if that is asked for. -/
theorem pool_isolates {ms : Int} {acts : List PoolAct} {s : IdlePool}
    (h : run (start ms) acts = some s) :
    s.used.Nodup ∧ s.spareConPool.length ≤ 50 ∧ (∀ fd ∈ s.used, (s.cons fd).Genuine) ∧
      ∀ sHostname nPort bSsl nocache io t, sHostname ≠ [] →
        s.step (.create sHostname nPort bSsl nocache io) = some t →
        (s.createConnected sHostname nPort bSsl nocache io).2.1 = none ∧ t = s ∨
          ∃ fd, (s.createConnected sHostname nPort bSsl nocache io).2.1 = some fd ∧ fd ∉ s.held ∧
            t.held = fd :: s.held ∧ fd ∉ t.spareConPool.map (·.fd) ∧
            t.cons fd = {
              sHostName := sHostname, nPort := nPort, bio := bSsl, peer := (sHostname, nPort)
              handshake := if bSsl then some sHostname else none } := by
  have hs := runs_sound h
  refine ⟨hs.once, hs.few, hs.genuine, fun sHostname nPort bSsl nocache io t hne hstep => ?_⟩
  simp only [step] at hstep
  split at hstep
  · cases hstep
  · rename_i hfd
    obtain rfl := Option.some.inj hstep
    obtain ⟨ht, hnone | ⟨fd, hsome, hh⟩⟩ := hs.create (by simpa [Option.any_eq_false] using hfd) _ rfl
    · exact .inl hnone
    · have hmem : fd ∈ (s.createConnected sHostname nPort bSsl nocache io).1.held :=
        hh.held ▸ List.mem_cons_self
      refine .inr ⟨fd, hsome, hh.new, hh.held, held_not_pooled ht hmem, ?_⟩
      have hg := ht.genuine fd (List.mem_append_left _ hmem)
      have hkey := hh.key
      generalize (s.createConnected sHostname nPort bSsl nocache io).1.cons fd = con at hg hkey
      obtain ⟨host, port, bio, peer, handshake⟩ := con
      cases hkey
      obtain ⟨hpeer, hshake⟩ := hg hne
      simp only at hpeer hshake
      subst hpeer hshake
      rfl

/-- A connection to a proxy, a tunnel through it, and another user of the tunnel. -/
def tunnelAgain : List PoolAct :=
  [.create (lit "proxy") 3142 false false { fd := some 7 },
    .startTunnel 7 { sHost := lit "a", bSSL := true } .done, .recycle 7 true]

theorem tunnelAgain_isolated : ∃ s, run (start 5000) tunnelAgain = some s ∧ s.used.Nodup ∧
    ∀ t, s.step (.create (lit "a") 443 true false {}) = some t →
      t.cons 7 = ⟨lit "a", 443, true, (lit "a", 443), some (lit "a")⟩ := by
  refine ⟨_, rfl, (@pool_isolates 5000 tunnelAgain _ rfl).1, fun t ht => ?_⟩
  rcases (@pool_isolates 5000 tunnelAgain _ rfl).2.2.2 (lit "a") 443 true false {} t (by decide) ht with
    ⟨hnone, -⟩ | ⟨fd, hsome, -, -, -, hcon⟩
  · cases hnone
  · cases hsome
    exact hcon

/-- Idle connections do not stay unnoticed: as long as the cleaner is not told to end, a cleanup of the pool
begins, or is under way, by the time that an entry expires or nine seconds after the last cleanup, and a
sleep of the thread that nobody cuts short ends within a second after that. -/
theorem pool_watched {ms : Int} {acts : List PoolAct} {s : IdlePool}
    (h : run (start ms) acts = some s) (hterm : s.cleaner.terminating = false)
    (hshut : s.cleaner.inShutdown = false) :
    ∀ e ∈ s.spareConPool, s.cleaner.DueBy .exConns (s.deadline e) ∧
      e.stored ≤ getTime s.ms ∧ s.cleanedAt ≤ getTime s.ms ∧
      ∀ wake ∈ s.cleaner.sleepEnd, wake ≤ 1000 * (s.deadline e + 1) := by
  intro e he
  have hw := runs_watched h
  have hdue := hw.due hterm hshut e he
  refine ⟨hdue, hw.past e he, hw.cleaned, fun wake hwake => ?_⟩
  have hcov := hw.covered
  unfold Cleaner.sleepEnd at hwake
  split at hwake
  · rename_i start delay hst
    rw [Cleaner.Covered, hst] at hcov
    rw [Cleaner.DueBy, hst] at hdue
    obtain rfl := Option.some.inj hwake
    have hsleep := hcov.2 rfl .exConns
    simp only at hdue
    omega
  · cases hwake

/-- The thread starts with the first idle connection, and sleeps until that expires. -/
theorem tunnelAgain_watched : ∃ s, run (start 5000) (tunnelAgain ++ [.loop (.head 5000), .loop .copy,
      .loop .scan, .loop .scan, .loop .scan, .loop (.playback 5000)]) = some s ∧
    s.spareConPool.length = 1 ∧ s.cleaner.sleepEnd = some 38001 ∧
    ∀ e ∈ s.spareConPool, s.cleaner.DueBy .exConns (s.deadline e) :=
  ⟨_, rfl, rfl, rfl, fun e he => (@pool_watched 5000 (tunnelAgain ++ [.loop (.head 5000), .loop .copy,
      .loop .scan, .loop .scan, .loop .scan, .loop (.playback 5000)]) _ rfl rfl rfl e he).1⟩

end IdlePool

end Acng
