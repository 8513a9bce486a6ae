import Acng.Proofs.ItemFrame
import Acng.Response

namespace Acng
open Lib

theorem Spot.fill_perm (s : Spot) (js : List JobObj) : (s.fill js).flatten.Perm (js ++ s.others) := by
  have hflat : (s.fill js).flatten =
      (s.before.flatten ++ s.pre) ++ js ++ (s.post ++ s.behind.flatten) := by
    simp [fill, List.append_assoc]
  rw [hflat]
  exact (List.perm_append_comm.append_right _).trans (by rw [others, List.append_assoc])

namespace World

theorem refs_fill (w : World) (s : Spot) (js : List JobObj) (hq : w.queues = s.fill js) (i : Nat) :
    w.refs i = js.countP (fun j => j.item == some i) + s.others.countP (fun j => j.item == some i) := by
  rw [refs, live, hq, (s.fill_perm js).countP_eq, List.countP_append]

/-- Replacing a job by one with the same item keeps all references. -/
theorem refs_replace (w w' : World) (s : Spot) (j : JobObj) (job : DlJob) (phase : Phase)
    (hq : w.queues = s.fill [j]) (hq' : w'.queues = s.fill [{ j with job := job, phase := phase }])
    (i : Nat) : w'.refs i = w.refs i := by
  rw [refs_fill w s _ hq, refs_fill w' s _ hq']
  simp only [List.countP_singleton]

/-- The counter of an item is the number of its jobs, as far as it can count, and an
item that lost its last job is settled. -/
structure Accounted (w : World) (i : Nat) : Prop where
  count : (w.items i).nDlRefsCount = w.refs i % 2 ^ 32
  settled : (∃ e ∈ w.log, e.item = i ∧ e.mark = .attached) → w.refs i = 0 →
    .complete ≤ (w.items i).status

/-- Steps that neither count nor move the status of an item without jobs. -/
theorem Accounted.keep {w w' : World} {i : Nat} (h : Accounted w i) (hr : w'.refs i = w.refs i)
    (hl : (∃ e ∈ w'.log, e.item = i ∧ e.mark = .attached) →
      ∃ e ∈ w.log, e.item = i ∧ e.mark = .attached)
    (hc : (w'.items i).nDlRefsCount = (w.items i).nDlRefsCount)
    (hs : w.refs i = 0 → .complete ≤ (w.items i).status → .complete ≤ (w'.items i).status) :
    Accounted w' i := by
  refine ⟨by rw [hc, hr, h.count], ?_⟩
  intro ha h0
  rw [hr] at h0
  exact hs h0 (h.settled (hl ha) h0)

theorem setItem_items (w : World) (k i : Nat) (fi : FileItem) :
    (w.setItem k fi).items i = if i = k then fi else w.items i := by
  simp [setItem, Function.update_apply]

/-- A change of one item that keeps the counter, while its jobs stay. -/
theorem Accounted.setItem {w w' : World} {i k : Nat} (fi : FileItem) (h : Accounted w i)
    (hi : w'.items = (w.setItem k fi).items) (hr : w'.refs i = w.refs i)
    (hl : (∃ e ∈ w'.log, e.item = i ∧ e.mark = .attached) →
      ∃ e ∈ w.log, e.item = i ∧ e.mark = .attached)
    (hc : fi.nDlRefsCount = (w.items k).nDlRefsCount)
    (hs : w.refs k = 0 → .complete ≤ (w.items k).status → .complete ≤ fi.status) :
    Accounted w' i := by
  refine h.keep hr hl ?_ ?_
  · rw [hi, setItem_items]
    split
    · rename_i he
      rw [he, hc]
    · rfl
  · intro h0 hst
    rw [hi, setItem_items]
    split
    · rename_i he
      subst he
      exact hs h0 hst
    · exact hst

/-- A pass never logs a new reference. -/
theorem marks_not_attached (env : Env) (io : Io) (bOnly : Bool) (d : Dl) :
    .attached ∉ d.marks env io bOnly := by
  simp only [Dl.marks, List.mem_append]
  split <;> split <;> split <;> simp

theorem record_attached (w : World) (id k i : Nat) (ms : List Mark) (hm : .attached ∉ ms)
    (h : ∃ e ∈ (w.record id k ms).log, e.item = i ∧ e.mark = .attached) :
    ∃ e ∈ w.log, e.item = i ∧ e.mark = .attached := by
  obtain ⟨e, he, hi, ha⟩ := h
  rcases List.mem_append.mp he with he | he
  · exact ⟨e, he, hi, ha⟩
  · obtain ⟨m, hmem, rfl⟩ := List.mem_map.mp he
    simp only at ha
    rw [ha] at hmem
    exact absurd hmem hm

theorem create_accounted (w w' : World) (s : Spot) (i k : Nat) (job : DlJob)
    (hq : w.queues = s.fill [])
    (hq' : w'.queues = s.fill [⟨w.next, some k, job, .running⟩])
    (hi : w'.items = (w.setItem k (w.items k).dlRefCountAdd).items)
    (hl : w'.log = w.log ++ [⟨w.next, k, .attached⟩]) (h : Accounted w i) : Accounted w' i := by
  have hr : w'.refs i = w.refs i + if i = k then 1 else 0 := by
    rw [refs_fill w s _ hq, refs_fill w' s _ hq', List.countP_singleton, List.countP_nil]
    by_cases he : i = k
    · simp [he]
      omega
    · have hk : k ≠ i := fun h => he h.symm
      simp [he, hk]
  by_cases he : i = k
  · subst he
    rw [if_pos rfl] at hr
    refine ⟨?_, fun _ h0 => by omega⟩
    have hadd : (w.items i).dlRefCountAdd.nDlRefsCount = ((w.items i).nDlRefsCount + 1) % 2 ^ 32 := rfl
    rw [hi, setItem_items, if_pos rfl, hr, hadd, h.count]
    omega
  · rw [if_neg he] at hr
    refine h.keep (by omega) ?_ ?_ ?_
    · rintro ⟨e, hmem, hei, hem⟩
      rw [hl] at hmem
      rcases List.mem_append.mp hmem with hmem | hmem
      · exact ⟨e, hmem, hei, hem⟩
      · simp only [List.mem_singleton] at hmem
        rw [hmem] at hei
        exact absurd hei.symm he
    · rw [hi, setItem_items, if_neg he]
    · rw [hi, setItem_items, if_neg he]
      exact fun _ => id

/-- The last job of an item declares the error. -/
theorem dlRefCountDec_settled (fi : FileItem) (reason : RemoteStatus)
    (h : (fi.nDlRefsCount + (2 ^ 32 - 1)) % 2 ^ 32 = 0) :
    .complete ≤ (fi.dlRefCountDec reason).status := by
  unfold FileItem.dlRefCountDec
  simp only [h, gt_iff_lt, Nat.lt_irrefl, if_false]
  split
  · change FiStatus.complete ≤ .dlError
    decide
  · rename_i hs
    exact not_lt.mp hs

theorem dlRefCountDec_count (fi : FileItem) (reason : RemoteStatus) :
    (fi.dlRefCountDec reason).nDlRefsCount = (fi.nDlRefsCount + (2 ^ 32 - 1)) % 2 ^ 32 := by
  unfold FileItem.dlRefCountDec
  simp only
  split
  · rfl
  · split <;> rfl

theorem destroy_accounted (w : World) (s : Spot) (j : JobObj) (i : Nat) (hq : w.queues = s.fill [j])
    (h : Accounted w i) : Accounted { w.release j with queues := s.fill [] } i := by
  have hr : w.refs i = ({ w.release j with queues := s.fill [] } : World).refs i +
      if j.item = some i then 1 else 0 := by
    rw [refs_fill w s _ hq, refs_fill _ s [] rfl, List.countP_singleton, List.countP_nil]
    by_cases he : j.item = some i
    · simp [he]
      omega
    · simp [he]
  have hlog : ({ w.release j with queues := s.fill [] } : World).log = w.log := by
    simp only [release]
    split <;> rfl
  by_cases he : j.item = some i
  · rw [if_pos he] at hr
    have hitem : ({ w.release j with queues := s.fill [] } : World).items i =
        (PipeJob.release ⟨j.job, w.items i⟩).fi := by
      simp only [release, he, setItem_items, if_true]
    have hcount : ((w.items i).nDlRefsCount + (2 ^ 32 - 1)) % 2 ^ 32 =
        ({ w.release j with queues := s.fill [] } : World).refs i % 2 ^ 32 := by
      rw [h.count, hr]
      omega
    refine ⟨?_, ?_⟩
    · rw [hitem, PipeJob.release, dlRefCountDec_count, hcount]
    · intro _ h0
      rw [h0, Nat.zero_mod] at hcount
      have hset := dlRefCountDec_settled (w.items i)
        ⟨503, if j.job.sErrorMsg.isEmpty then lit "Download Expired" else j.job.sErrorMsg⟩ hcount
      rw [hitem]
      exact hset
  · rw [if_neg he] at hr
    have hitem : ({ w.release j with queues := s.fill [] } : World).items i = w.items i := by
      simp only [release]
      split
      · rfl
      · rename_i k hk
        rw [setItem_items, if_neg (fun hik => he (by rw [hk, hik]))]
    refine h.keep (by omega) (by rw [hlog]; exact id) (by rw [hitem]) ?_
    rw [hitem]
    exact fun _ => id

theorem step_accounted (env : Env) (own : Nat → Bool) (w w' : World) (i : Nat)
    (hs : Step env own w w') (h : Accounted w i) : Accounted w' i := by
  cases hs with
  | create s k job hq hj => exact create_accounted w _ s i k job hq rfl rfl rfl h
  | splice qs hq =>
    exact h.keep (hq.countP_eq _) id rfl (fun _ => id)
  | moveJob s j hq =>
    refine h.keep ?_ id rfl (fun _ => id)
    rw [refs_fill w s _ hq, refs_fill _ s _ rfl, List.countP_cons, List.countP_singleton,
      List.countP_singleton]
    simp
  | destroy s j hq => exact destroy_accounted w s j i hq h
  | incomming s j k buf io now bOnly hq hk hown hp ho =>
    have hpass := Dl.procStep_pass { env with now := now } io bOnly ⟨j.job, w.items k, buf⟩
    refine h.setItem _ rfl (refs_replace w _ s j _ _ hq rfl i)
      (record_attached _ _ _ _ _ (marks_not_attached _ _ _ _)) hpass.framed.refs ?_
    -- the job itself is one of the references
    intro h0
    rw [refs_fill w s _ hq, List.countP_singleton, hk] at h0
    simp at h0
  | connectionLost s j hq hp =>
    exact h.keep (refs_replace w _ s j _ _ hq rfl i) id rfl (fun _ => id)
  | reconnect s j hq hp =>
    exact h.keep (refs_replace w _ s j _ _ hq rfl i) id rfl (fun _ => id)
  | request s j k hq hk =>
    exact h.keep (refs_replace w _ s j _ _ hq rfl i) id rfl (fun _ => id)
  | configure s j backend msg hq =>
    exact h.keep (refs_replace w _ s j _ _ hq rfl i) id rfl (fun _ => id)
  | setup k hown =>
    refine h.setItem (w.items k).setup rfl rfl id (FileItem.setup_setUp _).refs ?_
    intro _ hst
    rw [FileItem.setup_begun _ (lt_of_lt_of_le (by decide) hst)]
    exact hst
  | setError k errState kmode =>
    refine h.setItem ((w.items k).dlSetError errState kmode) rfl rfl id rfl ?_
    intro _ _
    change FiStatus.complete ≤ .dlError
    decide
  | expire k =>
    refine h.setItem (w.items k).expire rfl rfl id rfl ?_
    intro _ hst
    simp only [FileItem.expire, if_neg (not_lt.mpr hst)]
    exact hst
  | foreign s j k job phase fi hq hk hown hc =>
    refine h.setItem fi rfl (refs_replace w _ s j _ _ hq rfl i) id hc ?_
    intro h0
    rw [refs_fill w s _ hq, List.countP_singleton, hk] at h0
    simp at h0

/-- Before any job is created. -/
structure Initial (w : World) : Prop where
  live : w.live = []
  log : w.log = []
  count : ∀ i, (w.items i).nDlRefsCount = 0

theorem reachable_accounted (env : Env) (own : Nat → Bool) (w0 w : World) (h0 : w0.Initial)
    (hr : Reachable env own w0 w) (i : Nat) : Accounted w i := by
  induction hr with
  | refl =>
    refine ⟨?_, ?_⟩
    · rw [h0.count, refs, h0.live]
      rfl
    · rintro ⟨e, he, -⟩
      rw [h0.log] at he
      cases he
  | tail _ hs ih => exact step_accounted env own _ _ i hs ih

/-- In every run the counter of an item is the number of its live jobs modulo the
range of the counter, so it is that number while it fits, and an item that ever had
a job and has none left is complete or failed. -/
theorem no_orphaned_waiters (env : Env) (own : Nat → Bool) (w0 w : World) (h0 : w0.Initial)
    (hr : Reachable env own w0 w) (i : Nat) :
    (w.items i).nDlRefsCount = w.refs i % 2 ^ 32 ∧
      (w.refs i < 2 ^ 32 → (w.items i).nDlRefsCount = w.refs i) ∧
      ((∃ e ∈ w.log, e.item = i ∧ e.mark = .attached) → w.refs i = 0 →
        .complete ≤ (w.items i).status) := by
  have h := reachable_accounted env own w0 w h0 hr i
  refine ⟨h.count, ?_, h.settled⟩
  intro hlt
  rw [h.count, Nat.mod_eq_of_lt hlt]

/-- One empty queue. -/
def idle : World := { items := fun _ => { status := .inited }, queues := [[]] }

theorem idle_initial : idle.Initial := ⟨rfl, rfl, fun _ => rfl⟩

def inFront (js : List JobObj) : Spot := ⟨[], [], js, []⟩

/-- One more job for the item 0. -/
def hire (w : World) (js : List JobObj) : World :=
  { w.setItem 0 (w.items 0).dlRefCountAdd with
    queues := (inFront js).fill
      [⟨w.next, some 0, .new plainEnv.cfg (w.items 0) {}, .running⟩]
    next := w.next + 1 }.record w.next 0 [.attached]

theorem hire_step (w : World) (js : List JobObj) (hq : w.queues = [js]) :
    Step plainEnv (fun _ => false) w (w.hire js) :=
  .create (inFront js) 0 _ hq (.inl ⟨{}, rfl⟩)

/-- A job that comes and goes leaves the item failed. -/
theorem waiter_released :
    ∃ w, Reachable plainEnv (fun _ => false) idle w ∧ w.refs 0 = 0 ∧
      .complete ≤ (w.items 0).status := by
  have hr : Reachable plainEnv (fun _ => false) idle
      { (idle.hire []).release ⟨0, some 0, .new plainEnv.cfg (idle.items 0) {}, .running⟩ with
        queues := (inFront []).fill [] } :=
    (Relation.ReflTransGen.single (hire_step idle [] rfl)).tail (.destroy (inFront []) _ rfl)
  refine ⟨_, hr, rfl, (no_orphaned_waiters plainEnv _ idle _ idle_initial hr 0).2.2 ?_ rfl⟩
  exact ⟨⟨0, 0, .attached⟩, by decide, rfl, rfl⟩

theorem exists_crowd (n : Nat) :
    ∃ w js, Reachable plainEnv (fun _ => false) idle w ∧ w.queues = [js] ∧ w.refs 0 = n := by
  induction n with
  | zero => exact ⟨idle, [], .refl, rfl, rfl⟩
  | succ n ih =>
    obtain ⟨w, js, hr, hq, hn⟩ := ih
    refine ⟨w.hire js, _, hr.tail (hire_step w js hq), rfl, ?_⟩
    have hw := refs_fill w (inFront js) [] hq 0
    rw [refs_fill (w.hire js) (inFront js) _ rfl, List.countP_singleton]
    rw [List.countP_nil, hn] at hw
    simp only [beq_self_eq_true, if_true]
    omega

/-- With as many jobs on one item as the counter has values it reads zero again. -/
theorem counter_wraps :
    ∃ w, Reachable plainEnv (fun _ => false) idle w ∧ idle.Initial ∧ w.refs 0 = 2 ^ 32 ∧
      (w.items 0).nDlRefsCount ≠ w.refs 0 := by
  obtain ⟨w, js, hr, -, hn⟩ := exists_crowd (2 ^ 32)
  refine ⟨w, hr, idle_initial, hn, ?_⟩
  rw [(reachable_accounted plainEnv _ idle w idle_initial hr 0).count, hn]
  decide

end World

end Acng
