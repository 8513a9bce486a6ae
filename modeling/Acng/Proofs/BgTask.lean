import Acng.BgTask
import Acng.Proofs.Decimal

namespace Acng
open Lib

namespace TaskStage

/-- The id of the task that a request is the log source of. -/
def source : TaskStage → Option Int
  | .registered id | .working id => some id
  | _ => none

/-- The id of the task whose log is being shown. -/
def follows : TaskStage → Option Int
  | .attaching id | .reading id | .waiting id => some id
  | _ => none

/-- The worker part has begun, or is over. -/
def begun : TaskStage → Bool
  | .working _ | .finished _ | .ended => true
  | _ => false

def isReading : TaskStage → Bool
  | .reading _ => true
  | _ => false

end TaskStage

namespace BgTasks

@[simp] theorem set_reqs_self (s : BgTasks) (i : Nat) (r : TaskRequest) : (s.set i r).reqs i = r := by
  simp [set]

theorem set_reqs_of_ne (s : BgTasks) {i k : Nat} (r : TaskRequest) (hk : k ≠ i) :
    (s.set i r).reqs k = s.reqs k := by
  simp [set, hk]

/-- What the steps do, each with what it needs. -/
inductive Does (s : BgTasks) : TaskAct → BgTasks → Prop
  | tick (now : Int) (hnow : s.now ≤ now) : Does s (.tick now) { s with now := now }
  | shutdown : Does s .shutdown { s with in_shutdown := true }
  | sigabort (i : Nat) (hst : (s.reqs i).stage = .asked) (hfree : s.lock = none) :
    Does s (.sigabort i) { s.setStage i .ended with g_sigTaskAbort := true }
  | register (i : Nat) (hst : (s.reqs i).stage = .asked) (hfree : s.lock = none) (hno : s.nBgTimestamp = 0) :
    Does s (.register i true) { s.setStage i (.registered s.now) with
      nBgTimestamp := s.now, started := s.now :: s.started
      logs := Function.update s.logs s.now LOG_DECO_START }
  | noLog (i : Nat) (hst : (s.reqs i).stage = .asked) (hfree : s.lock = none) :
    Does s (.register i false) (s.setStage i .ended)
  | follow (i : Nat) (opened : Bool) (hst : (s.reqs i).stage = .asked) (hfree : s.lock = none)
    (hother : s.nBgTimestamp ≠ 0) : Does s (.register i opened)
      (s.set i { s.reqs i with stage := .attaching s.nBgTimestamp, other_id := some s.nBgTimestamp })
  | begin (i : Nat) (id : Int) (hst : (s.reqs i).stage = .registered id) (hfree : s.lock = none) :
    Does s (.begin i) { s.setStage i (.working id) with g_sigTaskAbort := false }
  | report (i : Nat) (data : Bytes) (id : Int) (hst : (s.reqs i).stage = .working id) :
    Does s (.report i data) (s.append id data)
  | finish (i : Nat) (id : Int) (hst : (s.reqs i).stage = .working id) (hfree : s.lock = none) :
    Does s (.finish i) { s.setStage i (.finished id) with nBgTimestamp := 0 }
  | destruct (i : Nat) (id : Int) (hst : (s.reqs i).stage = .finished id) :
    Does s (.destruct i) ((s.setStage i .ended).append id LOG_DECO_END)
  | gone (i : Nat) (opened : Bool) (id : Int) (hst : (s.reqs i).stage = .attaching id)
    (hfree : s.lock = none) (hid : s.nBgTimestamp ≠ id) :
    Does s (.attach i opened) (s.set i { s.reqs i with stage := .ended, toldEnd := true })
  | attach (i : Nat) (id : Int) (hst : (s.reqs i).stage = .attaching id) (hfree : s.lock = none) :
    Does s (.attach i true) { s.setStage i (.reading id) with lock := some i }
  | noAttach (i : Nat) (id : Int) (hst : (s.reqs i).stage = .attaching id) :
    Does s (.attach i false) (s.setStage i .ended)
  | readError (i : Nat) (id : Int) (hst : (s.reqs i).stage = .reading id) :
    Does s (.read i none) { s.setStage i .ended with lock := none }
  | readAll (i : Nat) (id : Int) (hst : (s.reqs i).stage = .reading id)
    (hall : (s.logs id).length ≤ (s.reqs i).shown.length) :
    Does s (.read i (some 0)) { s.setStage i (.waiting id) with lock := none }
  | read (i n : Nat) (id : Int) (hst : (s.reqs i).stage = .reading id) :
    Does s (.read i (some n)) (s.set i { s.reqs i with
      shown := (s.reqs i).shown ++ ((s.logs id).drop (s.reqs i).shown.length).take n })
  | wakeOver (i : Nat) (id : Int) (hst : (s.reqs i).stage = .waiting id) (hfree : s.lock = none)
    (hno : s.nBgTimestamp = 0) :
    Does s (.wake i) (s.set i { s.reqs i with stage := .ended, toldEnd := true })
  | wake (i : Nat) (id : Int) (hst : (s.reqs i).stage = .waiting id) (hfree : s.lock = none) :
    Does s (.wake i) { s.setStage i (.reading id) with lock := some i }

theorem does_of_step {s t : BgTasks} {a : TaskAct} (h : s.step a = some t) : Does s a t := by
  have hlock : s.free = true ↔ s.lock = none := by simp [free]
  cases a with
  | tick now =>
    simp only [step] at h
    split at h
    · cases h
    · rename_i hnow
      cases h
      exact .tick now (not_lt.mp hnow)
  | shutdown =>
    cases h
    exact .shutdown
  | sigabort i =>
    simp only [step] at h
    split at h
    · rename_i hc
      simp only [Bool.and_eq_true, decide_eq_true_eq, hlock] at hc
      cases h
      exact .sigabort i hc.1.1 hc.2
    · cases h
  | register i opened =>
    simp only [step] at h
    split at h
    · rename_i hc
      simp only [Bool.and_eq_true, decide_eq_true_eq, hlock] at hc
      split at h
      · cases opened with
        | true =>
          cases h
          exact .register i hc.1.1 hc.2 ‹_›
        | false =>
          cases h
          exact .noLog i hc.1.1 hc.2
      · cases h
        exact .follow i opened hc.1.1 hc.2 ‹_›
    · cases h
  | begin i =>
    simp only [step] at h
    split at h
    · split at h
      · cases h
        exact .begin i _ ‹_› (hlock.mp ‹_›)
      · cases h
    · cases h
  | report i data =>
    simp only [step] at h
    split at h
    · cases h
      exact .report i data _ ‹_›
    · cases h
  | finish i =>
    simp only [step] at h
    split at h
    · split at h
      · cases h
        exact .finish i _ ‹_› (hlock.mp ‹_›)
      · cases h
    · cases h
  | destruct i =>
    simp only [step] at h
    split at h
    · cases h
      exact .destruct i _ ‹_›
    · cases h
  | attach i opened =>
    simp only [step] at h
    split at h
    · split at h
      · cases h
      · rename_i hst hfree
        simp only [Bool.not_eq_true, Bool.not_eq_false', hlock] at hfree
        split at h
        · cases h
          exact .gone i opened _ hst hfree (Ne.symm ‹_›)
        · split at h
          · rename_i hopened
            subst hopened
            cases h
            exact .attach i _ hst hfree
          · rename_i hopened
            rw [Bool.not_eq_true] at hopened
            subst hopened
            cases h
            exact .noAttach i _ hst
    · cases h
  | read i n =>
    simp only [step] at h
    split at h
    · split at h
      · cases h
        exact .readError i _ ‹_›
      · split at h
        · rename_i hzero
          subst hzero
          split at h
          · rename_i hall
            cases h
            exact .readAll i _ ‹_› (by simpa using hall)
          · cases h
        · split at h
          · cases h
          · cases h
            exact .read i _ _ ‹_›
    · cases h
  | wake i =>
    simp only [step] at h
    split at h
    · split at h
      · cases h
      · rename_i hst hfree
        simp only [Bool.not_eq_true, Bool.not_eq_false', hlock] at hfree
        split at h
        · cases h
          exact .wakeOver i _ hst hfree ‹_›
        · cases h
          exact .wake i _ hst hfree
    · cases h

/-- Who is what. -/
structure Sound (s : BgTasks) : Prop where
  lock : ∀ i, s.lock = some i ↔ (s.reqs i).stage.isReading = true
  source : ∀ i id, (s.reqs i).stage.source = some id → s.nBgTimestamp = id ∧ 0 < id
  one : ∀ i j id id', (s.reqs i).stage.source = some id → (s.reqs j).stage.source = some id' → i = j
  running : s.nBgTimestamp ≠ 0 → ∃ i, (s.reqs i).stage.source = some s.nBgTimestamp
  current : s.nBgTimestamp ≠ 0 → s.nBgTimestamp ∈ s.started
  follows : ∀ i id, (s.reqs i).stage.follows = some id → (s.reqs i).other_id = some id
  known : ∀ i id, (s.reqs i).other_id = some id → id ∈ s.started
  ids : ∀ id ∈ s.started, 0 < id
  clock : 0 < s.now

section Step

variable {s t : BgTasks} {a : TaskAct}

/-- One request goes on, and is still what it was to the others. -/
theorem Sound.move (h : s.Sound) {i : Nat} {r : TaskRequest} {st : TaskStage} (hst : (s.reqs i).stage = st)
    (hreqs : t.reqs = Function.update s.reqs i r)
    (hsame : t.nBgTimestamp = s.nBgTimestamp ∧ t.started = s.started ∧ t.now = s.now)
    (hsource : r.stage.source = st.source) (hother : r.other_id = (s.reqs i).other_id)
    (hfollows : r.stage.follows = none ∨ r.stage.follows = st.follows)
    (hlock : ∀ k, t.lock = some k ↔ (Function.update s.reqs i r k).stage.isReading = true) : t.Sound := by
  obtain ⟨hstamp, hstarted, hclock⟩ := hsame
  have hsrc : ∀ k, (t.reqs k).stage.source = (s.reqs k).stage.source := by
    intro k
    rw [hreqs]
    by_cases hk : k = i
    · rw [hk, Function.update_self, hsource, hst]
    · rw [Function.update_of_ne hk]
  have hoth : ∀ k, (t.reqs k).other_id = (s.reqs k).other_id := by
    intro k
    rw [hreqs]
    by_cases hk : k = i
    · rw [hk, Function.update_self, hother]
    · rw [Function.update_of_ne hk]
  have hfol : ∀ k id, (t.reqs k).stage.follows = some id → (s.reqs k).stage.follows = some id := by
    intro k id
    rw [hreqs]
    by_cases hk : k = i
    · rw [hk, Function.update_self, hst]
      rcases hfollows with hn | he
      · rw [hn]
        exact nofun
      · rw [he]
        exact fun hf => hf
    · rw [Function.update_of_ne hk]
      exact fun hf => hf
  refine ⟨?_, ?_, ?_, ?_, ?_, ?_, ?_, hstarted ▸ h.ids, hclock ▸ h.clock⟩
  · intro k
    rw [hreqs]
    exact hlock k
  · intro k id
    rw [hsrc, hstamp]
    exact h.source k id
  · intro k j id id'
    rw [hsrc, hsrc]
    exact h.one k j id id'
  · rw [hstamp]
    intro hn
    obtain ⟨k, hk⟩ := h.running hn
    exact ⟨k, (hsrc k).trans hk⟩
  · rw [hstamp, hstarted]
    exact h.current
  · intro k id hf
    rw [hoth]
    exact h.follows k id (hfol k id hf)
  · intro k id
    rw [hoth, hstarted]
    exact h.known k id

/-- A request that gets nowhere near the lock. -/
theorem Sound.lock_same (h : s.Sound) {i : Nat} {r : TaskRequest} {st : TaskStage}
    (hst : (s.reqs i).stage = st) (hr : r.stage.isReading = st.isReading) (k : Nat) :
    s.lock = some k ↔ (Function.update s.reqs i r k).stage.isReading = true := by
  rw [h.lock k]
  by_cases hk : k = i
  · rw [hk, Function.update_self, hr, hst]
  · rw [Function.update_of_ne hk]

theorem Sound.lock_taken (h : s.Sound) (hfree : s.lock = none) {i : Nat} {r : TaskRequest}
    (hr : r.stage.isReading = true) (k : Nat) :
    some i = some k ↔ (Function.update s.reqs i r k).stage.isReading = true := by
  by_cases hk : k = i
  · simp [hk, hr]
  · have hno := (h.lock k).not.mp (by simp [hfree])
    simp [Function.update_of_ne hk, hno, Ne.symm hk]

theorem Sound.lock_given (h : s.Sound) {i : Nat} {r : TaskRequest} {id : Int}
    (hst : (s.reqs i).stage = .reading id) (hr : r.stage.isReading = false) (k : Nat) :
    none = some k ↔ (Function.update s.reqs i r k).stage.isReading = true := by
  by_cases hk : k = i
  · simp [hk, hr]
  · have hlock := (h.lock i).mpr (hst ▸ rfl)
    have hno := (h.lock k).not.mp (by simp [hlock, Ne.symm hk])
    simp [Function.update_of_ne hk, hno]

/-- A new log source, where there is none. -/
theorem Sound.register (h : s.Sound) {i : Nat} (hst : (s.reqs i).stage = .asked) (hno : s.nBgTimestamp = 0)
    (logs : Int → Bytes) : Sound { s.setStage i (.registered s.now) with
      nBgTimestamp := s.now, started := s.now :: s.started, logs := logs } := by
  have hnone : ∀ k id, (s.reqs k).stage.source ≠ some id := by
    intro k id hs
    have := h.source k id hs
    omega
  have hsource : ∀ k id, (Function.update s.reqs i { s.reqs i with stage := .registered s.now } k).stage.source =
      some id → k = i ∧ id = s.now := by
    intro k id hs
    by_cases hk : k = i
    · rw [hk, Function.update_self] at hs
      exact ⟨hk, (Option.some.inj hs).symm⟩
    · rw [Function.update_of_ne hk] at hs
      exact absurd hs (hnone k id)
  refine ⟨h.lock_same hst rfl, fun k id hs => ?_, fun k j id id' hs hs' => ?_, fun _ => ⟨i, ?_⟩,
    fun _ => List.mem_cons_self, fun k id hf => ?_, fun k id ho => List.mem_cons_of_mem _ ?_,
    List.forall_mem_cons.mpr ⟨h.clock, h.ids⟩, h.clock⟩
  · obtain ⟨-, rfl⟩ := hsource k id hs
    exact ⟨rfl, h.clock⟩
  · exact (hsource k id hs).1.trans (hsource j id' hs').1.symm
  · exact congrArg (fun r => r.stage.source) (Function.update_self i _ s.reqs)
  · change (Function.update s.reqs i { s.reqs i with stage := .registered s.now } k).stage.follows = some id at hf
    change (Function.update s.reqs i { s.reqs i with stage := .registered s.now } k).other_id = some id
    by_cases hk : k = i
    · rw [hk, Function.update_self] at hf
      cases hf
    · rw [Function.update_of_ne hk] at hf ⊢
      exact h.follows k id hf
  · change (Function.update s.reqs i { s.reqs i with stage := .registered s.now } k).other_id = some id at ho
    by_cases hk : k = i
    · rw [hk, Function.update_self] at ho
      exact h.known i id ho
    · rw [Function.update_of_ne hk] at ho
      exact h.known k id ho

/-- A request that comes while there is a log source. -/
theorem Sound.follow (h : s.Sound) {i : Nat} (hst : (s.reqs i).stage = .asked) (hother : s.nBgTimestamp ≠ 0) :
    (s.set i { s.reqs i with stage := .attaching s.nBgTimestamp, other_id := some s.nBgTimestamp }).Sound := by
  have hsame : ∀ k, ((s.set i { s.reqs i with
      stage := .attaching s.nBgTimestamp, other_id := some s.nBgTimestamp }).reqs k).stage.source =
        (s.reqs k).stage.source := by
    intro k
    by_cases hk : k = i
    · rw [hk, set_reqs_self, hst]
      rfl
    · rw [set_reqs_of_ne s _ hk]
  refine ⟨h.lock_same hst rfl, fun k id hs => h.source k id (hsame k ▸ hs),
    fun k j id id' hs hs' => h.one k j id id' (hsame k ▸ hs) (hsame j ▸ hs'), fun hn => ?_, h.current,
    fun k id hf => ?_, fun k id ho => ?_, h.ids, h.clock⟩
  · obtain ⟨k, hk⟩ := h.running hn
    exact ⟨k, (hsame k).trans hk⟩
  · by_cases hk : k = i
    · rw [hk, set_reqs_self] at hf ⊢
      exact hf
    · rw [set_reqs_of_ne s _ hk] at hf ⊢
      exact h.follows k id hf
  · by_cases hk : k = i
    · rw [hk, set_reqs_self] at ho
      cases ho
      exact h.current hother
    · rw [set_reqs_of_ne s _ hk] at ho
      exact h.known k id ho

/-- The log source ends. -/
theorem Sound.finish (h : s.Sound) {i : Nat} {id : Int} (hst : (s.reqs i).stage = .working id) :
    Sound { s.setStage i (.finished id) with nBgTimestamp := 0 } := by
  have hi : (s.reqs i).stage.source = some id := by
    rw [hst]
    rfl
  have hnone : ∀ k id', (Function.update s.reqs i { s.reqs i with stage := .finished id } k).stage.source ≠
      some id' := by
    intro k id' hs
    by_cases hk : k = i
    · rw [hk, Function.update_self] at hs
      cases hs
    · rw [Function.update_of_ne hk] at hs
      exact hk (h.one k i id' id hs hi)
  refine ⟨h.lock_same hst rfl, fun k id' hs => absurd hs (hnone k id'),
    fun k j id' _ hs => absurd hs (hnone k id'), fun hn => absurd rfl hn, fun hn => absurd rfl hn,
    fun k id' hf => ?_, fun k id' ho => ?_, h.ids, h.clock⟩
  · change (Function.update s.reqs i { s.reqs i with stage := .finished id } k).stage.follows = some id' at hf
    change (Function.update s.reqs i { s.reqs i with stage := .finished id } k).other_id = some id'
    by_cases hk : k = i
    · rw [hk, Function.update_self] at hf
      cases hf
    · rw [Function.update_of_ne hk] at hf ⊢
      exact h.follows k id' hf
  · change (Function.update s.reqs i { s.reqs i with stage := .finished id } k).other_id = some id' at ho
    by_cases hk : k = i
    · rw [hk, Function.update_self] at ho
      exact h.known i id' ho
    · rw [Function.update_of_ne hk] at ho
      exact h.known k id' ho

theorem Sound.step (h : s.Sound) (hstep : s.step a = some t) : t.Sound := by
  cases does_of_step hstep with
  | tick now hnow => exact { h with clock := lt_of_lt_of_le h.clock hnow }
  | shutdown => exact { h with }
  | sigabort i hst hfree => exact h.move hst rfl ⟨rfl, rfl, rfl⟩ rfl rfl (.inl rfl) (h.lock_same hst rfl)
  | register i hst hfree hno => exact h.register hst hno _
  | noLog i hst hfree => exact h.move hst rfl ⟨rfl, rfl, rfl⟩ rfl rfl (.inl rfl) (h.lock_same hst rfl)
  | follow i opened hst hfree hother => exact h.follow hst hother
  | begin i id hst hfree => exact h.move hst rfl ⟨rfl, rfl, rfl⟩ rfl rfl (.inl rfl) (h.lock_same hst rfl)
  | report i data id hst => exact { h with }
  | finish i id hst hfree => exact h.finish hst
  | destruct i id hst => exact h.move hst rfl ⟨rfl, rfl, rfl⟩ rfl rfl (.inl rfl) (h.lock_same hst rfl)
  | gone i opened id hst hfree hid => exact h.move hst rfl ⟨rfl, rfl, rfl⟩ rfl rfl (.inl rfl) (h.lock_same hst rfl)
  | attach i id hst hfree => exact h.move hst rfl ⟨rfl, rfl, rfl⟩ rfl rfl (.inr rfl) (h.lock_taken hfree rfl)
  | noAttach i id hst => exact h.move hst rfl ⟨rfl, rfl, rfl⟩ rfl rfl (.inl rfl) (h.lock_same hst rfl)
  | readError i id hst => exact h.move hst rfl ⟨rfl, rfl, rfl⟩ rfl rfl (.inl rfl) (h.lock_given hst rfl)
  | readAll i id hst hall => exact h.move hst rfl ⟨rfl, rfl, rfl⟩ rfl rfl (.inr rfl) (h.lock_given hst rfl)
  | read i n id hst =>
    refine h.move hst rfl ⟨rfl, rfl, rfl⟩ ?_ rfl (.inr ?_) (h.lock_same hst ?_)
    all_goals rw [← hst]
  | wakeOver i id hst hfree hno => exact h.move hst rfl ⟨rfl, rfl, rfl⟩ rfl rfl (.inl rfl) (h.lock_same hst rfl)
  | wake i id hst hfree => exact h.move hst rfl ⟨rfl, rfl, rfl⟩ rfl rfl (.inr rfl) (h.lock_taken hfree rfl)

theorem runs_sound {now : Int} {cmds : Nat → Bytes} {acts : List TaskAct} (hnow : 0 < now)
    (h : run (start now cmds) acts = some s) : s.Sound := by
  refine runs_induct (motive := fun _ s => Sound s) ?_ (fun _ _ _ _ _ hm hstep => hm.step hstep) h
  refine ⟨fun i => ?_, fun i id hs => ?_, fun i j id id' hs => ?_, fun hn => absurd rfl hn,
    fun hn => absurd rfl hn, fun i id hf => ?_, fun i id ho => ?_, nofun, hnow⟩
  · exact iff_of_false nofun nofun
  · cases hs
  · cases hs
  · cases hf
  · cases ho

/-- What a client was shown is the beginning of the log that it follows, and it is told that this is the
end when the task is over. -/
structure Fits (s : BgTasks) (r : TaskRequest) : Prop where
  asked : r.stage = .asked → r.other_id = none
  alone : r.other_id = none → r.shown = [] ∧ r.toldEnd = false
  shown : ∀ id, r.other_id = some id → r.shown <+: s.logs id
  told : ∀ id, r.other_id = some id → r.toldEnd = true → s.nBgTimestamp ≠ id

/-- One request changes, the logs that are followed grow, and no task that is over comes back. -/
theorem Sound.fits (h : s.Sound) (hall : ∀ k, s.Fits (s.reqs k)) {i k : Nat} {r : TaskRequest}
    (hreqs : t.reqs = Function.update s.reqs i r) (hr : t.Fits r)
    (hlogs : ∀ id ∈ s.started, s.logs id <+: t.logs id)
    (hstamp : ∀ id ∈ s.started, s.nBgTimestamp ≠ id → t.nBgTimestamp ≠ id) :
    t.Fits (t.reqs k) := by
  rw [hreqs]
  by_cases hk : k = i
  · rw [hk, Function.update_self]
    exact hr
  · rw [Function.update_of_ne hk]
    obtain ⟨h1, h2, h3, h4⟩ := hall k
    exact ⟨h1, h2, fun id ho => (h3 id ho).trans (hlogs id (h.known k id ho)),
      fun id ho ht => hstamp id (h.known k id ho) (h4 id ho ht)⟩

/-- A request goes on, and its client is shown nothing by that. -/
theorem Sound.fits_stage (h : s.Sound) (hall : ∀ k, s.Fits (s.reqs k)) {i k : Nat} {st : TaskStage}
    (hreqs : t.reqs = Function.update s.reqs i { s.reqs i with stage := st }) (hst : st ≠ .asked)
    (hlogs : ∀ id ∈ s.started, s.logs id <+: t.logs id)
    (hstamp : ∀ id ∈ s.started, s.nBgTimestamp ≠ id → t.nBgTimestamp ≠ id) :
    t.Fits (t.reqs k) := by
  obtain ⟨-, h2, h3, h4⟩ := hall i
  refine h.fits hall hreqs ⟨fun ha => absurd ha hst, h2, ?_, ?_⟩ hlogs hstamp
  · exact fun id ho => (h3 id ho).trans (hlogs id (h.known i id ho))
  · exact fun id ho ht => hstamp id (h.known i id ho) (h4 id ho ht)

theorem append_grows (s : BgTasks) (id : Int) (data : Bytes) (id' : Int) :
    s.logs id' <+: (s.append id data).logs id' := by
  by_cases hid : id' = id
  · simp [append, hid]
  · simp [append, hid]

/-- The step lemma of what the clients are shown, as long as no two tasks start in the same second. -/
theorem Fits.step (h : s.Sound) (hstep : s.step a = some t) (hnodup : t.started.Nodup)
    (hall : s.started.Nodup → ∀ k, s.Fits (s.reqs k)) (k : Nat) : t.Fits (t.reqs k) := by
  have hsame : ∀ id ∈ s.started, s.logs id <+: s.logs id := fun _ _ => List.prefix_refl _
  have hstay : ∀ id ∈ s.started, s.nBgTimestamp ≠ id → s.nBgTimestamp ≠ id := fun _ _ hn => hn
  cases does_of_step hstep with
  | tick now hnow => exact { hall hnodup k with }
  | shutdown => exact { hall hnodup k with }
  | sigabort i hst hfree => exact h.fits_stage (hall hnodup) rfl nofun hsame hstay
  | noLog i hst hfree => exact h.fits_stage (hall hnodup) rfl nofun hsame hstay
  | begin i id hst hfree => exact h.fits_stage (hall hnodup) rfl nofun hsame hstay
  | attach i id hst hfree => exact h.fits_stage (hall hnodup) rfl nofun hsame hstay
  | noAttach i id hst => exact h.fits_stage (hall hnodup) rfl nofun hsame hstay
  | readError i id hst => exact h.fits_stage (hall hnodup) rfl nofun hsame hstay
  | readAll i id hst hend => exact h.fits_stage (hall hnodup) rfl nofun hsame hstay
  | wake i id hst hfree => exact h.fits_stage (hall hnodup) rfl nofun hsame hstay
  | destruct i id hst =>
    exact h.fits_stage (hall hnodup) rfl nofun (fun id' _ => append_grows s id _ id') hstay
  | report i data id hst =>
    obtain ⟨h1, h2, h3, h4⟩ := hall hnodup k
    exact ⟨h1, h2, fun id' ho => (h3 id' ho).trans (append_grows s id data id'), h4⟩
  | finish i id hst hfree =>
    refine h.fits_stage (hall hnodup) rfl nofun hsame (fun id' hid _ => ?_)
    exact (h.ids id' hid).ne
  | register i hst hfree hno =>
    -- the log of a new task is not one that is followed
    obtain ⟨hnew, hold⟩ := List.nodup_cons.mp hnodup
    have hother : ∀ id ∈ s.started, id ≠ s.now := fun id hid he => hnew (he ▸ hid)
    refine h.fits_stage (hall hold) rfl nofun (fun id hid => ?_) (fun id hid _ => (hother id hid).symm)
    have hlog : Function.update s.logs s.now LOG_DECO_START id = s.logs id := Function.update_of_ne (hother id hid) _ _
    exact ⟨[], (List.append_nil _).trans hlog.symm⟩
  | follow i opened hst hfree hother =>
    obtain ⟨h1, h2, -, -⟩ := hall hnodup i
    obtain ⟨hshown, htold⟩ := h2 (h1 hst)
    refine h.fits (hall hnodup) rfl ⟨nofun, nofun, fun id _ => ?_, fun id _ ht => ?_⟩ hsame hstay
    · rw [hshown]
      exact List.nil_prefix
    · rw [htold] at ht
      cases ht
  | gone i opened id hst hfree hid =>
    obtain ⟨-, h2, h3, -⟩ := hall hnodup i
    have ho := h.follows i id (hst ▸ rfl)
    refine h.fits (hall hnodup) rfl ⟨nofun, fun hn => ?_, h3, fun id' ho' _ => ?_⟩ hsame hstay
    · rw [hn] at ho
      cases ho
    · obtain rfl := Option.some.inj (ho.symm.trans ho')
      exact hid
  | wakeOver i id hst hfree hno =>
    obtain ⟨-, h2, h3, -⟩ := hall hnodup i
    have ho := h.follows i id (hst ▸ rfl)
    refine h.fits (hall hnodup) rfl ⟨nofun, fun hn => ?_, h3, fun id' ho' _ => ?_⟩ hsame hstay
    · rw [hn] at ho
      cases ho
    · change s.nBgTimestamp ≠ id'
      rw [hno]
      exact (h.ids id' (h.known i id' ho')).ne
  | read i n id hst =>
    obtain ⟨-, h2, h3, h4⟩ := hall hnodup i
    have ho := h.follows i id (hst ▸ rfl)
    refine h.fits (hall hnodup) rfl ⟨fun ha => ?_, fun hn => ?_, fun id' ho' => ?_, h4⟩ hsame hstay
    · cases hst.symm.trans ha
    · cases ho.symm.trans hn
    · obtain rfl := Option.some.inj (ho.symm.trans ho')
      obtain ⟨more, hmore⟩ := h3 id ho
      change (s.reqs i).shown ++ ((s.logs id).drop (s.reqs i).shown.length).take n <+: s.logs id
      rw [← hmore, List.drop_left, List.prefix_append_right_inj]
      exact List.take_prefix n more

/-- A request that has begun its work stays behind that, and does not begin again. -/
theorem Does.begun (hd : Does s a t) {i : Nat} (hi : (s.reqs i).stage.begun = true) :
    (t.reqs i).stage.begun = true ∧ ∀ id, (t.reqs i).stage = .working id → (s.reqs i).stage = .working id := by
  have hother : ∀ {k r}, (s.reqs k).stage.begun = false → (Function.update s.reqs k r i) = s.reqs i := by
    intro k r hk
    refine Function.update_of_ne (fun hik => ?_) _ _
    rw [hik, hk] at hi
    cases hi
  cases hd with
  | tick | shutdown | report => exact ⟨hi, fun _ hw => hw⟩
  | finish k id hst =>
    by_cases hk : i = k
    · subst hk
      simp [setStage, set, TaskStage.begun]
    · simp [setStage, set, hk, hi]
  | destruct k id hst =>
    by_cases hk : i = k
    · subst hk
      simp [setStage, set, append, TaskStage.begun]
    · simp [setStage, set, append, hk, hi]
  | sigabort k hst | register k hst | noLog k hst | follow k _ hst | begin k _ hst | gone k _ _ hst
    | attach k _ hst | noAttach k _ hst | readError k _ hst | readAll k _ hst | read k _ _ hst
    | wakeOver k _ hst | wake k _ hst =>
    have hk : (s.reqs k).stage.begun = false := by
      rw [hst]
      rfl
    simp only [setStage, set, hother hk]
    exact ⟨hi, fun _ hw => hw⟩

/-- The flag changes by an abort request and by the beginning of work. -/
theorem Does.flag (hd : Does s a t) (hno : ∀ i, a ≠ .begin i) :
    t.g_sigTaskAbort = true ↔ (∃ j, a = .sigabort j) ∨ s.g_sigTaskAbort = true := by
  cases hd with
  | sigabort i => simp
  | begin i => exact absurd rfl (hno i)
  | _ => simp [setStage, set, append]

end Step

theorem find_isSome_iff {pat s : Bytes} (hne : pat ≠ []) : (find pat s).isSome = true ↔ pat <:+: s := by
  constructor
  · intro h
    obtain ⟨p, hp⟩ := Option.isSome_iff_exists.mp h
    exact ( find_prefix hp).isInfix.trans (List.drop_suffix p s).isInfix
  · intro h
    by_contra hno
    exact find_none hne (by simpa using hno) h

/-- Of the two links to cancel a task, the one on the page of the task itself is no abort request. -/
theorem cancelLinks {cmd : Bytes} (h : isAbortRequest cmd = false) (rand : Nat) :
    isAbortRequest (ownCancelLink cmd rand) = false ∧ isAbortRequest (otherCancelLink cmd rand) = true := by
  have hne : lit "&sigabort" ≠ [] := by decide
  constructor
  · have hbase : find (lit "&sigabort") (getBaseUrl cmd) = none := by
      rw [← Option.not_isSome_iff_eq_none, find_isSome_iff hne]
      intro hin
      have hcmd := hin.trans (List.takeWhile_prefix (· != 63) (l := cmd)).isInfix
      rw [← find_isSome_iff hne] at hcmd
      exact absurd hcmd (by simpa [isAbortRequest] using h)
    have hrest : find (lit "&sigabort") (lit "sigabort=" ++ decDigits rand) = none := by
      rw [← Option.not_isSome_iff_eq_none, find_isSome_iff hne]
      intro hin
      have hamp : (38 : UInt8) ∈ lit "sigabort=" ++ decDigits rand := hin.subset (by decide)
      rcases List.mem_append.mp hamp with hamp | hamp
      · exact absurd hamp (by decide)
      · rw [decDigits_eq_dec] at hamp
        exact absurd (dec_digits rand 38 hamp) (by decide)
    rw [isAbortRequest, ownCancelLink, show getBaseUrl cmd ++ lit "?sigabort=" ++ decDigits rand =
      getBaseUrl cmd ++ 63 :: (lit "sigabort=" ++ decDigits rand) by simp [lit]]
    rw [find_sep (by decide) hne, hbase, hrest]
    rfl
  · rw [isAbortRequest, find_isSome_iff hne, otherCancelLink]
    exact ⟨cmd, lit "=" ++ decDigits rand, by simp [lit]⟩

/-- The running task is told to stop by exactly the abort requests that came since its work began, those
that come between its registration and that are lost. The link to cancel it on its own page is none. -/
theorem abort_heard {now : Int} {cmds : Nat → Bytes} {pre post : List TaskAct} {i : Nat} {s : BgTasks}
    {id : Int} (hnow : 0 < now) (h : run (start now cmds) (pre ++ .begin i :: post) = some s)
    (hwork : (s.reqs i).stage = .working id) :
    (s.g_sigTaskAbort = true ↔ ∃ j, .sigabort j ∈ post) ∧
      ∀ cmd rand, isAbortRequest cmd = false → isAbortRequest (ownCancelLink cmd rand) = false ∧
        isAbortRequest (otherCancelLink cmd rand) = true := by
  obtain ⟨m, hm, hrest⟩ := runs_split.mp h
  obtain ⟨b, hb, hpost⟩ := runs_cons.mp hrest
  have hsound : b.Sound := (runs_sound hnow hm).step hb
  have hbegin : (b.reqs i).stage.begun = true ∧ b.g_sigTaskAbort = false := by
    cases does_of_step hb with
    | begin _ id' hst hfree => exact ⟨by simp [setStage, set, TaskStage.begun], rfl⟩
  have hinv : s.Sound ∧ (s.reqs i).stage.begun = true ∧
      ∀ id, (s.reqs i).stage = .working id → (s.g_sigTaskAbort = true ↔ ∃ j, .sigabort j ∈ post) := by
    refine runs_induct (motive := fun as s => s.Sound ∧ (s.reqs i).stage.begun = true ∧
      ∀ id, (s.reqs i).stage = .working id → (s.g_sigTaskAbort = true ↔ ∃ j, .sigabort j ∈ as)) ?_ ?_ hpost
    · exact ⟨hsound, hbegin.1, fun id _ => by simp [hbegin.2]⟩
    · rintro as a u v - ⟨hu, hbegun, hflag⟩ hstep
      have hd := does_of_step hstep
      obtain ⟨hbegun', hback⟩ := hd.begun hbegun
      refine ⟨hu.step hstep, hbegun', fun id hw => ?_⟩
      have hno : ∀ k, a ≠ .begin k := by
        rintro k rfl
        cases hd with
        | begin _ id' hst hfree =>
          obtain rfl := hu.one k i id' id (hst ▸ rfl) (hback id hw ▸ rfl)
          cases hst.symm.trans (hback id hw)
      rw [hd.flag hno, hflag id (hback id hw)]
      simp only [List.mem_append, List.mem_singleton, exists_or]
      rw [or_comm]
      simp only [eq_comm]
  exact ⟨hinv.2.2 id hwork, fun cmd rand h => cancelLinks h rand⟩

def twoPages (i : Nat) : Bytes := if i = 2 then lit "page?doExpire=1&sigabort=1" else lit "page?doExpire=1"

/-- A task that is asked to stop when it has registered, but has not begun yet. -/
def earlyAbort : List TaskAct := [.register 0 true, .sigabort 2]

theorem earlyAbort_lost : ∃ s, run (start 100 twoPages) (earlyAbort ++ .begin 0 :: []) = some s ∧
    (s.g_sigTaskAbort = true ↔ ∃ j, TaskAct.sigabort j ∈ []) :=
  ⟨_, rfl, (@abort_heard 100 twoPages earlyAbort [] 0 _ 100 (by decide) rfl rfl).1⟩

end BgTasks

end Acng
