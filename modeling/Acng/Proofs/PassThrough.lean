import Acng.PassThrough

namespace Acng
open Lib

section Vectors

variable {nMax got : Nat}

theorem length_fitVectors (nMax : Nat) (ivs : List Bytes) (h : got ≤ nMax) :
    got + (fitVectors nMax got ivs).flatten.length = fitLength nMax got ivs := by
  induction ivs generalizing got with
  | nil => rfl
  | cons iv ivs ih =>
    simp only [fitVectors, fitLength]
    split
    · simp only [List.flatten_cons, List.flatten_nil, List.append_nil, List.length_take]
      omega
    · rw [List.flatten_cons, List.length_append, ← Nat.add_assoc]
      exact ih (by omega)

theorem fitVectors_begins (nMax got : Nat) (ivs : List Bytes) :
    (fitVectors nMax got ivs).flatten <+: ivs.flatten := by
  induction ivs generalizing got with
  | nil => exact List.prefix_refl _
  | cons iv ivs ih =>
    simp only [fitVectors]
    split
    · rw [List.flatten_cons, List.flatten_cons, List.flatten_nil, List.append_nil]
      exact (List.take_prefix _ _).trans (List.prefix_append _ _)
    · rw [List.flatten_cons, List.flatten_cons]
      exact List.prefix_append_right_inj _ |>.mpr (ih _)

/-- What a full write transfers is what `evbuffer_drain` removes. -/
theorem fitVectors_eq_take {q : Bytes} {ivs : List Bytes} (h : ivs.flatten <+: q) :
    (fitVectors nMax 0 ivs).flatten = q.take (fitLength nMax 0 ivs) := by
  have hp := (fitVectors_begins nMax 0 ivs).trans h
  have hl := length_fitVectors nMax ivs (Nat.zero_le _)
  rw [← hl, Nat.zero_add]
  exact List.prefix_iff_eq_take.mp hp

theorem fitLength_le (nMax : Nat) {q : Bytes} {ivs : List Bytes} (h : ivs.flatten <+: q) :
    fitLength nMax 0 ivs ≤ q.length := by
  have hp := (fitVectors_begins nMax 0 ivs).trans h
  have hl := length_fitVectors nMax ivs (Nat.zero_le _)
  have := hp.length_le
  omega

end Vectors

namespace PassThrough

variable {s t : PassThrough} {a : Action} {acts : List Action}

/-- What a step can do to the bytes on their way. -/
inductive Transfer (s t : PassThrough) : Action → Prop
  | none {a : Action} (hw : t.written = s.written) (hp : t.nSendPos = s.nSendPos)
      (hq : t.fi.q = s.fi.q) (ha : t.accepted = s.accepted) (hf : FullWrite a) : Transfer s t a
  | taken {added : Bool} (part : Bytes) (hw : t.written = s.written) (hp : t.nSendPos = s.nSendPos)
      (hq : t.fi.q = s.fi.q ++ part) (ha : t.accepted = s.accepted ++ part)
      (room : (t.fi.q.length : Int) ≤ PT_BUF_MAX) : Transfer s t (.addPass added)
  | sent {nMax : Nat} {ivs : List Bytes} {r : Int} (front : ivs.flatten <+: s.fi.q) (pos : 0 < r)
      (le : r ≤ (fitVectors nMax 0 ivs).flatten.length)
      (hw : t.written = s.written ++ (fitVectors nMax 0 ivs).flatten.take r.toNat)
      (hp : t.nSendPos = s.nSendPos + r) (hq : t.fi.q = s.fi.q.drop (fitLength nMax 0 ivs))
      (ha : t.accepted = s.accepted) : Transfer s t (.sendData nMax ivs r)

theorem endAdd_accepted {taken : Bytes} (h : s.taken = taken) :
    (s.endAdd taken).accepted = s.accepted := by
  subst h
  simp [accepted, endAdd, PassThrough.taken]

theorem dlStarted_queue (fi : PassThroughItem) (rawHeader origin : Bytes) (status : RemoteStatus)
    (seekPos bytesAnnounced : Int) :
    (fi.dlStarted rawHeader origin status seekPos bytesAnnounced).2.q = fi.q := by
  simp only [PassThroughItem.dlStarted]
  split
  · rfl
  · split
    · rfl
    · split <;> rfl

theorem beginAdd_queue (fi : PassThroughItem) (chunk : Bytes) : (fi.beginAdd chunk).2.q = fi.q := by
  simp only [PassThroughItem.beginAdd]
  split <;> split <;> rfl

theorem addPass_transfer {taken rest : Bytes} (h : s.adding = .looping taken rest) (added : Bool) :
    Transfer s (s.addPass taken rest added) (.addPass added) := by
  have ht : s.taken = taken := by simp only [PassThrough.taken, h]
  have ended : Transfer s (s.endAdd taken) (.addPass added) :=
    .none rfl rfl rfl (endAdd_accepted ht) trivial
  simp only [addPass]
  split
  · exact ended
  · split
    · exact ended
    · split
      · exact .none rfl rfl rfl (by simp only [accepted, PassThrough.taken, h]) trivial
      · split
        · exact ended
        · rename_i hn
          rw [Bool.or_eq_true, decide_eq_true_eq, not_or] at hn
          refine .taken _ rfl rfl rfl (by simp [accepted, PassThrough.taken, h]) ?_
          simp only [List.length_append, List.length_take]
          omega

theorem sendData_transfer {nMax : Nat} {ivs : List Bytes} {r : Int}
    (front : ivs.flatten <+: s.fi.q) (hr : writevResult nMax ivs r = true) :
    Transfer s (s.dumped nMax ivs r) (.sendData nMax ivs r) := by
  simp only [dumped]
  split
  · rename_i pos
    have le : r ≤ (fitVectors nMax 0 ivs).flatten.length := by
      simp only [writevResult] at hr
      split at hr
      · have := beq_iff_eq.mp hr
        omega
      · simp only [Bool.and_eq_true, decide_eq_true_eq] at hr
        exact hr.2
    exact .sent front pos le rfl rfl rfl rfl
  · exact .none rfl rfl rfl rfl (.inl (by omega))

theorem step_transfer (h : s.step a = some t) : Transfer s t a := by
  cases a <;> simp only [step] at h
  case addPass added =>
    split at h
    · obtain rfl := Option.some.inj h
      exact addPass_transfer ‹_› added
    · cases h
  case wake =>
    split at h
    · rename_i hw
      obtain rfl := Option.some.inj h
      exact .none rfl rfl rfl (by simp only [accepted, taken, hw]) trivial
    · cases h
  case addData chunk =>
    split at h
    · rename_i hi
      obtain rfl := Option.some.inj h
      refine .none rfl rfl (beginAdd_queue _ _) ?_ trivial
      simp only [accepted, taken, hi]
      cases (s.fi.beginAdd chunk).1 <;> rfl
    · cases h
  case sendData nMax ivs r =>
    split at h
    · cases h
    · split at h
      · split at h
        · rename_i hr
          obtain rfl := Option.some.inj h
          exact .none rfl rfl rfl rfl (.inl (by omega))
        · cases h
      · split at h
        · rename_i hr
          obtain rfl := Option.some.inj h
          exact sendData_transfer hr.2.1 hr.2.2
        · cases h
  case dlStarted =>
    split at h
    · obtain rfl := Option.some.inj h
      exact .none rfl rfl (dlStarted_queue _ _ _ _ _ _) rfl trivial
    · cases h
  all_goals try split at h
  all_goals first
    | cases h; done
    | obtain rfl := Option.some.inj h; exact .none rfl rfl rfl rfl trivial

theorem Conserved.of_queue (pos : s.nSendPos = s.written.length)
    (queue : s.accepted = s.written ++ s.fi.q) : Conserved s :=
  ⟨queue ▸ List.prefix_append _ _, pos, queue⟩

theorem step_conserved (h : s.step a = some t) (hs : Conserved s) (hf : FullWrite a) :
    Conserved t := by
  cases step_transfer h with
  | none hw hp hq ha => exact .of_queue (by rw [hp, hw, hs.pos]) (by rw [ha, hw, hq, hs.queue])
  | taken part hw hp hq ha =>
    exact .of_queue (by rw [hp, hw, hs.pos]) (by rw [ha, hw, hq, hs.queue, List.append_assoc])
  | sent front pos le hw hp hq ha =>
    obtain hr | hr := hf
    · omega
    rw [hr, Int.toNat_natCast, List.take_length] at hw
    refine .of_queue ?_ ?_
    · rw [hp, hw, List.length_append, hs.pos, hr]
      omega
    · rw [ha, hw, hq, hs.queue, List.append_assoc, fitVectors_eq_take front, List.take_append_drop]

/-- A short write takes more out of the queue than it has written. -/
theorem full_of_conserved (h : s.step a = some t) (hs : Conserved s) (ht : Conserved t) :
    FullWrite a := by
  cases step_transfer h with
  | none _ _ _ _ hf => exact hf
  | taken => trivial
  | sent front pos le hw hp hq ha =>
    refine .inr ?_
    have before := congrArg List.length hs.queue
    have after := congrArg List.length ht.queue
    rw [ha, hw, hq] at after
    simp only [List.length_append, List.length_take, List.length_drop] at before after
    have := fitLength_le ‹Nat› front
    have := length_fitVectors ‹Nat› ‹List Bytes› (Nat.zero_le _)
    omega

theorem new_conserved : Conserved {} := .of_queue rfl rfl

theorem run_conserved (h : run {} acts = some t) (hf : ∀ a ∈ acts, FullWrite a) : Conserved t := by
  refine runs_induct (motive := fun as t => (∀ a ∈ as, FullWrite a) → Conserved t)
    (fun _ => new_conserved) ?_ h hf
  intro as a m t _ ih ha hf
  exact step_conserved ha (ih (fun b hb => hf b (List.mem_append_left _ hb)))
    (hf a (List.mem_append_right _ (List.mem_singleton_self a)))

/-- In a run no byte is lost, repeated or moved exactly if every write that transfers
something transfers all that it was asked for. -/
theorem pass_through_conserved_iff (acts : List Action) (t : PassThrough)
    (h : run {} acts = some t) :
    (∀ as s, as <+: acts → run {} as = some s → Conserved s) ↔ ∀ a ∈ acts, FullWrite a := by
  constructor
  · intro hc a ha
    obtain ⟨as, bs, rfl⟩ := List.append_of_mem ha
    obtain ⟨m, hm, h⟩ := runs_split.mp h
    obtain ⟨n, hn, -⟩ := runs_cons.mp h
    have next : as ++ [a] <+: as ++ a :: bs := by simp
    exact full_of_conserved hn (hc as m (List.prefix_append _ _) hm)
      (hc (as ++ [a]) n next (runs_snoc.mpr ⟨m, hm, hn⟩))
  · intro hf as s hp hs
    exact run_conserved hs (fun a ha => hf a (hp.subset ha))

theorem pass_through_conserved_iff_full : ∃ t, run {} [.setup, .addData [1, 2], .addPass true,
      .addPass true, .sendData 1 [[1], [2]] 1, .sendData 9 [[2]] 1] = some t ∧ t.written = [1, 2] ∧
    ((∀ as s, as <+: [.setup, .addData [1, 2], .addPass true, .addPass true,
          .sendData 1 [[1], [2]] 1, .sendData 9 [[2]] 1] → run {} as = some s → Conserved s) ↔
      ∀ a ∈ [Action.setup, .addData [1, 2], .addPass true, .addPass true,
        .sendData 1 [[1], [2]] 1, .sendData 9 [[2]] 1], FullWrite a) :=
  ⟨_, rfl, rfl, pass_through_conserved_iff _ _ rfl⟩

/-- One of two bytes is written, and both are drained. -/
theorem short_write_loses : ∃ acts t, run {} acts = some t ∧ t.accepted = [1, 2] ∧
    t.written = [1] ∧ t.fi.q = [] ∧ ¬ Conserved t :=
  ⟨[.setup, .addData [1, 2], .addPass true, .addPass true, .sendData 2 [[1, 2]] 1], _, rfl, rfl, rfl,
    rfl, fun h => absurd h.queue (by decide)⟩

/-- The limit is never exceeded, so there is never a negative length to append. -/
theorem step_bounded (h : s.step a = some t) (hs : (s.fi.q.length : Int) ≤ PT_BUF_MAX) :
    (t.fi.q.length : Int) ≤ PT_BUF_MAX := by
  cases step_transfer h with
  | none _ _ hq => rwa [hq]
  | sent _ _ _ _ _ hq =>
    rw [hq, List.length_drop]
    omega
  | taken _ _ _ _ _ room => exact room

theorem run_bounded (h : run {} acts = some t) : (t.fi.q.length : Int) ≤ PT_BUF_MAX :=
  runs_induct (motive := fun _ t => (t.fi.q.length : Int) ≤ PT_BUF_MAX) (by decide)
    (fun _ _ _ _ _ ih ha => step_bounded ha ih) h

end PassThrough

end Acng
