import Mathlib.Data.List.Induction

namespace Acng.Lib

variable {σ α : Type} {step : σ → α → Option σ}

/-- The actions are taken one after the other, and each of them must be possible. -/
def runs (step : σ → α → Option σ) (s : σ) : List α → Option σ
  | [] => some s
  | a :: as => (step s a).bind (fun t => runs step t as)

@[simp] theorem runs_nil (s : σ) : runs step s [] = some s := rfl

theorem runs_append (s : σ) (as bs : List α) :
    runs step s (as ++ bs) = (runs step s as).bind (fun t => runs step t bs) := by
  induction as generalizing s with
  | nil => rfl
  | cons a as ih =>
    simp only [List.cons_append, runs, Option.bind_assoc]
    exact congrArg (Option.bind (step s a)) (funext ih)

theorem runs_cons {s t : σ} {a : α} {as : List α} :
    runs step s (a :: as) = some t ↔ ∃ m, step s a = some m ∧ runs step m as = some t :=
  Option.bind_eq_some_iff

theorem runs_split {s t : σ} {as bs : List α} :
    runs step s (as ++ bs) = some t ↔ ∃ m, runs step s as = some m ∧ runs step m bs = some t := by
  rw [runs_append]
  exact Option.bind_eq_some_iff

theorem runs_snoc {s t : σ} {as : List α} {a : α} :
    runs step s (as ++ [a]) = some t ↔ ∃ m, runs step s as = some m ∧ step m a = some t := by
  simp [runs_split, runs_cons]

/-- What holds in the beginning and is kept by every step holds after every run. The
actions taken so far may be spoken about. -/
theorem runs_induct {s : σ} {motive : List α → σ → Prop} (start : motive [] s)
    (next : ∀ as a m t, runs step s as = some m → motive as m → step m a = some t →
      motive (as ++ [a]) t)
    {as : List α} {t : σ} (h : runs step s as = some t) : motive as t := by
  induction as using List.reverseRecOn generalizing t with
  | nil =>
    obtain rfl := Option.some.inj h
    exact start
  | append_singleton as a ih =>
    obtain ⟨m, hm, ha⟩ := runs_snoc.mp h
    exact next as a m t hm (ih hm) ha

/-- If each step says exactly when it spoils a property, then it is known which runs do. -/
theorem runs_keep_iff {s : σ} (good : σ → Prop) {bad : σ → α → Prop} (start : good s)
    (next : ∀ as m a t, runs step s as = some m → step m a = some t → (good t ↔ good m ∧ ¬ bad m a))
    {as : List α} {t : σ} (h : runs step s as = some t) :
    good t ↔ ∀ pre a post m, as = pre ++ a :: post → runs step s pre = some m → ¬ bad m a := by
  refine runs_induct (motive := fun as t =>
    good t ↔ ∀ pre a post m, as = pre ++ a :: post → runs step s pre = some m → ¬ bad m a) ?_ ?_ h
  · refine iff_of_true start (fun pre a post m has => ?_)
    exact absurd has.symm (by simp)
  · intro as a m t hm ih ha
    rw [next as m a t hm ha, ih]
    constructor
    · rintro ⟨hpre, hlast⟩ pre b post m' has hm'
      obtain rfl | ⟨post, b', rfl⟩ := List.eq_nil_or_concat post
      · obtain ⟨rfl, hb⟩ := List.append_inj' has rfl
        obtain rfl := Option.some.inj (hm.symm.trans hm')
        cases hb
        exact hlast
      · rw [List.concat_eq_append, ← List.cons_append, ← List.append_assoc] at has
        exact hpre pre b post m' (List.append_inj' has rfl).1 hm'
    · intro hall
      refine ⟨fun pre b post m' has hm' => ?_, hall as a [] m rfl hm⟩
      exact hall pre b (post ++ [a]) m' (by rw [has, List.append_assoc, List.cons_append]) hm'

/-- An invariant is lost at a step of a known kind only. -/
theorem runs_inv {s : σ} (inv : σ → Prop) {bad : σ → α → Prop} (start : inv s)
    (keep : ∀ m a t, inv m → ¬ bad m a → step m a = some t → inv t) {as : List α}
    (hno : ∀ pre a post m, as = pre ++ a :: post → runs step s pre = some m → inv m → ¬ bad m a) :
    ∀ pre post m, as = pre ++ post → runs step s pre = some m → inv m := by
  intro pre post m has hm
  refine runs_induct (motive := fun pre m => (∃ post, as = pre ++ post) → inv m) ?_ ?_ hm ⟨post, has⟩
  · exact fun _ => start
  · rintro pre a m t hm ih ht ⟨post, has⟩
    have hsplit : as = pre ++ a :: post := by rw [has, List.append_assoc, List.singleton_append]
    have hi := ih ⟨a :: post, hsplit⟩
    exact keep m a t hi (hno pre a post m hsplit hm hi) ht

/-- If an invariant makes all states good, and is lost at the steps that spoil a state only, then it is
known in which runs all states are good. -/
theorem runs_all_iff {s : σ} (inv : σ → Prop) {good : σ → Prop} {bad : σ → α → Prop} (start : inv s)
    (sound : ∀ m, inv m → good m)
    (keep : ∀ m a t, inv m → ¬ bad m a → step m a = some t → inv t)
    (spoil : ∀ m a t, inv m → bad m a → step m a = some t → ¬ good t)
    {as : List α} {t : σ} (h : runs step s as = some t) :
    (∀ pre post m, as = pre ++ post → runs step s pre = some m → good m) ↔
      ∀ pre a post m, as = pre ++ a :: post → runs step s pre = some m → ¬ bad m a := by
  constructor
  · intro hall
    have hno : ∀ pre a post m, as = pre ++ a :: post → runs step s pre = some m → inv m →
        ¬ bad m a := by
      intro pre a post m has hm hi hbad
      obtain ⟨m', hm', hrest⟩ := runs_split.mp (has ▸ h)
      obtain rfl := Option.some.inj (hm.symm.trans hm')
      obtain ⟨t, ht, -⟩ := runs_cons.mp hrest
      refine spoil m a t hi hbad ht (hall (pre ++ [a]) post t ?_ (runs_snoc.mpr ⟨m, hm, ht⟩))
      rw [has, List.append_assoc, List.singleton_append]
    intro pre a post m has hm
    exact hno pre a post m has hm (runs_inv inv start keep hno pre (a :: post) m has hm)
  · intro hno pre post m has hm
    exact sound m (runs_inv inv start keep (fun pre a post m has hm _ => hno pre a post m has hm)
      pre post m has hm)

/-- If under an invariant the steps of a known kind, and no others, are not in order, and the others
keep it, then it is known in which runs all steps are in order. -/
theorem runs_steps_iff {s : σ} (inv : σ → Prop) {ok bad : σ → α → Prop} (start : inv s)
    (exactly : ∀ m a, inv m → (ok m a ↔ ¬ bad m a))
    (keep : ∀ m a t, inv m → ¬ bad m a → step m a = some t → inv t) (as : List α) :
    (∀ pre a post m, as = pre ++ a :: post → runs step s pre = some m → ok m a) ↔
      ∀ pre a post m, as = pre ++ a :: post → runs step s pre = some m → ¬ bad m a := by
  constructor
  · intro hall
    have hno : ∀ pre a post m, as = pre ++ a :: post → runs step s pre = some m → inv m →
        ¬ bad m a := fun pre a post m has hm hi => (exactly m a hi).mp (hall pre a post m has hm)
    intro pre a post m has hm
    exact hno pre a post m has hm (runs_inv inv start keep hno pre (a :: post) m has hm)
  · intro hno pre a post m has hm
    apply (exactly m a ?_).mpr (hno pre a post m has hm)
    exact runs_inv inv start keep (fun pre a post m has hm _ => hno pre a post m has hm) pre (a :: post)
      m has hm

/-- A run of a relation, with the states that were passed and the action taken in each of them. -/
inductive StepTrace (step : σ → α → σ → Prop) (s : σ) : List (σ × α) → σ → Prop
  | start : StepTrace step s [] s
  | next {tr : List (σ × α)} {m t : σ} {a : α} (h : StepTrace step s tr m) (hs : step m a t) :
      StepTrace step s (tr ++ [(m, a)]) t

/-- The same for a relation. -/
theorem StepTrace.all_iff {step : σ → α → σ → Prop} {s : σ} (inv : σ → Prop) {good : σ → Prop}
    {bad : σ → α → Prop} (start : inv s) (sound : ∀ m, inv m → good m)
    (keep : ∀ m a t, inv m → ¬ bad m a → step m a t → inv t)
    (spoil : ∀ m a t, inv m → bad m a → step m a t → ¬ good t)
    {tr : List (σ × α)} {t : σ} (h : StepTrace step s tr t) :
    ((∀ p ∈ tr, good p.1) ∧ good t) ↔ ∀ p ∈ tr, ¬ bad p.1 p.2 := by
  suffices hboth : (((∀ p ∈ tr, good p.1) ∧ good t) ↔ ∀ p ∈ tr, ¬ bad p.1 p.2) ∧
      ((∀ p ∈ tr, ¬ bad p.1 p.2) → inv t) from hboth.1
  induction h with
  | start =>
    refine ⟨iff_of_true ⟨fun p hp => ?_, sound s start⟩ (fun p hp => ?_), fun _ => start⟩
    · exact absurd hp List.not_mem_nil
    · exact absurd hp List.not_mem_nil
  | @next tr m t a _ hs ih =>
    obtain ⟨hiff, hinv⟩ := ih
    simp only [List.forall_mem_append, List.forall_mem_singleton]
    refine ⟨⟨?_, ?_⟩, ?_⟩
    · rintro ⟨⟨hpre, hm⟩, ht⟩
      have hno := hiff.mp ⟨hpre, hm⟩
      exact ⟨hno, fun hbad => spoil m a t (hinv hno) hbad hs ht⟩
    · rintro ⟨hno, hlast⟩
      exact ⟨hiff.mpr hno, sound t (keep m a t (hinv hno) hlast hs)⟩
    · rintro ⟨hno, hlast⟩
      exact keep m a t (hinv hno) hlast hs

/-- A sequence of states is done after as many steps as the measure allows, if each step that does
not finish it makes the measure smaller. -/
theorem exists_done_of_decreasing (s : Nat → σ) {p : σ → Prop} (measure : σ → Nat)
    (next : ∀ n, p (s n) ∨ p (s (n + 1)) ∨ measure (s (n + 1)) < measure (s n)) :
    ∃ n, n ≤ measure (s 0) + 1 ∧ p (s n) := by
  suffices h : ∀ k m, measure (s m) ≤ k → ∃ n, n ≤ m + k + 1 ∧ p (s n) by
    obtain ⟨n, hn, hdone⟩ := h (measure (s 0)) 0 (Nat.le_refl _)
    exact ⟨n, by omega, hdone⟩
  intro k
  induction k with
  | zero =>
    intro m hm
    obtain hdone | hdone | hless := next m
    · exact ⟨m, by omega, hdone⟩
    · exact ⟨m + 1, by omega, hdone⟩
    · omega
  | succ k ih =>
    intro m hm
    obtain hdone | hdone | hless := next m
    · exact ⟨m, by omega, hdone⟩
    · exact ⟨m + 1, by omega, hdone⟩
    · obtain ⟨n, hn, hdone⟩ := ih (m + 1) (by omega)
      exact ⟨n, by omega, hdone⟩

/-- The places of a list are its first one and those of the others. -/
theorem forall_split_cons (p : List α → α → Prop) (a : α) (as : List α) :
    (∀ before b after, a :: as = before ++ b :: after → p before b) ↔
      p [] a ∧ ∀ before b after, as = before ++ b :: after → p (a :: before) b := by
  constructor
  · refine fun hall => ⟨hall [] a as rfl, fun before b after heq => ?_⟩
    exact hall (a :: before) b after (by rw [heq, List.cons_append])
  · rintro ⟨hfirst, hrest⟩ before b after heq
    cases before with
    | nil =>
      obtain ⟨rfl, -⟩ := List.cons.inj heq
      exact hfirst
    | cons a' before =>
      obtain ⟨rfl, htail⟩ := List.cons.inj heq
      exact hrest before b after htail

/-- What every step of a loop keeps. -/
theorem foldl_keep {loop : σ → α → σ} (inv : σ → Prop) (keep : ∀ s a, inv s → inv (loop s a))
    {s : σ} (start : inv s) (as : List α) : inv (as.foldl loop s) := by
  induction as generalizing s with
  | nil => exact start
  | cons a as ih => exact ih (keep s a start)

/-- If each step of a loop says exactly when it spoils a property, then it is known which loops do. -/
theorem foldl_keep_iff {loop : σ → α → σ} (inv good : σ → Prop) (bad : σ → α → Prop)
    (keep : ∀ s a, inv s → inv (loop s a))
    (next : ∀ s a, inv s → (good (loop s a) ↔ good s ∧ ¬ bad s a)) {s : σ} (start : inv s)
    (as : List α) :
    good (as.foldl loop s) ↔
      good s ∧ ∀ before a after, as = before ++ a :: after → ¬ bad (before.foldl loop s) a := by
  induction as generalizing s with
  | nil => simp
  | cons a as ih =>
    rw [List.foldl_cons, ih (keep s a start), next s a start, and_assoc,
      forall_split_cons (fun before b => ¬ bad (before.foldl loop s) b)]
    rfl

end Acng.Lib
