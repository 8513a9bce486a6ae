import Mathlib.Data.List.Basic
import Mathlib.Data.List.Induction

namespace Acng.Lib

variable {α : Type u} {p : α → Bool}

/-- What lies between the separators is taken from the list, and there is no separator in it. -/
theorem mem_of_mem_splitOnP {l chunk : List α} {a : α} (h : chunk ∈ l.splitOnP p) (ha : a ∈ chunk) :
    a ∈ l ∧ p a = false := by
  induction l generalizing chunk with
  | nil =>
    obtain rfl := List.mem_singleton.mp h
    exact absurd ha List.not_mem_nil
  | cons b l ih =>
    rw [List.splitOnP_cons_eq_if_modifyHead] at h
    cases hb : p b with
    | true =>
      rw [if_pos hb] at h
      obtain rfl | h := List.mem_cons.mp h
      · exact absurd ha List.not_mem_nil
      · exact (ih h ha).imp_left (List.mem_cons_of_mem b)
    | false =>
      rw [if_neg (by simp [hb])] at h
      obtain ⟨front, chunks, hs⟩ := List.exists_cons_of_ne_nil (List.splitOnP_ne_nil p l)
      rw [hs, List.modifyHead_cons] at h
      rw [hs] at ih
      obtain rfl | h := List.mem_cons.mp h
      · obtain rfl | ha := List.mem_cons.mp ha
        · exact ⟨List.mem_cons_self, hb⟩
        · exact (ih List.mem_cons_self ha).imp_left (List.mem_cons_of_mem b)
      · exact (ih (List.mem_cons_of_mem front h) ha).imp_left (List.mem_cons_of_mem b)

/-- What is found in a list is found chunk by chunk where the separators give nothing. -/
theorem flatMap_splitOnP {β : Type v} {f : α → Option β} (hf : ∀ a, p a = true → f a = none)
    (l : List α) : (l.splitOnP p).flatMap (List.filterMap f) = l.filterMap f := by
  induction l with
  | nil => rfl
  | cons a l ih =>
    rw [List.splitOnP_cons_eq_if_modifyHead]
    cases ha : p a with
    | true => rw [if_pos rfl, List.flatMap_cons, ih, List.filterMap_cons_none (hf a ha)]; rfl
    | false =>
      obtain ⟨front, chunks, hs⟩ := List.exists_cons_of_ne_nil (List.splitOnP_ne_nil p l)
      rw [hs, List.flatMap_cons] at ih
      rw [if_neg Bool.false_ne_true, hs, List.modifyHead_cons, List.flatMap_cons,
        List.filterMap_cons, List.filterMap_cons, ← ih]
      cases f a <;> rfl

/-- Nothing comes along exactly where every second part is empty. -/
theorem flatMap_append_eq_left_iff {β : Type v} (f g : α → List β) (l : List α) :
    l.flatMap (fun a => f a ++ g a) = l.flatMap f ↔ ∀ a ∈ l, g a = [] := by
  constructor
  · intro h
    have hlen (l : List α) : (l.flatMap (fun a => f a ++ g a)).length
        = (l.flatMap f).length + (l.flatMap g).length := by
      induction l with
      | nil => rfl
      | cons a l ih =>
        simp only [List.flatMap_cons, List.length_append, ih]
        omega
    have hg := congrArg List.length h
    rw [hlen] at hg
    exact List.flatMap_eq_nil_iff.mp (List.length_eq_zero_iff.mp (by omega))
  · intro h
    refine List.flatMap_congr (fun a ha => ?_)
    rw [h a ha, List.append_nil]

section Fold

variable {σ : Type v} {m : Type v → Type w} [Monad m] [LawfulMonad m] {step : σ → α → m σ}
  {finish : σ → m σ}

omit [LawfulMonad m] in
theorem foldlM_congr_mem {β : Type u'} {f g : σ → β → m σ} (l : List β)
    (h : ∀ st, ∀ b ∈ l, f st b = g st b) (st : σ) : l.foldlM f st = l.foldlM g st := by
  induction l generalizing st with
  | nil => rfl
  | cons b l ih =>
    rw [List.foldlM_cons, List.foldlM_cons, h st b List.mem_cons_self]
    exact bind_congr (ih (fun st b hb => h st b (List.mem_cons_of_mem _ hb)))

/-- A loop that does the same on every separator, and sees one at the end, goes over the chunks. -/
theorem foldlM_chunks (hfinish : ∀ st a, p a = true → step st a = finish st) {last : α}
    (hlast : p last = true) (l : List α) (st : σ) :
    (l ++ [last]).foldlM step st =
      (l.splitOnP p).foldlM (fun st chunk => chunk.foldlM step st >>= finish) st := by
  induction l generalizing st with
  | nil =>
    rw [List.splitOnP_nil]
    simp [hfinish st last hlast]
  | cons a l ih =>
    rw [List.cons_append, List.foldlM_cons, List.splitOnP_cons_eq_if_modifyHead]
    cases ha : p a with
    | true =>
      rw [if_pos rfl, List.foldlM_cons, List.foldlM_nil, pure_bind, hfinish st a ha]
      exact bind_congr ih
    | false =>
      obtain ⟨front, chunks, hs⟩ := List.exists_cons_of_ne_nil (List.splitOnP_ne_nil p l)
      rw [if_neg Bool.false_ne_true, hs, List.modifyHead_cons, List.foldlM_cons, List.foldlM_cons,
        bind_assoc, bind_assoc]
      refine bind_congr (fun st' => ?_)
      rw [ih st', hs, List.foldlM_cons, bind_assoc]

/-- The same with what a loop makes of a whole chunk. -/
theorem foldlM_chunks_eq (hfinish : ∀ st a, p a = true → step st a = finish st) {last : α}
    (hlast : p last = true) (l : List α) (whole : σ → List α → m σ)
    (hwhole : ∀ st chunk, (∀ a ∈ chunk, a ∈ l ∧ p a = false) →
      chunk.foldlM step st >>= finish = whole st chunk) (st : σ) :
    (l ++ [last]).foldlM step st = (l.splitOnP p).foldlM whole st := by
  rw [foldlM_chunks hfinish hlast]
  exact foldlM_congr_mem _
    (fun st chunk hchunk => hwhole st chunk (fun a ha => mem_of_mem_splitOnP hchunk ha)) st

end Fold

section Pure

variable {σ : Type v} {step : σ → α → σ} {finish : σ → σ}

theorem foldl_chunks (hfinish : ∀ st a, p a = true → step st a = finish st) {last : α}
    (hlast : p last = true) (l : List α) (st : σ) :
    (l ++ [last]).foldl step st =
      (l.splitOnP p).foldl (fun st chunk => finish (chunk.foldl step st)) st := by
  have hid {β : Type u} (step : σ → β → σ) (st : σ) (l : List β) :
      List.foldlM (m := Id) step st l = l.foldl step st := by
    induction l generalizing st with
    | nil => rfl
    | cons b l ih => exact ih _
  have h := foldlM_chunks (m := Id) hfinish hlast l st
  rw [hid, hid] at h
  exact h.trans (congrArg (fun f => List.foldl f st _) (funext fun st => funext fun chunk =>
    congrArg finish (hid step st chunk)))

/-- What the last element says of those that say something. -/
def lastOf {β : Type w} (f : α → Option β) (l : List α) : Option β := (l.filterMap f).getLast?

variable {β : Type w} {γ : Type w'}

theorem lastOf_isSome {f : α → Option β} {l : List α} :
    (lastOf f l).isSome = true ↔ ∃ a ∈ l, (f a).isSome = true := by
  rw [lastOf, List.getLast?_isSome, ne_eq, List.filterMap_eq_nil_iff]
  simp only [Option.isSome_iff_ne_none, not_forall, exists_prop]

theorem lastOf_mem {f : α → Option β} {l : List α} {b : β} (h : lastOf f l = some b) :
    ∃ a ∈ l, f a = some b :=
  List.mem_filterMap.mp (List.mem_of_getLast? h)

theorem lastOf_map (f : α → Option β) (g : β → γ) (l : List α) :
    lastOf (fun a => (f a).map g) l = (lastOf f l).map g := by
  rw [lastOf, lastOf, ← List.getLast?_map, List.map_filterMap]

theorem lastOf_singleton (f : α → Option β) (a : α) : lastOf f [a] = f a := by
  cases hf : f a with
  | none => rw [lastOf, List.filterMap_cons_none hf]; rfl
  | some b => rw [lastOf, List.filterMap_cons_some hf]; rfl

theorem lastOf_append (f : α → Option β) (l l' : List α) :
    lastOf f (l ++ l') = (lastOf f l').or (lastOf f l) := by
  rw [lastOf, lastOf, lastOf, List.filterMap_append, List.getLast?_append]

theorem lastOf_bind {f : α → Option β} {g : β → Option γ} {l : List α} {b : β} {c : γ}
    (hb : lastOf f l = some b) (hc : g b = some c) : lastOf (fun a => (f a).bind g) l = some c := by
  induction l using List.reverseRecOn with
  | nil => cases hb
  | append_singleton l a ih =>
    rw [lastOf_append, lastOf_singleton] at hb ⊢
    cases hf : f a with
    | none =>
      rw [hf, Option.none_or] at hb
      rw [Option.bind_none, Option.none_or]
      exact ih hb
    | some b' =>
      rw [hf, Option.some_or] at hb
      obtain rfl : b' = b := Option.some.inj hb
      rw [Option.bind_some, hc, Option.some_or]

/-- A loop leaves a field of its state at what was said of it last. -/
theorem foldl_lastOf {proj : σ → β} {f : α → Option β}
    (h : ∀ st a, proj (step st a) = (f a).getD (proj st)) (l : List α) (st : σ) :
    proj (l.foldl step st) = (lastOf f l).getD (proj st) := by
  induction l using List.reverseRecOn with
  | nil => rfl
  | append_singleton l a ih =>
    rw [List.foldl_append, List.foldl_cons, List.foldl_nil, h, ih, lastOf_append, lastOf_singleton]
    cases f a with
    | none => rfl
    | some b => rfl

end Pure

end Acng.Lib
