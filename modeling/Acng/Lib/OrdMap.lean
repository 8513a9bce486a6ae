import Acng.Lib.StringOrder

namespace Acng.Lib

/-! A `std::map` as the list of its entries, in the order of the keys. -/

namespace OrdMap

variable {κ : Type u} {ν : Type v}

/-- `map[key] = value`. -/
def insert (lt : κ → κ → Bool) (key : κ) (value : ν) : List (κ × ν) → List (κ × ν)
  | [] => [(key, value)]
  | (k, v) :: l =>
    if lt key k then (key, value) :: (k, v) :: l
    else if lt k key then (k, v) :: insert lt key value l
    else (key, value) :: l

def Sorted (lt : κ → κ → Bool) (l : List (κ × ν)) : Prop :=
  l.Pairwise (fun a b => lt a.1 b.1 = true)

section Lookup

variable [BEq κ] [LawfulBEq κ]

theorem mem_of_lookup {key : κ} {value : ν} {l : List (κ × ν)} (h : l.lookup key = some value) :
    (key, value) ∈ l := by
  induction l with
  | nil => cases h
  | cons e l ih =>
    obtain ⟨k, v⟩ := e
    rw [List.lookup_cons] at h
    cases hk : key == k with
    | true =>
      rw [hk] at h
      obtain rfl := eq_of_beq hk
      obtain rfl := Option.some.inj h
      exact List.mem_cons_self
    | false =>
      rw [hk] at h
      exact List.mem_cons_of_mem _ (ih h)

end Lookup

variable {lt : κ → κ → Bool}

theorem mem_insert {key : κ} {value : ν} {e : κ × ν} {l : List (κ × ν)}
    (h : e ∈ insert lt key value l) : e = (key, value) ∨ e ∈ l := by
  induction l with
  | nil => exact .inl (List.mem_singleton.mp h)
  | cons e' l ih =>
    obtain ⟨k, v⟩ := e'
    unfold insert at h
    split at h
    · exact List.mem_cons.mp h
    · split at h
      · obtain h | h := List.mem_cons.mp h
        · exact .inr (h ▸ List.mem_cons_self)
        · exact (ih h).imp_right (List.mem_cons_of_mem _)
      · exact (List.mem_cons.mp h).imp_right (List.mem_cons_of_mem _)

section Find

variable (lt)

/-- Neither goes before the other. -/
def same (a b : κ) : Bool := !lt a b && !lt b a

/-- `map.find(key)`. -/
def find (key : κ) (l : List (κ × ν)) : Option ν :=
  (l.find? (fun e => same lt e.1 key)).map Prod.snd

/-- Many entries are written, one after the other. -/
def fill (entries : List (κ × ν)) : List (κ × ν) := entries.foldl (fun l e => insert lt e.1 e.2 l) []

variable {lt}

theorem same_comm (a b : κ) : same lt a b = same lt b a := Bool.and_comm _ _

variable [IsStrictWeakOrder κ (fun a b => lt a b = true)]

theorem same_trans {a b c : κ} (hab : same lt a b = true) (hbc : same lt b c = true) : same lt a c = true := by
  simp only [same, Bool.and_eq_true, Bool.not_eq_true', ← Bool.not_eq_true] at hab hbc ⊢
  exact @IsStrictWeakOrder.incomp_trans κ (fun a b => lt a b = true) _ a b c hab hbc

theorem same_iff_of_same {a b : κ} (hab : same lt a b = true) (c : κ) : same lt a c = same lt b c := by
  rw [Bool.eq_iff_iff]
  exact ⟨same_trans (same_comm b a ▸ hab), same_trans hab⟩

variable (lt) in
theorem find_insert (key k : κ) (value : ν) (l : List (κ × ν)) :
    find lt k (insert lt key value l) = if same lt key k then some value else find lt k l := by
  have head (e : κ × ν) (l : List (κ × ν)) :
      find lt k (e :: l) = if same lt e.1 k then some e.2 else find lt k l := by
    rw [find, List.find?_cons]
    cases same lt e.1 k <;> rfl
  induction l with
  | nil => exact head (key, value) []
  | cons e l ih =>
    obtain ⟨k', v'⟩ := e
    unfold insert
    cases hlt : lt key k' with
    | true =>
      rw [if_pos rfl]
      exact head (key, value) _
    | false =>
      rw [if_neg Bool.false_ne_true]
      cases hgt : lt k' key with
      | true =>
        have hapart : same lt k' key = false := by simp [same, hgt]
        rw [if_pos rfl, head, head, ih]
        cases hk : same lt k' k with
        | false => rw [if_neg Bool.false_ne_true, if_neg Bool.false_ne_true]
        | true =>
          have hkey : same lt key k = false := by
            rw [same_comm, ← same_iff_of_same hk]
            exact hapart
          rw [if_pos rfl, hkey, if_neg Bool.false_ne_true, if_pos rfl]
      | false =>
        have hsame : same lt k' key = true := by simp [same, hlt, hgt]
        rw [if_neg Bool.false_ne_true, head, head, same_iff_of_same hsame]
        cases same lt key k <;> rfl

theorem find_foldl_insert (key : κ) (entries l : List (κ × ν)) :
    find lt key (entries.foldl (fun l e => insert lt e.1 e.2 l) l) =
      ((entries.filter (fun e => same lt e.1 key)).getLast?.map Prod.snd).or (find lt key l) := by
  induction entries generalizing l with
  | nil => rfl
  | cons e entries ih =>
    rw [List.foldl_cons, ih, find_insert]
    cases hsame : same lt e.1 key with
    | false => rw [if_neg Bool.false_ne_true, List.filter_cons_of_neg (by simp [hsame])]
    | true =>
      have hfilter : (e :: entries).filter (fun e => same lt e.1 key) =
          e :: entries.filter (fun e => same lt e.1 key) := List.filter_cons_of_pos hsame
      rw [if_pos rfl, hfilter, List.getLast?_cons]
      cases (entries.filter (fun e => same lt e.1 key)).getLast? <;> rfl

/-- A key finds what was written last under a key that is the same. -/
theorem find_fill (key : κ) (entries : List (κ × ν)) :
    find lt key (fill lt entries) = (entries.filter (fun e => same lt e.1 key)).getLast?.map Prod.snd := by
  rw [fill, find_foldl_insert]
  exact Option.or_none

end Find

variable [IsStrictTotalOrder κ (fun a b => lt a b = true)]

theorem same_iff {a b : κ} : same lt a b = true ↔ a = b := by
  constructor
  · intro h
    rw [same, Bool.and_eq_true, Bool.not_eq_true', Bool.not_eq_true'] at h
    by_contra hne
    exact Bool.false_ne_true (h.1.symm.trans (order_of_not hne h.2))
  · rintro rfl
    simp [same, order_irrefl]

theorem sorted_insert (key : κ) (value : ν) {l : List (κ × ν)} (h : Sorted lt l) :
    Sorted lt (insert lt key value l) := by
  induction l with
  | nil => exact List.pairwise_singleton _ _
  | cons e l ih =>
    obtain ⟨k, v⟩ := e
    obtain ⟨hk, hl⟩ := List.pairwise_cons.mp h
    unfold insert
    cases hlt : lt key k with
    | true =>
      rw [if_pos rfl]
      refine List.pairwise_cons.mpr ⟨?_, h⟩
      intro e he
      obtain rfl | he := List.mem_cons.mp he
      · exact hlt
      · exact order_trans hlt (hk e he)
    | false =>
      rw [if_neg Bool.false_ne_true]
      cases hgt : lt k key with
      | true =>
        rw [if_pos rfl]
        refine List.pairwise_cons.mpr ⟨?_, ih hl⟩
        intro e he
        obtain rfl | he := mem_insert he
        · exact hgt
        · exact hk e he
      | false =>
        have heq : k = key := by
          by_contra hne
          exact Bool.false_ne_true (hlt.symm.trans (order_of_not (Ne.symm hne) hgt))
        rw [if_neg Bool.false_ne_true]
        exact List.pairwise_cons.mpr ⟨heq ▸ hk, hl⟩

variable [BEq κ] [LawfulBEq κ] [DecidableEq κ]

variable (lt) in
theorem lookup_insert (key k : κ) (value : ν) (l : List (κ × ν)) :
    (insert lt key value l).lookup k = if k = key then some value else l.lookup k := by
  induction l with
  | nil =>
    by_cases hk : k = key
    · simp [insert, hk]
    · simp [insert, List.lookup_cons, beq_eq_false_iff_ne.mpr hk, hk]
  | cons e l ih =>
    obtain ⟨k', v'⟩ := e
    unfold insert
    cases hlt : lt key k' with
    | true =>
      by_cases hk : k = key
      · simp [hk]
      · simp [List.lookup_cons, beq_eq_false_iff_ne.mpr hk, hk]
    | false =>
      cases hgt : lt k' key with
      | true =>
        have hne : k' ≠ key := by
          rintro rfl
          exact Bool.false_ne_true ((order_irrefl _).symm.trans hgt)
        by_cases hk : k = key
        · subst hk
          simp [List.lookup_cons, beq_eq_false_iff_ne.mpr hne.symm, ih]
        · simp [List.lookup_cons, hk, ih]
      | false =>
        have heq : k' = key := by
          by_contra hne
          exact Bool.false_ne_true (hlt.symm.trans (order_of_not (Ne.symm hne) hgt))
        by_cases hk : k = key
        · simp [hk]
        · simp [List.lookup_cons, beq_eq_false_iff_ne.mpr hk, hk, heq]

/-- There is one entry for each key at most. -/
theorem filter_key {l : List (κ × ν)} (h : Sorted lt l) (key : κ) :
    l.filter (fun e => e.1 = key) = ((l.lookup key).map (Prod.mk key)).toList := by
  induction l with
  | nil => rfl
  | cons e l ih =>
    obtain ⟨k, v⟩ := e
    obtain ⟨hk, hl⟩ := List.pairwise_cons.mp h
    rw [List.lookup_cons]
    by_cases heq : k = key
    · subst heq
      have hnone : l.filter (fun e => e.1 = k) = [] := by
        rw [List.filter_eq_nil_iff]
        intro e he hek
        have := hk e he
        rw [of_decide_eq_true hek] at this
        exact Bool.false_ne_true ((order_irrefl _).symm.trans this)
      rw [List.filter_cons_of_pos (by simp), hnone]
      simp
    · have hno : (key == k) = false := beq_eq_false_iff_ne.mpr (Ne.symm heq)
      rw [List.filter_cons_of_neg (by simpa using heq), ih hl, hno]

theorem lookup_of_mem {l : List (κ × ν)} (h : Sorted lt l) {key : κ} {value : ν}
    (hmem : (key, value) ∈ l) : l.lookup key = some value := by
  have hkey : (key, value) ∈ l.filter (fun e => e.1 = key) := by simpa using hmem
  rw [filter_key h, Option.mem_toList, Option.map_eq_some_iff] at hkey
  obtain ⟨value', hlookup, heq⟩ := hkey
  rw [hlookup, (Prod.mk.inj heq).2]

end OrdMap

end Acng.Lib
