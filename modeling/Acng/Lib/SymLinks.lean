import Mathlib.Logic.Function.Basic
import Mathlib.Data.List.Basic
import Mathlib.Data.Nat.Basic

namespace Acng.Lib

/-- What a directory entry is: a name of a file, or a symbolic link with its text. -/
inductive Node (τ : Type)
  | file (id : Nat)
  | link (text : τ)
deriving DecidableEq, Repr

/-- Directory entries with symbolic links. The files are told apart by numbers. -/
structure LinkedFiles (π τ α : Type) where
  node : π → Option (Node τ)
  data : Nat → α
  next : Nat
  bound : ∀ p i, node p = some (.file i) → i < next

section Follow

variable {π τ : Type} (leads : π → τ → π) (node : π → Option (Node τ))

/-- The entry that a name stands for, with so many symbolic links on the way at most. -/
def follow : Nat → π → Option π
  | 0, p =>
    match node p with
    | some (.link _) => none
    | _ => some p
  | links + 1, p =>
    match node p with
    | some (.link text) => follow links (leads p text)
    | _ => some p

/-- The entries on that way. -/
def trail : Nat → π → List π
  | 0, p => [p]
  | links + 1, p =>
    p :: match node p with
      | some (.link text) => trail links (leads p text)
      | _ => []

theorem link_or_end (p : π) : (∃ text, node p = some (.link text)) ∨ ∀ text, node p ≠ some (.link text) := by
  by_cases hlink : ∃ text, node p = some (.link text)
  · exact .inl hlink
  · exact .inr (fun text h => hlink ⟨text, h⟩)

variable {leads node}

theorem follow_zero (p : π) :
    follow leads node 0 p = match node p with
      | some (.link _) => none
      | _ => some p :=
  rfl

theorem follow_succ (links : Nat) (p : π) :
    follow leads node (links + 1) p = match node p with
      | some (.link text) => follow leads node links (leads p text)
      | _ => some p :=
  rfl

theorem trail_succ (links : Nat) (p : π) :
    trail leads node (links + 1) p = p :: match node p with
      | some (.link text) => trail leads node links (leads p text)
      | _ => [] :=
  rfl

theorem follow_link {p : π} {text : τ} (hlink : node p = some (.link text)) (links : Nat) :
    follow leads node (links + 1) p = follow leads node links (leads p text) := by
  rw [follow_succ, hlink]

theorem trail_link {p : π} {text : τ} (hlink : node p = some (.link text)) (links : Nat) :
    trail leads node (links + 1) p = p :: trail leads node links (leads p text) := by
  rw [trail_succ, hlink]

theorem follow_end {p : π} (hend : ∀ text, node p ≠ some (.link text)) (links : Nat) :
    follow leads node links p = some p := by
  cases links with
  | zero => rw [follow_zero]; split <;> simp_all
  | succ links => rw [follow_succ]; split <;> simp_all

/-- Without a link left, only an entry that is no link leads on. -/
theorem end_of_follow_zero {p q : π} (hfound : follow leads node 0 p = some q) :
    ∀ text, node p ≠ some (.link text) := by
  intro text hlink
  rw [follow_zero, hlink] at hfound
  cases hfound

theorem trail_end {p : π} (hend : ∀ text, node p ≠ some (.link text)) (links : Nat) :
    trail leads node links p = [p] := by
  cases links with
  | zero => rfl
  | succ links => rw [trail_succ]; split <;> simp_all

theorem mem_trail_self (links : Nat) (p : π) : p ∈ trail leads node links p := by
  cases links with
  | zero => exact List.mem_singleton_self p
  | succ links => exact List.mem_cons_self

/-- Only the entries on the way matter. -/
theorem follow_congr {node' : π → Option (Node τ)} {links : Nat} {p : π}
    (hsame : ∀ q ∈ trail leads node links p, node' q = node q) :
    follow leads node' links p = follow leads node links p ∧ trail leads node' links p = trail leads node links p := by
  induction links generalizing p with
  | zero =>
    rw [follow_zero, follow_zero, hsame p (mem_trail_self 0 p)]
    exact ⟨rfl, rfl⟩
  | succ links ih =>
    have hp := hsame p (mem_trail_self (links + 1) p)
    obtain ⟨text, hlink⟩ | hend := link_or_end node p
    · rw [hlink] at hp
      rw [trail_link hlink] at hsame
      rw [follow_link hlink, follow_link hp, trail_link hlink, trail_link hp]
      obtain ⟨hfollow, htrail⟩ := ih (fun q hq => hsame q (List.mem_cons_of_mem p hq))
      exact ⟨hfollow, congrArg (List.cons p) htrail⟩
    · rw [follow_end hend, trail_end hend, follow_end (hp ▸ hend), trail_end (hp ▸ hend)]
      exact ⟨rfl, rfl⟩

/-- What is found with some links is found with more. -/
theorem follow_more {links more : Nat} {p q : π} (hfound : follow leads node links p = some q) (hle : links ≤ more) :
    follow leads node more p = some q ∧ trail leads node more p = trail leads node links p := by
  induction links generalizing p more with
  | zero =>
    have hend := end_of_follow_zero hfound
    rw [follow_end hend] at hfound ⊢
    rw [trail_end hend, trail_end hend]
    exact ⟨hfound, rfl⟩
  | succ links ih =>
    obtain ⟨more, rfl⟩ : ∃ m, more = m + 1 := ⟨more - 1, by omega⟩
    obtain ⟨text, hlink⟩ | hend := link_or_end node p
    · rw [follow_link hlink] at hfound ⊢
      rw [trail_link hlink, trail_link hlink]
      obtain ⟨hfollow, htrail⟩ := ih hfound (by omega : links ≤ more)
      exact ⟨hfollow, congrArg (List.cons p) htrail⟩
    · rw [follow_end hend] at hfound ⊢
      rw [trail_end hend, trail_end hend]
      exact ⟨hfound, rfl⟩

/-- All entries on the way stand for the same. -/
theorem follow_of_mem {links : Nat} {p q r : π} (hfound : follow leads node links p = some q)
    (hr : r ∈ trail leads node links p) : ∃ left, left ≤ links ∧ follow leads node left r = some q := by
  induction links generalizing p with
  | zero =>
    obtain rfl := List.mem_singleton.mp hr
    exact ⟨0, Nat.le_refl 0, hfound⟩
  | succ links ih =>
    obtain ⟨text, hlink⟩ | hend := link_or_end node p
    · rw [trail_link hlink] at hr
      obtain rfl | hr := List.mem_cons.mp hr
      · exact ⟨links + 1, Nat.le_refl _, hfound⟩
      · rw [follow_link hlink] at hfound
        obtain ⟨left, hle, hleft⟩ := ih hfound hr
        exact ⟨left, by omega, hleft⟩
    · rw [trail_end hend] at hr
      obtain rfl := List.mem_singleton.mp hr
      exact ⟨links + 1, Nat.le_refl _, hfound⟩

theorem follow_spec {links : Nat} {p q : π} (hfound : follow leads node links p = some q) :
    q ∈ trail leads node links p ∧ ∀ text, node q ≠ some (.link text) := by
  induction links generalizing p with
  | zero =>
    have hend := end_of_follow_zero hfound
    rw [follow_end hend] at hfound
    obtain rfl := Option.some.inj hfound
    exact ⟨mem_trail_self 0 p, hend⟩
  | succ links ih =>
    obtain ⟨text, hlink⟩ | hend := link_or_end node p
    · rw [follow_link hlink] at hfound
      rw [trail_link hlink]
      exact ⟨List.mem_cons_of_mem p (ih hfound).1, (ih hfound).2⟩
    · rw [follow_end hend] at hfound
      obtain rfl := Option.some.inj hfound
      exact ⟨mem_trail_self (links + 1) p, hend⟩

/-- If the name stands for something that exists, every entry on the way exists. -/
theorem node_ne_none_of_mem {links : Nat} {p q r : π} (hfound : follow leads node links p = some q)
    (hq : node q ≠ none) (hr : r ∈ trail leads node links p) : node r ≠ none := by
  obtain ⟨left, -, hleft⟩ := follow_of_mem hfound hr
  obtain ⟨text, hlink⟩ | hend := link_or_end node r
  · rw [hlink]
    exact Option.some_ne_none _
  · rw [follow_end hend] at hleft
    obtain rfl := Option.some.inj hleft
    exact hq

/-- A link on its own way leads nowhere. -/
theorem follow_loop {links : Nat} {p : π} {text : τ} (hlink : node p = some (.link text))
    (hmem : p ∈ trail leads node links (leads p text)) : follow leads node links (leads p text) = none := by
  induction links using Nat.strong_induction_on with
  | _ links ih =>
    by_contra hsome
    obtain ⟨q, hq⟩ := Option.ne_none_iff_exists'.mp hsome
    obtain ⟨left, hle, hleft⟩ := follow_of_mem hq hmem
    cases left with
    | zero => exact absurd hlink (end_of_follow_zero hleft text)
    | succ left =>
      rw [follow_link hlink] at hleft
      obtain ⟨-, htrail⟩ := follow_more hleft (by omega : left ≤ links)
      rw [htrail] at hmem
      rw [ih left (by omega) hmem] at hleft
      cases hleft

/-- An empty end that is filled with a file is still the end. -/
theorem follow_fill [DecidableEq π] {links : Nat} {p q : π} (hfound : follow leads node links p = some q) (id : Nat) :
    follow leads (Function.update node q (some (.file id))) links p = some q := by
  induction links generalizing p with
  | zero =>
    have hend := end_of_follow_zero hfound
    rw [follow_end hend] at hfound
    obtain rfl := Option.some.inj hfound
    exact follow_end (fun text => by rw [Function.update_self]; simp) 0
  | succ links ih =>
    obtain ⟨text, hlink⟩ | hend := link_or_end node p
    · have hne : p ≠ q := fun h => (follow_spec hfound).2 text (h ▸ hlink)
      have hkept : Function.update node q (some (.file id)) p = some (.link text) := by
        rw [Function.update_of_ne hne, hlink]
      rw [follow_link hlink] at hfound
      rw [follow_link hkept]
      exact ih hfound
    · rw [follow_end hend] at hfound
      obtain rfl := Option.some.inj hfound
      exact follow_end (fun text => by rw [Function.update_self]; simp) (links + 1)

end Follow

namespace LinkedFiles

variable {π τ α : Type} [DecidableEq π] (leads : π → τ → π) (links : Nat)

section Operations

variable (fs : LinkedFiles π τ α)

/-- The file that a name leads to. -/
def stat (p : π) : Option Nat :=
  (follow leads fs.node links p).bind fun q =>
    match fs.node q with
    | some (.file i) => some i
    | _ => none

def read (p : π) : Option α := (fs.stat leads links p).map fs.data

def unlink (p : π) : LinkedFiles π τ α where
  node := Function.update fs.node p none
  data := fs.data
  next := fs.next
  bound := by
    intro q i h
    rw [Function.update_apply] at h
    split at h
    · cases h
    · exact fs.bound q i h

/-- One more name for what an entry is, be it a symbolic link. -/
def link (p q : π) : LinkedFiles π τ α where
  node := Function.update fs.node q (fs.node p)
  data := fs.data
  next := fs.next
  bound := by
    intro r i h
    rw [Function.update_apply] at h
    split at h
    · exact fs.bound p i h
    · exact fs.bound r i h

def symlink (text : τ) (p : π) : LinkedFiles π τ α where
  node := Function.update fs.node p (some (.link text))
  data := fs.data
  next := fs.next
  bound := by
    intro q i h
    rw [Function.update_apply] at h
    split at h
    · cases h
    · exact fs.bound q i h

def create (p : π) (v : α) : LinkedFiles π τ α where
  node := Function.update fs.node p (some (.file fs.next))
  data := Function.update fs.data fs.next v
  next := fs.next + 1
  bound := by
    intro q i h
    rw [Function.update_apply] at h
    split at h
    · cases h
      exact Nat.lt_succ_self _
    · exact Nat.lt_succ_of_lt (fs.bound q i h)

/-- What a name leads to is written, or created if it is not there. -/
def write (p : π) (v : α) : LinkedFiles π τ α :=
  match fs.stat leads links p with
  | some i => { fs with data := Function.update fs.data i v }
  | none =>
    match follow leads fs.node links p with
    | some q => fs.create q v
    | none => fs

end Operations

/-- Apart from the entries that are removed, what exists stays as it is. -/
structure Beside (removed : List π) (fs fs' : LinkedFiles π τ α) : Prop where
  node : ∀ q, q ∉ removed → fs.node q ≠ none → fs'.node q = fs.node q
  data : ∀ i, i < fs.next → fs'.data i = fs.data i
  next : fs.next ≤ fs'.next

variable {leads links} {fs fs' fs'' : LinkedFiles π τ α} {removed : List π}

omit [DecidableEq π] in
theorem stat_eq_some {p : π} {i : Nat} :
    fs.stat leads links p = some i ↔ ∃ q, follow leads fs.node links p = some q ∧ fs.node q = some (.file i) := by
  rw [stat, Option.bind_eq_some_iff]
  refine exists_congr (fun q => and_congr_right (fun _ => ?_))
  split
  · rename_i j hj
    rw [hj, Option.some.injEq, Option.some.injEq, Node.file.injEq]
  · rename_i hno
    refine ⟨fun h => absurd h (by simp), fun h => absurd h (hno i)⟩

omit [DecidableEq π] in
theorem stat_lt {p : π} {i : Nat} (h : fs.stat leads links p = some i) : i < fs.next := by
  obtain ⟨q, -, hq⟩ := stat_eq_some.mp h
  exact fs.bound q i hq

omit [DecidableEq π] in
theorem Beside.refl (fs : LinkedFiles π τ α) : Beside removed fs fs :=
  ⟨fun _ _ _ => rfl, fun _ _ => rfl, Nat.le_refl _⟩

omit [DecidableEq π] in
theorem Beside.trans (h : Beside removed fs fs') (h' : Beside removed fs' fs'') : Beside removed fs fs'' := by
  refine ⟨fun q hq hnode => ?_, fun i hi => ?_, Nat.le_trans h.next h'.next⟩
  · have hsame := h.node q hq hnode
    exact (h'.node q hq (hsame ▸ hnode)).trans hsame
  · exact (h'.data i (Nat.lt_of_lt_of_le hi h.next)).trans (h.data i hi)

omit [DecidableEq π] in
theorem Beside.mono {removed' : List π} (h : Beside removed fs fs') (hsub : removed ⊆ removed') :
    Beside removed' fs fs' :=
  ⟨fun q hq hnode => h.node q (fun hmem => hq (hsub hmem)) hnode, h.data, h.next⟩

theorem beside_unlink (fs : LinkedFiles π τ α) (p : π) : Beside [p] fs (fs.unlink p) :=
  ⟨fun _ hq _ => Function.update_of_ne (fun h => hq (List.mem_singleton.mpr h)) _ _, fun _ _ => rfl, Nat.le_refl _⟩

/-- Apart from the entry itself nothing is different without the removal, or without a new name. -/
theorem beside_unlink_back (fs : LinkedFiles π τ α) (p : π) : Beside [p] (fs.unlink p) fs :=
  ⟨fun _ hq _ => (Function.update_of_ne (fun h => hq (List.mem_singleton.mpr h)) _ _).symm, fun _ _ => rfl,
    Nat.le_refl _⟩

theorem beside_link_back (fs : LinkedFiles π τ α) (p q : π) : Beside [q] (fs.link p q) fs :=
  ⟨fun _ hr _ => (Function.update_of_ne (fun h => hr (List.mem_singleton.mpr h)) _ _).symm, fun _ _ => rfl,
    Nat.le_refl _⟩

/-- An empty entry is not one of those that are there. -/
theorem update_free {p q : π} {x : Option (Node τ)} (hfree : fs.node p = none) (hnode : fs.node q ≠ none) :
    Function.update fs.node p x q = fs.node q := by
  refine Function.update_of_ne ?_ _ _
  rintro rfl
  exact hnode hfree

theorem beside_link {p q : π} (hfree : fs.node q = none) : Beside removed fs (fs.link p q) :=
  ⟨fun _ _ hnode => update_free hfree hnode, fun _ _ => rfl, Nat.le_refl _⟩

theorem beside_symlink {text : τ} {p : π} (hfree : fs.node p = none) : Beside removed fs (fs.symlink text p) :=
  ⟨fun _ _ hnode => update_free hfree hnode, fun _ _ => rfl, Nat.le_refl _⟩

theorem beside_create {p : π} (v : α) (hfree : fs.node p = none) : Beside removed fs (fs.create p v) :=
  ⟨fun _ _ hnode => update_free hfree hnode,
    fun _ hi => Function.update_of_ne (Nat.ne_of_lt hi) _ _, Nat.le_succ _⟩

omit [DecidableEq π] in
/-- The end of a way that is no file is an empty entry. -/
theorem node_end_none {p q : π} (hfollow : follow leads fs.node links p = some q)
    (hstat : fs.stat leads links p = none) : fs.node q = none := by
  cases hnode : fs.node q with
  | none => rfl
  | some n =>
    cases n with
    | file i =>
      rw [stat_eq_some.mpr ⟨q, hfollow, hnode⟩] at hstat
      cases hstat
    | link text => exact absurd hnode ((follow_spec hfollow).2 text)

theorem beside_write {p : π} (v : α) (hnone : fs.stat leads links p = none) :
    Beside removed fs (fs.write leads links p v) := by
  rw [write, hnone]
  cases hfollow : follow leads fs.node links p with
  | none => exact Beside.refl fs
  | some q => exact beside_create v (node_end_none hfollow hnone)

omit [DecidableEq π] in
/-- What no removed entry is on the way to is still read. -/
theorem Beside.stat (h : Beside removed fs fs') {p : π} {i : Nat} (hstat : fs.stat leads links p = some i)
    (hway : ∀ q ∈ removed, q ∉ trail leads fs.node links p) : fs'.stat leads links p = some i := by
  obtain ⟨q, hfollow, hq⟩ := stat_eq_some.mp hstat
  have hsame : ∀ r ∈ trail leads fs.node links p, fs'.node r = fs.node r := fun r hr =>
    h.node r (fun hmem => hway r hmem hr) (node_ne_none_of_mem hfollow (by rw [hq]; exact Option.some_ne_none _) hr)
  refine stat_eq_some.mpr ⟨q, (follow_congr hsame).1.trans hfollow, ?_⟩
  rw [hsame q (follow_spec hfollow).1, hq]

omit [DecidableEq π] in
theorem Beside.read (h : Beside removed fs fs') {p : π} {v : α} (hread : fs.read leads links p = some v)
    (hway : ∀ q ∈ removed, q ∉ trail leads fs.node links p) : fs'.read leads links p = some v := by
  obtain ⟨i, hstat, rfl⟩ := Option.map_eq_some_iff.mp hread
  rw [LinkedFiles.read, h.stat hstat hway, Option.map_some, h.data i (stat_lt hstat)]

theorem read_write_self {p q : π} (v : α) (hfollow : follow leads fs.node links p = some q) :
    (fs.write leads links p v).read leads links p = some v := by
  rw [write]
  cases hstat : fs.stat leads links p with
  | some i =>
    have hsame : LinkedFiles.stat leads links { fs with data := Function.update fs.data i v } p = some i := hstat
    simp only [read, hsame, Option.map_some, Function.update_self]
  | none =>
    have hcreated : (fs.create q v).stat leads links p = some fs.next :=
      stat_eq_some.mpr ⟨q, follow_fill hfollow fs.next, Function.update_self _ _ _⟩
    simp only [hfollow]
    rw [read, hcreated, Option.map_some]
    exact congrArg some (Function.update_self _ _ _)

/-- A write shows in the file that is written only. -/
theorem read_write {p r : π} (v : α) {w : α} (hread : fs.read leads links r = some w)
    (hother : fs.stat leads links p ≠ fs.stat leads links r) :
    (fs.write leads links p v).read leads links r = some w := by
  cases hstat : fs.stat leads links p with
  | none => exact (@beside_write π τ α _ leads links fs [] p v hstat).read hread (fun _ h => absurd h List.not_mem_nil)
  | some i =>
    obtain ⟨j, hr, rfl⟩ := Option.map_eq_some_iff.mp hread
    rw [hstat, hr] at hother
    have hne : j ≠ i := fun h => hother (h ▸ rfl)
    have hsame : LinkedFiles.stat leads links { fs with data := Function.update fs.data i v } r = some j := hr
    simp only [write, hstat, read, hsame, Option.map_some, Function.update_of_ne hne]

/-- Whatever is written, the entries that there are stay. -/
theorem node_write {p q : π} (v : α) (hnode : fs.node q ≠ none) : (fs.write leads links p v).node q = fs.node q := by
  cases hstat : fs.stat leads links p with
  | none => exact (@beside_write π τ α _ leads links fs [] p v hstat).node q List.not_mem_nil hnode
  | some i => simp only [write, hstat]

end LinkedFiles

end Acng.Lib
