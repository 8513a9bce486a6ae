import Acng.MetaFiles
import Acng.Proofs.Patch

namespace Acng
open Lib

namespace MetaFiles

def OnDisk (m : MetaFiles) (path : Bytes) : Bool := (m.getFlags path).vfile_ondisk

theorem find?_setFlags {m : MetaFiles} {path : Bytes} {f : IfileAttribs} (hne : path ≠ [])
    (hfind : m.find? path = some f) (change : IfileAttribs → IfileAttribs) (path' : Bytes) :
    (m.setFlags path change).find? path' =
      if path' = path then some (change f) else m.find? path' := by
  have hempty : ¬ path.isEmpty = true := by simpa using hne
  have hflags : m.getFlags path = f := by
    unfold getFlags
    rw [hfind, Option.getD_some]
  unfold setFlags
  rw [if_neg hempty, ← hflags]
  exact OrdMap.lookup_insert bytesLt _ _ _ _

theorem find_of_onDisk {m : MetaFiles} {path : Bytes} (h : m.OnDisk path = true) :
    ∃ f, m.find? path = some f ∧ f.vfile_ondisk = true := by
  unfold OnDisk getFlags at h
  cases hfind : m.find? path with
  | none =>
    rw [hfind] at h
    exact absurd h Bool.false_ne_true
  | some f =>
    rw [hfind] at h
    exact ⟨f, rfl, h⟩

theorem mem_of_onDisk {m : MetaFiles} {path : Bytes} (h : m.OnDisk path = true) :
    path ∈ m.entries.map Prod.fst := by
  obtain ⟨f, hfind, -⟩ := find_of_onDisk h
  exact List.mem_map_of_mem (OrdMap.mem_of_lookup hfind)

end MetaFiles

theorem inRelKey_ne_relKey (d d' : Bytes) : d ++ inRelKey ≠ d' ++ relKey := by
  intro h
  have hin : d ++ inRelKey = (d ++ [47, 73, 110]) ++ lit "Release" := by
    rw [List.append_assoc]
    rfl
  have hrel : d' ++ relKey = (d' ++ [47]) ++ lit "Release" := by
    rw [List.append_assoc]
    rfl
  rw [hin, hrel] at h
  have hlast := congrArg List.getLast? (List.append_cancel_right h)
  simp at hlast

theorem inRelKey_before_relKey (d : Bytes) : bytesLt (d ++ inRelKey) (d ++ relKey) = true := by
  unfold bytesLt
  rw [decide_eq_true_eq, List.map_append, List.map_append]
  exact List.append_left_lt (by decide)

theorem splitDirPath_name (d : Bytes) {fn : Bytes} (h : (47 : UInt8) ∉ fn) :
    splitDirPath (d ++ [47] ++ fn) = (d ++ [47], fn) := by
  have hpos : rfind 47 (d ++ [47] ++ fn) = some d.length := by
    rw [List.append_assoc]
    exact rfind_behind d h
  have hlen : d.length + 1 = (d ++ [47]).length := by simp
  simp only [splitDirPath, hpos]
  rw [hlen, List.take_left, List.drop_left]

theorem inRelKey_name (d : Bytes) : d ++ inRelKey = d ++ [47] ++ lit "InRelease" := by
  rw [List.append_assoc]
  rfl

theorem relKey_name (d : Bytes) : d ++ relKey = d ++ [47] ++ lit "Release" := by
  rw [List.append_assoc]
  rfl

namespace GoodReleases

/-- The file of a directory that is kept, of those that were seen. -/
def choice (seen : List Bytes) (d : Bytes) : Option Bytes :=
  if seen.contains (d ++ inRelKey) then some (lit "InRelease")
  else if seen.contains (d ++ relKey) then some (lit "Release")
  else none

theorem choice_eq (seen : List Bytes) (d : Bytes) :
    choice seen d =
      if d ++ inRelKey ∈ seen then some (lit "InRelease")
      else if d ++ relKey ∈ seen then some (lit "Release")
      else none := by
  simp only [choice, List.contains_iff_mem]

def Outdone (seen : List Bytes) (path : Bytes) : Prop :=
  ∃ d, path = d ++ relKey ∧ path ∈ seen ∧ d ++ inRelKey ∈ seen

def ignored (f : IfileAttribs) : IfileAttribs := { f with parseignore := true }

/-- What the loop knows after it has seen some of the files that are on disk. -/
structure Knows (m : MetaFiles) (seen : List Bytes) (st : GoodReleases) : Prop where
  chosen : ∀ d, st.t.lookup (d ++ [47]) = choice seen d
  dirs : ∀ e ∈ st.t, ∃ d, e.1 = d ++ [47]
  sorted : OrdMap.Sorted bytesLt st.t
  marked : ∀ path, Outdone seen path → st.files.find? path = (m.find? path).map ignored
  kept : ∀ path, ¬ Outdone seen path → st.files.find? path = m.find? path

variable {m : MetaFiles} {seen : List Bytes} {st : GoodReleases}

theorem choice_congr {seen' : List Bytes} {d : Bytes}
    (hinr : d ++ inRelKey ∈ seen' ↔ d ++ inRelKey ∈ seen)
    (hrel : d ++ relKey ∈ seen' ↔ d ++ relKey ∈ seen) : choice seen' d = choice seen d := by
  rw [choice_eq, choice_eq]
  simp only [hinr, hrel]

theorem mem_seen_ne {path p : Bytes} (h : path ≠ p) : path ∈ seen ++ [p] ↔ path ∈ seen := by
  rw [List.mem_append, List.mem_singleton]
  exact or_iff_left h

theorem Knows.onDisk (hk : Knows m seen st) (path : Bytes) :
    (st.files.getFlags path).vfile_ondisk = m.OnDisk path := by
  unfold MetaFiles.OnDisk MetaFiles.getFlags
  by_cases hout : Outdone seen path
  · rw [hk.marked path hout]
    cases m.find? path <;> rfl
  · rw [hk.kept path hout]

theorem Outdone.mono {path p : Bytes} : Outdone seen path → Outdone (seen ++ [p]) path := by
  rintro ⟨d, rfl, hmem, hmem'⟩
  exact ⟨d, rfl, List.mem_append_left _ hmem, List.mem_append_left _ hmem'⟩

/-- A file of another kind leaves what is known. -/
theorem Knows.skip (hk : Knows m seen st) {p : Bytes} (hinr : ∀ d, d ++ inRelKey ≠ p)
    (hrel : ∀ d, d ++ relKey ≠ p) : Knows m (seen ++ [p]) st := by
  have hout : ∀ path, Outdone (seen ++ [p]) path → Outdone seen path := by
    rintro path ⟨d, rfl, hmem, hmem'⟩
    exact ⟨d, rfl, (mem_seen_ne (hrel d)).mp hmem, (mem_seen_ne (hinr d)).mp hmem'⟩
  exact {
    chosen := by
      intro d
      rw [hk.chosen, choice_congr (mem_seen_ne (hinr d)) (mem_seen_ne (hrel d))]
    dirs := hk.dirs
    sorted := hk.sorted
    marked := fun path h => hk.marked path (hout path h)
    kept := fun path h => hk.kept path (fun h' => h h'.mono) }

theorem choice_none {d : Bytes} (h : choice seen d = none) :
    d ++ inRelKey ∉ seen ∧ d ++ relKey ∉ seen := by
  rw [choice_eq] at h
  split at h
  · cases h
  · split at h
    · cases h
    · exact ⟨‹_›, ‹_›⟩

/-- A directory gets its file. -/
theorem Knows.keep (hk : Knows m seen st) {p d fn : Bytes} (hnone : choice seen d = none)
    (hsome : choice (seen ++ [p]) d = some fn) (hinr : ∀ d', d' ≠ d → d' ++ inRelKey ≠ p)
    (hrel : ∀ d', d' ≠ d → d' ++ relKey ≠ p) :
    Knows m (seen ++ [p]) (st.keep (d ++ [47]) fn) := by
  have hout : ∀ path, Outdone (seen ++ [p]) path → Outdone seen path := by
    rintro path ⟨d', rfl, hmem, hmem'⟩
    by_cases hd : d' = d
    · subst hd
      obtain ⟨hno, hno'⟩ := choice_none hnone
      have hp := (List.mem_append.mp hmem).resolve_left hno'
      have hp' := (List.mem_append.mp hmem').resolve_left hno
      rw [List.mem_singleton] at hp hp'
      exact absurd (hp'.trans hp.symm) (inRelKey_ne_relKey _ _)
    · exact ⟨d', rfl, (mem_seen_ne (hrel d' hd)).mp hmem, (mem_seen_ne (hinr d' hd)).mp hmem'⟩
  exact {
    chosen := by
      intro d'
      refine (OrdMap.lookup_insert bytesLt _ _ _ _).trans ?_
      by_cases hd : d' = d
      · rw [if_pos (by rw [hd]), hd, hsome]
      · rw [if_neg (fun h => hd (List.append_cancel_right h)), hk.chosen,
          choice_congr (mem_seen_ne (hinr d' hd)) (mem_seen_ne (hrel d' hd))]
    dirs := by
      intro e he
      obtain rfl | he := OrdMap.mem_insert he
      · exact ⟨d, rfl⟩
      · exact hk.dirs e he
    sorted := OrdMap.sorted_insert _ _ hk.sorted
    marked := fun path h => hk.marked path (hout path h)
    kept := fun path h => hk.kept path (fun h' => h h'.mono) }

/-- A `Release` file is left alone where the directory has an `InRelease` file. -/
theorem Knows.ignore (hk : Knows m seen st) {d : Bytes} (hdisk : m.OnDisk (d ++ relKey) = true)
    (hnew : d ++ relKey ∉ seen) (hinr : d ++ inRelKey ∈ seen) :
    Knows m (seen ++ [d ++ relKey]) (st.ignore (d ++ relKey)) := by
  have hpath : d ++ relKey ≠ [] := by simp [relKey, lit]
  obtain ⟨f, hf, -⟩ := MetaFiles.find_of_onDisk hdisk
  have hnot : ¬ Outdone seen (d ++ relKey) := fun ⟨_, _, hmem, _⟩ => hnew hmem
  have hfind : st.files.find? (d ++ relKey) = some f := by rw [hk.kept _ hnot, hf]
  have hset := MetaFiles.find?_setFlags hpath hfind ignored
  have hother : ∀ d', d' ++ inRelKey ∈ seen ++ [d ++ relKey] ↔ d' ++ inRelKey ∈ seen :=
    fun d' => mem_seen_ne (inRelKey_ne_relKey d' d)
  have hout : ∀ path, path ≠ d ++ relKey → Outdone (seen ++ [d ++ relKey]) path →
      Outdone seen path := by
    rintro path hne ⟨d', rfl, hmem, hmem'⟩
    exact ⟨d', rfl, (mem_seen_ne hne).mp hmem, (hother d').mp hmem'⟩
  have hthis : Outdone (seen ++ [d ++ relKey]) (d ++ relKey) :=
    ⟨d, rfl, List.mem_append_right _ List.mem_cons_self, (hother d).mpr hinr⟩
  exact {
    chosen := by
      intro d'
      refine (hk.chosen d').trans ?_
      by_cases hd : d' = d
      · subst hd
        rw [choice_eq, choice_eq, if_pos hinr, if_pos ((hother d').mpr hinr)]
      · have hrel : d' ++ relKey ≠ d ++ relKey := fun h => hd (List.append_cancel_right h)
        rw [choice_congr (hother d') (mem_seen_ne hrel)]
    dirs := hk.dirs
    sorted := hk.sorted
    marked := by
      intro path hmark
      refine (hset path).trans ?_
      by_cases hp : path = d ++ relKey
      · rw [if_pos hp, hp, hf, Option.map_some]
      · rw [if_neg hp, hk.marked path (hout path hp hmark)]
    kept := by
      intro path hkept
      have hp : path ≠ d ++ relKey := fun h => hkept (h ▸ hthis)
      refine (hset path).trans ?_
      rw [if_neg hp, hk.kept path (fun h => hkept h.mono)] }

/-- One round takes one file in that is on disk. What stands before it is what has been seen. -/
theorem Knows.round (hk : Knows m seen st) {p : Bytes} (hdisk : m.OnDisk p = true)
    (hseen : ∀ q ∈ seen, bytesLt q p = true) : Knows m (seen ++ [p]) (st.round p) := by
  have hnew : p ∉ seen := by
    intro h
    exact Bool.false_ne_true ((order_irrefl p).symm.trans (hseen p h))
  have hdisk' := (hk.onDisk p).trans hdisk
  unfold GoodReleases.round
  by_cases hinr : inRelKey.isSuffixOf p = true
  · obtain ⟨d, rfl⟩ := List.isSuffixOf_iff_suffix.mp hinr
    have hnone : choice seen d = none := by
      have hrel : d ++ relKey ∉ seen := by
        intro h
        have hback := hseen _ h
        rw [order_asymm (inRelKey_before_relKey d)] at hback
        exact Bool.false_ne_true hback
      rw [choice_eq, if_neg hnew, if_neg hrel]
    have hsplit : splitDirPath (d ++ inRelKey) = (d ++ [47], lit "InRelease") := by
      rw [inRelKey_name]
      exact splitDirPath_name d (by decide)
    simp only [hinr, hdisk', hsplit, hk.chosen, hnone, Bool.not_true, Bool.false_and,
      Bool.false_eq_true, if_false, Option.getD_none, List.isEmpty_nil, if_true]
    refine hk.keep hnone ?_ ?_ ?_
    · rw [choice_eq, if_pos (List.mem_append_right _ List.mem_cons_self)]
    · exact fun d' hd h => hd (List.append_cancel_right h)
    · exact fun d' _ h => inRelKey_ne_relKey d d' h.symm
  · rw [Bool.not_eq_true] at hinr
    by_cases hrel : relKey.isSuffixOf p = true
    · obtain ⟨d, rfl⟩ := List.isSuffixOf_iff_suffix.mp hrel
      have hsplit : splitDirPath (d ++ relKey) = (d ++ [47], lit "Release") := by
        rw [relKey_name]
        exact splitDirPath_name d (by decide)
      simp only [hinr, hrel, hdisk', hsplit, hk.chosen, Bool.not_true, Bool.not_false, Bool.and_false,
        Bool.false_eq_true, if_false]
      by_cases hfirst : d ++ inRelKey ∈ seen
      · have hsome : choice seen d = some (lit "InRelease") := by rw [choice_eq, if_pos hfirst]
        rw [hsome, Option.getD_some, if_neg (by decide)]
        exact hk.ignore hdisk hnew hfirst
      · have hnone : choice seen d = none := by rw [choice_eq, if_neg hfirst, if_neg hnew]
        rw [hnone, Option.getD_none, if_pos List.isEmpty_nil]
        refine hk.keep hnone ?_ ?_ ?_
        · rw [choice_eq, if_neg (fun h => hfirst ((mem_seen_ne (inRelKey_ne_relKey d d)).mp h)),
            if_pos (List.mem_append_right _ List.mem_cons_self)]
        · exact fun d' _ => inRelKey_ne_relKey d' d
        · exact fun d' hd h => hd (List.append_cancel_right h)
    · rw [Bool.not_eq_true] at hrel
      simp only [hinr, hrel, Bool.not_false, Bool.and_self, if_true]
      refine hk.skip ?_ ?_
      · rintro d rfl
        rw [List.isSuffixOf_iff_suffix.mpr (List.suffix_append _ _)] at hinr
        cases hinr
      · rintro d rfl
        rw [List.isSuffixOf_iff_suffix.mpr (List.suffix_append _ _)] at hrel
        cases hrel

theorem Knows.round_absent (hk : Knows m seen st) {p : Bytes} (hdisk : m.OnDisk p = false) :
    st.round p = st := by
  unfold GoodReleases.round
  simp [hk.onDisk, hdisk]

/-- The whole loop, over files that come in the order of their paths. -/
theorem Knows.rounds {paths : List Bytes} (hk : Knows m seen st)
    (hseen : ∀ q ∈ seen, ∀ p ∈ paths, bytesLt q p = true)
    (hpaths : paths.Pairwise (fun q p => bytesLt q p = true)) :
    Knows m (seen ++ paths.filter m.OnDisk) (paths.foldl GoodReleases.round st) := by
  induction paths generalizing seen st with
  | nil => simpa using hk
  | cons p paths ih =>
    obtain ⟨hp, hpaths⟩ := List.pairwise_cons.mp hpaths
    have hrest : ∀ q ∈ seen, ∀ p' ∈ paths, bytesLt q p' = true :=
      fun q hq p' hp' => hseen q hq p' (List.mem_cons_of_mem _ hp')
    rw [List.foldl_cons]
    by_cases hdisk : m.OnDisk p = true
    · have hnext := hk.round hdisk (fun q hq => hseen q hq p List.mem_cons_self)
      rw [List.filter_cons_of_pos hdisk, List.append_cons]
      refine ih hnext ?_ hpaths
      intro q hq p' hp'
      obtain hq | hq := List.mem_append.mp hq
      · exact hrest q hq p' hp'
      · rw [List.mem_singleton.mp hq]
        exact hp p' hp'
    · rw [List.filter_cons_of_neg hdisk, hk.round_absent (Bool.not_eq_true _ ▸ hdisk)]
      exact ih hk hrest hpaths

end GoodReleases

namespace MetaFiles

variable (m : MetaFiles)

/-- The directory `d/` has an index file of its release on disk. -/
def HasRelease (d : Bytes) : Prop := m.OnDisk (d ++ inRelKey) = true ∨ m.OnDisk (d ++ relKey) = true

def preferred (d : Bytes) : Bytes :=
  if m.OnDisk (d ++ inRelKey) then d ++ inRelKey else d ++ relKey

/-- An index file on disk that its directory has another one for. -/
def Outdone (path : Bytes) : Prop :=
  ∃ d, (path = d ++ inRelKey ∨ path = d ++ relKey) ∧ m.OnDisk path = true ∧ path ≠ m.preferred d

variable {m}

theorem Outdone.of_seen {path : Bytes}
    (h : GoodReleases.Outdone ((m.entries.map Prod.fst).filter m.OnDisk) path) : m.Outdone path := by
  obtain ⟨d, rfl, hmem, hmem'⟩ := h
  refine ⟨d, .inr rfl, (List.mem_filter.mp hmem).2, ?_⟩
  rw [preferred, if_pos (List.mem_filter.mp hmem').2]
  exact (inRelKey_ne_relKey d d).symm

theorem mem_seen {path : Bytes} :
    path ∈ (m.entries.map Prod.fst).filter m.OnDisk ↔ m.OnDisk path = true :=
  ⟨fun h => (List.mem_filter.mp h).2, fun h => List.mem_filter.mpr ⟨mem_of_onDisk h, h⟩⟩

theorem Outdone.seen {path : Bytes} (h : m.Outdone path) :
    GoodReleases.Outdone ((m.entries.map Prod.fst).filter m.OnDisk) path := by
  obtain ⟨d, hpath, hdisk, hne⟩ := h
  unfold preferred at hne
  split at hne
  · rename_i hinr
    have hrel := hpath.resolve_left hne
    exact ⟨d, hrel, mem_seen.mpr hdisk, mem_seen.mpr hinr⟩
  · rename_i hinr
    rw [hpath.resolve_right hne] at hdisk
    exact absurd hdisk hinr

theorem choice_seen (d : Bytes) :
    (GoodReleases.choice ((m.entries.map Prod.fst).filter m.OnDisk) d).map (d ++ [47] ++ ·) =
      if m.OnDisk (d ++ inRelKey) || m.OnDisk (d ++ relKey) then some (m.preferred d) else none := by
  rw [GoodReleases.choice_eq]
  unfold preferred
  simp only [mem_seen]
  cases m.OnDisk (d ++ inRelKey) with
  | true => simp [inRelKey_name]
  | false =>
    cases m.OnDisk (d ++ relKey) with
    | true => simp [relKey_name]
    | false => simp

theorem knows_good (m : MetaFiles) :
    GoodReleases.Knows m ((m.entries.map Prod.fst).filter m.OnDisk)
      ((m.entries.map Prod.fst).foldl GoodReleases.round { files := m }) := by
  have hstart : GoodReleases.Knows m [] { files := m } := {
    chosen := fun d => rfl
    dirs := by simp
    sorted := List.Pairwise.nil
    marked := by
      rintro path ⟨d, -, hmem, -⟩
      cases hmem
    kept := fun path _ => rfl }
  have hpaths : (m.entries.map Prod.fst).Pairwise (fun q p => bytesLt q p = true) :=
    List.pairwise_map.mpr m.sorted
  exact hstart.rounds (by simp) hpaths

/-- The entries of the loop's map are a directory and a name without a separator. -/
theorem good_entry {e : Bytes × Bytes}
    (he : e ∈ ((m.entries.map Prod.fst).foldl GoodReleases.round { files := m }).t) :
    ∃ d, m.HasRelease d ∧ e.1 ++ e.2 = m.preferred d ∧ splitDirPath (e.1 ++ e.2) = e := by
  obtain ⟨dir, fn⟩ := e
  have hk := knows_good m
  obtain ⟨d, hd⟩ := hk.dirs _ he
  obtain rfl : dir = d ++ [47] := hd
  have hchoice := (hk.chosen d).symm.trans (OrdMap.lookup_of_mem hk.sorted he)
  have hpref := choice_seen (m := m) d
  rw [hchoice, Option.map_some] at hpref
  have hname : (47 : UInt8) ∉ fn := by
    rw [GoodReleases.choice_eq] at hchoice
    split at hchoice
    · obtain rfl := Option.some.inj hchoice
      decide
    · split at hchoice
      · obtain rfl := Option.some.inj hchoice
        decide
      · cases hchoice
  split at hpref
  · rename_i hany
    exact ⟨d, Bool.or_eq_true_iff.mp hany, Option.some.inj hpref, splitDirPath_name d hname⟩
  · cases hpref

theorem getGoodReleaseFiles_selects (m : MetaFiles) :
    (∀ d, m.HasRelease d →
      m.getGoodReleaseFiles.1.filter (fun path => (splitDirPath path).1 = d ++ [47]) =
        [m.preferred d]) ∧
    (∀ path ∈ m.getGoodReleaseFiles.1, ∃ d, m.HasRelease d ∧ path = m.preferred d) ∧
    (∀ path, m.Outdone path → m.getGoodReleaseFiles.2.find? path =
      (m.find? path).map (fun f => { f with parseignore := true })) ∧
    (∀ path, ¬ m.Outdone path → m.getGoodReleaseFiles.2.find? path = m.find? path) := by
  have hk := knows_good m
  refine ⟨?_, ?_, ?_, ?_⟩
  · intro d hd
    have hdir : ∀ e ∈ ((m.entries.map Prod.fst).foldl GoodReleases.round { files := m }).t,
        decide ((splitDirPath (e.1 ++ e.2)).1 = d ++ [47]) = decide (e.1 = d ++ [47]) := by
      intro e he
      obtain ⟨-, -, -, hsplit⟩ := good_entry he
      rw [hsplit]
    have hpref := choice_seen (m := m) d
    rw [if_pos (Bool.or_eq_true_iff.mpr hd), ← hk.chosen] at hpref
    have hmap : m.getGoodReleaseFiles.1.filter (fun path => (splitDirPath path).1 = d ++ [47]) =
        ((((m.entries.map Prod.fst).foldl GoodReleases.round { files := m }).t.filter
          (fun e => e.1 = d ++ [47])).map (fun kv => kv.1 ++ kv.2)) := by
      unfold getGoodReleaseFiles
      rw [List.filter_map]
      exact congrArg (List.map _) (List.filter_congr hdir)
    rw [hmap, OrdMap.filter_key hk.sorted]
    obtain ⟨fn, hfn, hpath⟩ := Option.map_eq_some_iff.mp hpref
    rw [hfn, ← hpath]
    rfl
  · intro path hpath
    obtain ⟨e, he, rfl⟩ := List.mem_map.mp hpath
    obtain ⟨d, hd, heq, -⟩ := good_entry he
    exact ⟨d, hd, heq⟩
  · exact fun path hout => hk.marked path hout.seen
  · exact fun path hout => hk.kept path (fun h => hout (.of_seen h))

end MetaFiles

end Acng
