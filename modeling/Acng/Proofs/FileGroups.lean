import Acng.FileGroups
import Acng.Lib.Rings

namespace Acng
open Lib

namespace FileGroup

variable (m : MetaFiles) (group : FileGroup)

/-- The paths of a group that its chain is made of. -/
def members : List Bytes :=
  group.paths.filter (fun path => stays m path && (m.find? path).isSome)

/-- The same, in their order. -/
def ring : List Bytes := (group.sorted m).paths.filter (fun path => (m.find? path).isSome)

theorem mem_ring (path : Bytes) : path ∈ group.ring m ↔ path ∈ group.members m := by
  simp only [ring, sorted, members, List.mem_filter, List.mem_insertionSort, Bool.and_eq_true,
    and_assoc]

theorem ring_sorted : (group.ring m).Pairwise (fun a b => bytesLt b a = false) :=
  (List.pairwise_insertionSort _ _).filter _

end FileGroup

theorem DaisyChain.fold_link (pfirst pprev : Bytes) (l : List Bytes) (bro : Bytes → Bytes) :
    (l.foldl DaisyChain.add ⟨some (pfirst, pprev), bro⟩).close = Rings.linkFrom pfirst pprev l bro := by
  induction l generalizing pprev bro with
  | nil => rfl
  | cons next l ih => exact ih next _

theorem FileGroup.chain_link (m : MetaFiles) (bro : Bytes → Bytes) (group : FileGroup) :
    (group.sorted m).chain m bro = Rings.link (group.ring m) bro := by
  unfold chain ring
  cases (group.sorted m).paths.filter (fun path => (m.find? path).isSome) with
  | nil => rfl
  | cons first l => exact DaisyChain.fold_link first first l bro

namespace FileGroups

variable (m : MetaFiles) (idxGroups : FileGroups)

theorem sortAndInterconnectGroupData_eq :
    sortAndInterconnectGroupData m idxGroups =
      (idxGroups.map (fun it => (it.1, it.2.sorted m)),
        Rings.linkAll (idxGroups.map (fun it => it.2.ring m)) id) := by
  have hfold : ∀ (done : FileGroups) (bro : Bytes → Bytes),
      idxGroups.foldl (fun groups it =>
        (groups.1 ++ [(it.1, it.2.sorted m)], (it.2.sorted m).chain m groups.2)) (done, bro) =
        (done ++ idxGroups.map (fun it => (it.1, it.2.sorted m)),
          Rings.linkAll (idxGroups.map (fun it => it.2.ring m)) bro) := by
    induction idxGroups with
    | nil => simp [Rings.linkAll]
    | cons it idxGroups ih =>
      intro done bro
      rw [List.foldl_cons, ih, FileGroup.chain_link, List.map_cons, List.map_cons, List.append_assoc]
      rfl
  exact hfold [] id

/-- No group has a part of its members in the groups behind it, unless all of them are there. -/
def Unbroken : Prop := Rings.Undisturbed (idxGroups.map (fun it => it.2.members m))

theorem sortAndInterconnectGroupData_groups :
    (sortAndInterconnectGroupData m idxGroups).1 = idxGroups.map (fun it => (it.1, it.2.sorted m)) := by
  rw [sortAndInterconnectGroupData_eq]

theorem sortAndInterconnectGroupData_bro :
    (sortAndInterconnectGroupData m idxGroups).2 =
      Rings.linkAll (idxGroups.map (fun it => it.2.ring m)) id := by
  rw [sortAndInterconnectGroupData_eq]

theorem mem_rings {x : Bytes} (h : x ∈ (idxGroups.map (fun it => it.2.ring m)).flatten) :
    (m.find? x).isSome = true := by
  obtain ⟨l, hl, hx⟩ := List.mem_flatten.mp h
  obtain ⟨it, -, rfl⟩ := List.mem_map.mp hl
  exact (List.mem_filter.mp hx).2

end FileGroups

/-- The loop comes to an end where the links lead back, and it marks what they lead to. -/
theorem markSiblings_returns {bro : Bytes → Bytes} {att : Bytes} {n : Nat} {next : Bytes}
    (h : bro^[n] next = att) : ∃ marked, markSiblings bro att (n + 1) next = some marked ∧
      ∀ path ∈ marked, ∃ k, path = bro^[k] next := by
  induction n generalizing next with
  | zero =>
    refine ⟨[], ?_, by simp⟩
    have hnext : next = att := h
    rw [markSiblings, if_pos hnext]
  | succ n ih =>
    by_cases hnext : next = att
    · refine ⟨[], ?_, by simp⟩
      rw [markSiblings, if_pos hnext]
    · obtain ⟨marked, hmarked, hpaths⟩ := ih h
      refine ⟨next :: marked, ?_, ?_⟩
      · rw [markSiblings, if_neg hnext, hmarked, Option.map_some]
      · intro path hpath
        obtain rfl | hpath := List.mem_cons.mp hpath
        · exact ⟨0, rfl⟩
        · obtain ⟨k, rfl⟩ := hpaths path hpath
          exact ⟨k + 1, rfl⟩

/-- The links from a descriptor lead back to it, and what is marked along with it is of its group. -/
def FileGroups.SiblingsOf (groups : FileGroups) (bro : Bytes → Bytes) (att : Bytes) : Prop :=
  (∃ n, 0 < n ∧ bro^[n] att = att) ∧
    ∃ rounds marked, markSiblings bro att rounds (bro att) = some marked ∧
      ∀ path ∈ marked, ∃ it ∈ groups, att ∈ it.2.paths ∧ path ∈ it.2.paths

namespace FileGroups

theorem rings_sorted (m : MetaFiles) (idxGroups : FileGroups) :
    ∀ l ∈ idxGroups.map (fun it => it.2.ring m), l.Pairwise (fun a b => bytesLt b a = false) := by
  intro l hl
  obtain ⟨it, -, rfl⟩ := List.mem_map.mp hl
  exact it.2.ring_sorted m

theorem unbroken_iff (m : MetaFiles) (idxGroups : FileGroups) :
    idxGroups.Unbroken m ↔ ∀ x, x ∈ Function.periodicPts (sortAndInterconnectGroupData m idxGroups).2 := by
  rw [sortAndInterconnectGroupData_bro, Rings.returns_iff (rings_sorted m idxGroups)]
  exact (Rings.undisturbed_congr (fun it => it.2.mem_ring m) idxGroups).symm

theorem siblings_of_unbroken {m : MetaFiles} {idxGroups : FileGroups} (h : idxGroups.Unbroken m)
    (att : Bytes) : SiblingsOf (sortAndInterconnectGroupData m idxGroups).1
      (sortAndInterconnectGroupData m idxGroups).2 att := by
  obtain ⟨n, hpos, hn⟩ := (unbroken_iff m idxGroups).mp h att
  refine ⟨⟨n, hpos, hn⟩, ?_⟩
  obtain ⟨n, rfl⟩ := Nat.exists_eq_succ_of_ne_zero hpos.ne'
  have hback : (sortAndInterconnectGroupData m idxGroups).2^[n]
      ((sortAndInterconnectGroupData m idxGroups).2 att) = att := hn
  obtain ⟨marked, hmarked, hpaths⟩ := markSiblings_returns hback
  rw [sortAndInterconnectGroupData_bro] at hmarked hpaths ⊢
  rw [sortAndInterconnectGroupData_groups]
  by_cases hring : att ∈ (idxGroups.map (fun it => it.2.ring m)).flatten
  · refine ⟨n + 1, marked, hmarked, fun path hpath => ?_⟩
    have hund := (Rings.undisturbed_congr (fun it => it.2.mem_ring m) idxGroups).mpr h
    obtain ⟨l, hl, hatt, hstay⟩ := Rings.linkAll_stays hund id hring
    obtain ⟨it, hit, rfl⟩ := List.mem_map.mp hl
    obtain ⟨k, rfl⟩ := hpaths path hpath
    have hmem := hstay (k + 1)
    rw [Function.iterate_succ_apply] at hmem
    refine ⟨(it.1, it.2.sorted m), ?_, (List.mem_filter.mp hatt).1, (List.mem_filter.mp hmem).1⟩
    exact List.mem_map.mpr ⟨it, hit, rfl⟩
  · have hself : Rings.linkAll (idxGroups.map (fun it => it.2.ring m)) id att = att :=
      Rings.linkAll_outside hring id
    refine ⟨1, [], ?_, by simp⟩
    simp only [markSiblings, hself, if_true]

/-- The groups of these release files, as far as they are in the cache. -/
def ofReleases (m : MetaFiles) (releaseFilesRel : List (Bytes × Option Bytes)) : FileGroups :=
  filterGroupData m (extractAllRawReleaseData releaseFilesRel)

/-- Every descriptor is in a ring with those of its group, once the groups are interconnected. -/
def InRings (m : MetaFiles) (idxGroups : FileGroups) : Prop :=
  ∀ att, (m.find? att).isSome = true →
    SiblingsOf (sortAndInterconnectGroupData m idxGroups).1
      (sortAndInterconnectGroupData m idxGroups).2 att

theorem siblings_ring_iff (m : MetaFiles) (releaseFilesRel : List (Bytes × Option Bytes)) :
    (ofReleases m releaseFilesRel).InRings m ↔ (ofReleases m releaseFilesRel).Unbroken m := by
  generalize ofReleases m releaseFilesRel = idxGroups
  constructor
  · intro h
    rw [unbroken_iff]
    intro x
    by_cases hx : (m.find? x).isSome = true
    · exact (h x hx).1
    · have hout : x ∉ (idxGroups.map (fun it => it.2.ring m)).flatten :=
        fun hring => hx (mem_rings m idxGroups hring)
      refine ⟨1, Nat.one_pos, ?_⟩
      rw [sortAndInterconnectGroupData_bro]
      exact Rings.linkAll_outside hout id
  · exact fun h att _ => siblings_of_unbroken h att

/-- A release file of the whole repository, and one of a directory below it that names another content
for a file there. -/
def wholeRelease : Bytes :=
  lit "SHA256:\n " ++ List.replicate 64 97 ++ lit " 1 sub/Packages\n " ++ List.replicate 64 98 ++
    lit " 1 sub/Packages.gz\n"

def partRelease : Bytes := lit "SHA256:\n " ++ List.replicate 64 99 ++ lit " 1 Packages.gz\n"

theorem parse_wholeRelease :
    parseAndProcessMetaFile (lit "repo/Release") .release false (some wholeRelease) =
      [⟨⟨1, .sha256, List.replicate 32 170⟩, lit "repo/sub/", lit "Packages"⟩,
        ⟨⟨1, .sha256, List.replicate 32 187⟩, lit "repo/sub/", lit "Packages.gz"⟩] := by
  decide

theorem parse_partRelease :
    parseAndProcessMetaFile (lit "repo/sub/Release") .release false (some partRelease) =
      [⟨⟨1, .sha256, List.replicate 32 204⟩, lit "repo/sub/", lit "Packages.gz"⟩] := by
  decide

def twoReleases : List (Bytes × Option Bytes) :=
  [(lit "repo/Release", some wholeRelease), (lit "repo/sub/Release", some partRelease)]

def twoReleasesGroups : FileGroups :=
  [(⟨lit "Packages", 1, .sha256, List.replicate 32 170⟩,
      ⟨[lit "repo/sub/Packages", lit "repo/sub/Packages.gz"], {}⟩),
    (⟨lit "Packages.gz", 1, .sha256, List.replicate 32 204⟩, ⟨[lit "repo/sub/Packages.gz"], {}⟩)]

theorem extract_twoReleases : extractAllRawReleaseData twoReleases = twoReleasesGroups := by
  have hwhole : File2Cid.ofRelease (lit "repo/Release") (some wholeRelease) =
      [(lit "repo/sub/Packages", ⟨lit "Packages", 1, .sha256, List.replicate 32 170⟩),
        (lit "repo/sub/Packages.gz", ⟨lit "Packages.gz", 1, .sha256, List.replicate 32 187⟩)] := by
    rw [File2Cid.ofRelease, parse_wholeRelease]
    decide
  have hpart : File2Cid.ofRelease (lit "repo/sub/Release") (some partRelease) =
      [(lit "repo/sub/Packages.gz", ⟨lit "Packages.gz", 1, .sha256, List.replicate 32 204⟩)] := by
    rw [File2Cid.ofRelease, parse_partRelease]
    decide
  rw [extractAllRawReleaseData, twoReleases, List.foldl_cons, List.foldl_cons, hwhole, hpart]
  decide

def twoReleasesCache : MetaFiles where
  entries := [lit "repo/Release", lit "repo/sub/Packages", lit "repo/sub/Packages.gz",
    lit "repo/sub/Release"].map (fun path => (path, { vfile_ondisk := true }))
  sorted := by
    unfold OrdMap.Sorted
    decide +kernel

theorem siblings_lost :
    ¬ ∀ (m : MetaFiles) (releaseFilesRel : List (Bytes × Option Bytes)),
      (ofReleases m releaseFilesRel).InRings m := by
  intro h
  have hfilter : ofReleases twoReleasesCache twoReleases = twoReleasesGroups := by
    rw [ofReleases, extract_twoReleases]
    decide
  have hrings : twoReleasesGroups.map (fun it => it.2.ring twoReleasesCache) =
      [[lit "repo/sub/Packages", lit "repo/sub/Packages.gz"], [lit "repo/sub/Packages.gz"]] := by
    decide
  have hnext : Rings.linkAll [[lit "repo/sub/Packages", lit "repo/sub/Packages.gz"],
      [lit "repo/sub/Packages.gz"]] id (lit "repo/sub/Packages") = lit "repo/sub/Packages.gz" := by
    decide
  have hfixed : Rings.linkAll [[lit "repo/sub/Packages", lit "repo/sub/Packages.gz"],
      [lit "repo/sub/Packages.gz"]] id (lit "repo/sub/Packages.gz") = lit "repo/sub/Packages.gz" := by
    decide
  have hatt := h twoReleasesCache twoReleases (lit "repo/sub/Packages") (by decide)
  rw [hfilter, sortAndInterconnectGroupData_bro, hrings] at hatt
  obtain ⟨⟨n, hpos, hn⟩, -⟩ := hatt
  obtain ⟨n, rfl⟩ := Nat.exists_eq_succ_of_ne_zero hpos.ne'
  rw [Function.iterate_succ_apply, hnext, Function.iterate_fixed hfixed] at hn
  exact absurd hn (by decide)

end FileGroups

end Acng
