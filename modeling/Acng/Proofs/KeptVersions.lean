import Acng.Lib.Ranking
import Acng.Proofs.Expiration

namespace Acng
open Lib Expiration

namespace PkgId

/-- The package name and the architecture suffix. -/
def pkg (id : PkgId) : Bytes × Bytes := (id.prevName, id.prevArcSufx)

theorem samePkg_iff (id other : PkgId) : id.samePkg other = true ↔ other.pkg = id.pkg := by
  simp [samePkg, pkg]

theorem set_fileName {self id : PkgId} {fileName : Bytes} (h : self.set fileName = some id) :
    id.fileName = fileName := by
  unfold set at h
  split at h
  · obtain ⟨-, h⟩ := Option.ite_none_right_eq_some.mp h
    obtain rfl := Option.some.inj h
    rfl
  · cases h

end PkgId

/-- `std::sort` gives the same elements without an inversion, if `dpkg` is a strict order. -/
structure VersionTools.Sorts (tools : VersionTools) (newer : Bytes → Bytes → Bool) : Prop where
  dpkg : tools.hasDpkg = true
  perm : ∀ ids, (tools.sort ids).2.Perm ids
  sorted : ∀ ids, (tools.sort ids).2.Pairwise (fun a b => newer b.ver a.ver = false)

namespace Expiration

/-- The packages among the candidates, in the order in which the container is iterated over. -/
def debIds (t : TrashMap) : List PkgId :=
  ((t.entries.map Sigma.fst).filter (fun name => (lit ".deb").isSuffixOf name)).filterMap
    ({} : PkgId).set

/-- The files of one package and architecture. -/
def filesOf (t : TrashMap) (pkg : Bytes × Bytes) : List PkgId :=
  (debIds t).filter (fun id => id.pkg = pkg)

/-- Fewer than `keepnver` versions of the package are newer. -/
def amongHighest (newer : Bytes → Bytes → Bool) (keepnver : Nat) (t : TrashMap) (id : PkgId) : Bool :=
  rank newer ((filesOf t id.pkg).map PkgId.ver) id.ver < keepnver

/-- The files of a group that `procGroup` keeps. -/
def keptOf (tools : VersionTools) (keepnver : Nat) (group : List PkgId) : List PkgId :=
  (if keepnver < group.length then (tools.sort group).2 else group).take keepnver

/-- The names of all files that are kept. -/
def keptFiles (tools : VersionTools) (keepnver : Nat) (t : TrashMap) : List Bytes :=
  ((versionGroups t).flatMap (keptOf tools keepnver)).map PkgId.fileName

theorem lookup_foldl_insert (f : DiskFileInfo → DiskFileInfo)
    (es : List (Sigma (fun _ : Bytes => DiskFileInfo))) (hes : es.NodupKeys)
    (dirs : AList (fun _ : Bytes => DiskFileInfo)) (dir : Bytes) :
    (es.foldl (fun dirs dirProps => dirs.insert dirProps.1 (f dirProps.2)) dirs).lookup dir =
      if dir ∈ es.keys then (es.dlookup dir).map f else dirs.lookup dir := by
  induction es generalizing dirs with
  | nil => rfl
  | cons e es ih =>
    obtain ⟨d, info⟩ := e
    obtain ⟨hne, hrest⟩ := List.nodupKeys_cons.mp hes
    rw [List.foldl_cons, ih hrest]
    by_cases hd : dir = d
    · subst hd
      rw [if_neg hne, AList.lookup_insert, List.keys_cons, if_pos List.mem_cons_self,
        List.dlookup_cons_eq]
      rfl
    · rw [AList.lookup_insert_ne hd, List.dlookup_cons_ne es ⟨d, info⟩ hd]
      simp [List.keys_cons, hd]

/-- A kept name gets the date of the run in all its directories. -/
theorem at?_keepGroup (now : Int) (t : TrashMap) (fileName name dir : Bytes) :
    (keepGroup now t fileName).at? name dir = (t.at? name dir).map
      (fun info => if name = fileName then { info with nLostAt := now } else info) := by
  unfold keepGroup
  by_cases hname : name = fileName
  · subst hname
    cases hdirs : t.lookup name with
    | none => simp [TrashMap.at?, hdirs]
    | some dirs =>
      have hlookup := lookup_foldl_insert (fun info => { info with nLostAt := now }) dirs.entries
        dirs.nodupKeys dirs dir
      simp only [TrashMap.at?, AList.lookup_insert, hdirs, Option.bind_some, if_true]
      rw [hlookup]
      split
      · rfl
      · next hdir =>
        have hnone : dirs.lookup dir = none := AList.lookup_eq_none.mpr hdir
        rw [hnone]
        rfl
  · simp only [if_neg hname, Option.map_id']
    cases t.lookup fileName with
    | none => rfl
    | some dirs => simp [TrashMap.at?, AList.lookup_insert_ne hname]

theorem at?_foldl_keepGroup (now : Int) (names : List Bytes) (t : TrashMap) (name dir : Bytes) :
    (names.foldl (keepGroup now) t).at? name dir = (t.at? name dir).map
      (fun info => if name ∈ names then { info with nLostAt := now } else info) := by
  induction names generalizing t with
  | nil => simp
  | cons fileName names ih =>
    rw [List.foldl_cons, ih, at?_keepGroup, Option.map_map]
    congr 1
    funext info
    by_cases hname : name = fileName <;> by_cases hnames : name ∈ names <;>
      simp [hname, hnames]

theorem procGroup_snd (tools : VersionTools) (keepnver : Nat) (now : Int) (t : TrashMap)
    (group : List PkgId) :
    (procGroup tools keepnver now t group).2 =
      ((keptOf tools keepnver group).map PkgId.fileName).foldl (keepGroup now) t := by
  unfold procGroup keptOf
  rw [List.foldl_map]
  by_cases hlen : keepnver < group.length <;> simp [hlen]

theorem foldl_procGroup_snd (tools : VersionTools) (keepnver : Nat) (now : Int)
    (groups : List (List PkgId)) (cmds : List VersionCompare) (t : TrashMap) :
    (groups.foldl (fun (s : List VersionCompare × TrashMap) group =>
      (s.1 ++ (procGroup tools keepnver now s.2 group).1,
        (procGroup tools keepnver now s.2 group).2)) (cmds, t)).2 =
      ((groups.flatMap (keptOf tools keepnver)).map PkgId.fileName).foldl (keepGroup now) t := by
  induction groups generalizing cmds t with
  | nil => rfl
  | cons group groups ih =>
    rw [List.foldl_cons, ih, procGroup_snd, List.flatMap_cons, List.map_append, List.foldl_append]

/-- What is known about the candidates afterwards. -/
theorem at?_dropExceptionalVersions (tools : VersionTools) (hdpkg : tools.hasDpkg = true)
    {keepnver : Int32} (hkeep : keepnver ≠ 0) (now : Int) (t : TrashMap) (name dir : Bytes) :
    (dropExceptionalVersions tools keepnver now t).2.at? name dir = (t.at? name dir).map
      (fun info => if name ∈ keptFiles tools keepnver.toUInt32.toNat t
        then { info with nLostAt := now } else info) := by
  unfold dropExceptionalVersions
  cases hempty : t.entries.isEmpty with
  | true =>
    have hnone : t.at? name dir = none := by
      have hlookup : t.lookup name = none := by
        rw [AList.lookup_eq_none, AList.mem_keys, AList.keys, List.isEmpty_iff.mp hempty]
        exact List.not_mem_nil
      rw [TrashMap.at?, hlookup]
      rfl
    simp [hnone]
  | false =>
    have hrun := foldl_procGroup_snd tools keepnver.toUInt32.toNat now (versionGroups t) [] t
    rw [← at?_foldl_keepGroup, keptFiles, ← hrun]
    simp [hkeep, hdpkg]

theorem debIds_nodup (t : TrashMap) : ((debIds t).map PkgId.fileName).Nodup := by
  have hsub (names : List Bytes) :
      ((names.filterMap ({} : PkgId).set).map PkgId.fileName).Sublist names := by
    induction names with
    | nil => exact .slnil
    | cons name names ih =>
      cases hset : ({} : PkgId).set name with
      | none => rw [List.filterMap_cons_none hset]; exact ih.cons name
      | some id =>
        rw [List.filterMap_cons_some hset, List.map_cons, PkgId.set_fileName hset]
        exact ih.cons_cons name
  have hnodup : (t.entries.map Sigma.fst).Nodup := t.nodupKeys
  exact (hnodup.sublist List.filter_sublist).sublist (hsub _)

section Kept

variable {tools : VersionTools} {newer : Bytes → Bytes → Bool}

theorem samePkg_key (back newkey : PkgId) : newkey.samePkg back = true ↔ back.pkg = newkey.pkg :=
  newkey.samePkg_iff back

theorem flatten_versionGroups (t : TrashMap) : (versionGroups t).flatten = debIds t :=
  List.flatten_splitBy (fun (back newkey : PkgId) => newkey.samePkg back) (debIds t)

theorem mem_debIds_of_group {t : TrashMap} {group : List PkgId} (h : group ∈ versionGroups t)
    {id : PkgId} (hid : id ∈ group) : id ∈ debIds t := by
  rw [← flatten_versionGroups]
  exact List.mem_flatten.mpr ⟨group, h, hid⟩

theorem group_nodup {t : TrashMap} {group : List PkgId} (h : group ∈ versionGroups t) :
    group.Nodup :=
  (debIds_nodup t).of_map.sublist (flatten_versionGroups t ▸ List.sublist_flatten_of_mem h)

theorem mem_of_keptOf (hsort : tools.Sorts newer) {keepnver : Nat} {group : List PkgId} {id : PkgId}
    (h : id ∈ keptOf tools keepnver group) : id ∈ group := by
  have hid := List.mem_of_mem_take h
  split at hid
  · exact (hsort.perm group).mem_iff.mp hid
  · exact hid

theorem eq_of_fileName {t : TrashMap} {id other : PkgId} (hid : id ∈ debIds t)
    (hother : other ∈ debIds t) (h : id.fileName = other.fileName) : id = other :=
  List.inj_on_of_nodup_map (debIds_nodup t) hid hother h

theorem eq_group {t : TrashMap} {group group' : List PkgId} (h : group ∈ versionGroups t)
    (h' : group' ∈ versionGroups t) {id : PkgId} (hid : id ∈ group) (hid' : id ∈ group') :
    group = group' := by
  have hnodup : (versionGroups t).flatten.Nodup := by
    rw [flatten_versionGroups]
    exact (debIds_nodup t).of_map
  have : Std.Symm (@List.Disjoint PkgId) := ⟨fun _ _ => List.Disjoint.symm⟩
  by_contra hne
  exact (List.nodup_flatten.mp hnodup).2.forall h h' hne hid hid'

variable [IsStrictTotalOrder Bytes (fun a b => newer a b = true)]

/-- In a group without an inversion the kept versions are in front. -/
theorem amongHighest_closed (keepnver : Nat) {t : TrashMap} {group l : List PkgId}
    (h : group ∈ versionGroups t) (hl : ∀ id ∈ l, id ∈ group)
    (hsorted : l.Pairwise (fun a b => newer b.ver a.ver = false)) :
    l.Pairwise (fun a b => amongHighest newer keepnver t b = true →
      amongHighest newer keepnver t a = true) := by
  refine hsorted.imp_of_mem (fun ha hb hab => ?_)
  have hpkg := same_key_of_mem_splitBy samePkg_key h (hl _ ha) (hl _ hb)
  unfold amongHighest
  rw [hpkg, decide_eq_true_eq, decide_eq_true_eq]
  exact Nat.lt_of_le_of_lt (rank_le _ hab)

/-- A group is treated right exactly if as many of its files are to be kept as the group can keep. -/
theorem keptOf_iff (hsort : tools.Sorts newer) (keepnver : Nat) {t : TrashMap}
    {group : List PkgId} (h : group ∈ versionGroups t) :
    (∀ id ∈ group, id ∈ keptOf tools keepnver group ↔ amongHighest newer keepnver t id = true) ↔
      (group.filter (amongHighest newer keepnver t)).length = min keepnver group.length := by
  unfold keptOf
  by_cases hlen : keepnver < group.length
  · rw [if_pos hlen]
    have hperm := hsort.perm group
    have hclosed := amongHighest_closed keepnver h (fun id hid => hperm.mem_iff.mp hid)
      (hsort.sorted group)
    rw [← (hperm.filter _).length_eq, ← hperm.length_eq,
      ← take_iff_filter (hperm.nodup_iff.mpr (group_nodup h)) hclosed]
    refine forall_congr' (fun id => ?_)
    rw [List.mem_filter, hperm.mem_iff]
    constructor
    · intro hid
      constructor
      · intro htake
        have hmem := hperm.mem_iff.mp (List.mem_of_mem_take htake)
        exact ⟨hmem, (hid hmem).mp htake⟩
      · rintro ⟨hmem, hkept⟩
        exact (hid hmem).mpr hkept
    · intro hid hmem
      rw [hid, and_iff_right hmem]
  · rw [if_neg hlen, List.take_of_length_le (by omega), min_eq_right (by omega),
      List.length_filter_eq_length_iff]
    refine forall_congr' (fun id => forall_congr' (fun hid => ?_))
    rw [iff_true_left hid]

/-- The files of the highest versions are kept and no others exactly if no group has too many or too
few of them. -/
theorem keptFiles_iff (hsort : tools.Sorts newer) (keepnver : Nat) (t : TrashMap) :
    (∀ name, name ∈ keptFiles tools keepnver t ↔
        ∃ id ∈ debIds t, id.fileName = name ∧ amongHighest newer keepnver t id = true) ↔
      ∀ group ∈ versionGroups t,
        (group.filter (amongHighest newer keepnver t)).length = min keepnver group.length := by
  have hmem (name : Bytes) : name ∈ keptFiles tools keepnver t ↔
      ∃ group ∈ versionGroups t, ∃ id ∈ keptOf tools keepnver group, id.fileName = name := by
    simp only [keptFiles, List.mem_map, List.mem_flatMap]
    constructor
    · rintro ⟨id, ⟨group, hgroup, hid⟩, hname⟩
      exact ⟨group, hgroup, id, hid, hname⟩
    · rintro ⟨group, hgroup, id, hid, hname⟩
      exact ⟨id, ⟨group, hgroup, hid⟩, hname⟩
  refine Iff.trans ?_ (forall_congr' (fun group => forall_congr' (fun h =>
    keptOf_iff hsort keepnver h)))
  constructor
  · intro hall group hgroup id hid
    have hdeb := mem_debIds_of_group hgroup hid
    constructor
    · intro hkept
      obtain ⟨other, hother, hname, hhigh⟩ :=
        (hall id.fileName).mp ((hmem _).mpr ⟨group, hgroup, id, hkept, rfl⟩)
      exact eq_of_fileName hother hdeb hname ▸ hhigh
    · intro hhigh
      obtain ⟨group', hgroup', other, hkept, hname⟩ :=
        (hmem _).mp ((hall id.fileName).mpr ⟨id, hdeb, rfl, hhigh⟩)
      have hother := mem_of_keptOf hsort hkept
      obtain rfl := eq_of_fileName (mem_debIds_of_group hgroup' hother) hdeb hname
      rwa [eq_group hgroup hgroup' hid hother]
  · intro hall name
    rw [hmem]
    constructor
    · rintro ⟨group, hgroup, id, hkept, hname⟩
      have hid := mem_of_keptOf hsort hkept
      exact ⟨id, mem_debIds_of_group hgroup hid, hname, (hall group hgroup id hid).mp hkept⟩
    · rintro ⟨id, hid, hname, hhigh⟩
      rw [← flatten_versionGroups] at hid
      obtain ⟨group, hgroup, hid⟩ := List.mem_flatten.mp hid
      exact ⟨group, hgroup, id, (hall group hgroup id hid).mpr hhigh, hname⟩

/-- So many files of a package are to be kept, if no two of them have the same version. -/
theorem length_amongHighest (keepnver : Nat) {t : TrashMap} (pkg : Bytes × Bytes)
    (hvers : ((filesOf t pkg).map PkgId.ver).Nodup) :
    ((filesOf t pkg).filter (amongHighest newer keepnver t)).length =
      min keepnver (filesOf t pkg).length := by
  have hcongr : (filesOf t pkg).filter (amongHighest newer keepnver t) =
      (filesOf t pkg).filter (fun id =>
        decide (rank newer ((filesOf t pkg).map PkgId.ver) id.ver < keepnver)) := by
    refine List.filter_congr (fun id hid => ?_)
    rw [amongHighest, of_decide_eq_true (List.mem_filter.mp hid).2]
  have hlen := @length_filter_rank Bytes newer _ _ _ hvers keepnver
  rw [List.filter_map, List.length_map, List.length_map] at hlen
  rw [hcongr]
  exact hlen

/-- With different versions no group has too many exactly if the files of each package that has more
than are kept stand together. -/
theorem groups_iff_together {keepnver : Nat} (hkeep : 0 < keepnver) {t : TrashMap}
    (hvers : ∀ id ∈ debIds t, ((filesOf t id.pkg).map PkgId.ver).Nodup) :
    (∀ group ∈ versionGroups t,
        (group.filter (amongHighest newer keepnver t)).length = min keepnver group.length) ↔
      ∀ id ∈ debIds t, keepnver < (filesOf t id.pkg).length →
        filesOf t id.pkg <:+: debIds t := by
  constructor
  · intro hall id hid hlong
    have hfiles : filesOf t id.pkg = ((versionGroups t).filter
        (fun run => run.any (fun a => a.pkg = id.pkg))).flatten :=
      filter_key_eq_flatten samePkg_key (debIds t) id.pkg
    have hruns : ∀ run ∈ (versionGroups t).filter (fun run => run.any (fun a => a.pkg = id.pkg)),
        run ∈ versionGroups t := fun run hrun => (List.mem_filter.mp hrun).1
    have hsum := @length_amongHighest newer _ keepnver t id.pkg (hvers id hid)
    rw [hfiles] at hlong hsum
    rw [List.filter_flatten, List.length_flatten, List.map_map] at hsum
    have hparts := List.map_congr_left (fun run hrun => hall run (hruns run hrun))
    replace hsum := (congrArg List.sum hparts).symm.trans hsum
    obtain ⟨run, hrun⟩ := eq_singleton_of_sum_min hkeep
      (fun run hrun => List.ne_nil_of_mem_splitBy (hruns run hrun)) hsum hlong
    rw [hfiles, hrun, List.flatten_singleton, ← flatten_versionGroups]
    exact List.infix_of_mem_flatten (hruns run (hrun ▸ List.mem_singleton_self run))
  · intro hall group hgroup
    obtain ⟨id, hid⟩ := List.exists_mem_of_ne_nil group (List.ne_nil_of_mem_splitBy hgroup)
    have hdeb := mem_debIds_of_group hgroup hid
    have hcount := @length_amongHighest newer _ keepnver t id.pkg (hvers id hdeb)
    have hsub : ∀ a ∈ group, a ∈ filesOf t id.pkg := fun a ha => List.mem_filter.mpr
      ⟨mem_debIds_of_group hgroup ha,
        decide_eq_true (same_key_of_mem_splitBy samePkg_key hgroup ha hid)⟩
    by_cases hlong : keepnver < (filesOf t id.pkg).length
    · have hmem : filesOf t id.pkg ∈ versionGroups t :=
        filter_key_mem_splitBy samePkg_key
          (List.ne_nil_of_mem (hsub id hid)) (hall id hdeb hlong)
      rw [eq_group hgroup hmem hid (hsub id hid)]
      exact hcount
    · -- nothing of this package has to go
      rw [min_eq_right (by omega), List.length_filter_eq_length_iff] at hcount
      have hle : group.length ≤ (filesOf t id.pkg).length :=
        (List.subperm_of_subset (group_nodup hgroup) hsub).length_le
      rw [min_eq_right (by omega), List.length_filter_eq_length_iff]
      exact fun a ha => hcount a (hsub a ha)

end Kept

/-- Nobody else's date changes; and the files of the `keepnver` highest versions of each package are
those that are kept exactly if every group of neighbours has as many of them as can be kept of it.
With different versions this means that the files of a package that has more than `keepnver` stand
next to each other in the order of the container. -/
theorem dropExceptionalVersions_highest_iff {tools : VersionTools} {newer : Bytes → Bytes → Bool}
    [IsStrictTotalOrder Bytes (fun a b => newer a b = true)] (hsort : tools.Sorts newer)
    {keepnver : Int32} (hkeep : 0 < keepnver) (now : Int) (t : TrashMap) :
    (∀ name dir, (dropExceptionalVersions tools keepnver now t).2.at? name dir =
        (t.at? name dir).map (fun info => if name ∈ keptFiles tools keepnver.toUInt32.toNat t
          then { info with nLostAt := now } else info)) ∧
      ((∀ name, name ∈ keptFiles tools keepnver.toUInt32.toNat t ↔ ∃ id ∈ debIds t,
          id.fileName = name ∧ amongHighest newer keepnver.toUInt32.toNat t id = true) ↔
        ∀ group ∈ versionGroups t,
          (group.filter (amongHighest newer keepnver.toUInt32.toNat t)).length =
            min keepnver.toUInt32.toNat group.length) ∧
      ((∀ id ∈ debIds t, ((filesOf t id.pkg).map PkgId.ver).Nodup) →
        ((∀ group ∈ versionGroups t,
          (group.filter (amongHighest newer keepnver.toUInt32.toNat t)).length =
            min keepnver.toUInt32.toNat group.length) ↔
          ∀ id ∈ debIds t, keepnver.toUInt32.toNat < (filesOf t id.pkg).length →
            filesOf t id.pkg <:+: debIds t)) := by
  have hne : keepnver ≠ 0 := by
    rintro rfl
    exact absurd hkeep (by decide)
  have hpos : 0 < keepnver.toUInt32.toNat := by
    rw [Nat.pos_iff_ne_zero]
    intro h0
    apply hne
    have h0 : keepnver.toUInt32 = 0 := UInt32.toNat_inj.mp h0
    simpa using congrArg UInt32.toInt32 h0
  exact ⟨at?_dropExceptionalVersions tools hsort.dpkg hne now t, keptFiles_iff hsort _ t,
    groups_iff_together hpos⟩

/-- Versions by their bytes. -/
def bytewise (ver1 ver2 : Bytes) : Bool := bytesLt ver2 ver1

instance : IsStrictTotalOrder Bytes (fun a b => bytewise a b = true) :=
  inferInstanceAs (IsStrictTotalOrder Bytes (Function.swap (fun a b => bytesLt a b = true)))

def bytewiseTools : VersionTools where
  hasDpkg := true
  sort := fun ids => ([], ids.mergeSort (fun a b => !bytewise b.ver a.ver))

theorem bytewiseTools_sorts : bytewiseTools.Sorts bytewise where
  dpkg := rfl
  perm := fun ids => List.mergeSort_perm ids _
  sorted := fun ids => (List.pairwise_mergeSort (fun a b c => order_not_trans a.ver b.ver c.ver)
    (fun a b => order_not_total a.ver b.ver) ids).imp (fun h => by simpa using h)

/-- Candidates with these names, in this order. -/
def namedFiles (names : List String) : TrashMap :=
  names.foldr (fun name t => t.modify (lit name) (lit "pool/") id) ∅

theorem dropExceptionalVersions_highest_iff_together :
    lit "foo_2_amd64.deb" ∈ keptFiles bytewiseTools 1
        (namedFiles ["foo_1_amd64.deb", "foo_2_amd64.deb", "bar_1_amd64.deb"]) ∧
      lit "foo_1_amd64.deb" ∉ keptFiles bytewiseTools 1
        (namedFiles ["foo_1_amd64.deb", "foo_2_amd64.deb", "bar_1_amd64.deb"]) := by
  have hkept := (dropExceptionalVersions_highest_iff bytewiseTools_sorts (by decide : 0 < (1 : Int32)) 0
    (namedFiles ["foo_1_amd64.deb", "foo_2_amd64.deb", "bar_1_amd64.deb"])).2.1.mpr (by decide)
  refine ⟨(hkept _).mpr (by decide), ?_⟩
  intro hold
  exact absurd ((hkept _).mp hold) (by decide)

/-- Another package between the two versions makes groups of one file each, and all are kept. -/
theorem keptFiles_apart :
    ¬∀ name, name ∈ keptFiles bytewiseTools 1
        (namedFiles ["foo_1_amd64.deb", "bar_1_amd64.deb", "foo_2_amd64.deb"]) ↔
      ∃ id ∈ debIds (namedFiles ["foo_1_amd64.deb", "bar_1_amd64.deb", "foo_2_amd64.deb"]),
        id.fileName = name ∧ amongHighest bytewise 1
          (namedFiles ["foo_1_amd64.deb", "bar_1_amd64.deb", "foo_2_amd64.deb"]) id = true := by
  intro h
  have hold := (h (lit "foo_1_amd64.deb")).mp (by decide)
  revert hold
  decide

end Expiration

end Acng
