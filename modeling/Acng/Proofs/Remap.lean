import Acng.Lib.FirstMax
import Acng.Remap

namespace Acng
open Lib

variable {cfg : ServeCfg} {ms ms' : List Mapping} {u : HttpUrl} {m : Mapping}

theorem foldlM_addRemapInfo (tokens : List (Bytes × Bytes)) (map : Bytes → List Remap) :
    tokens.foldlM (fun map t => addRemapInfo map t.1 t.2) map =
      (tokens.mapM (fun t => Mapping.ofToken t.1 t.2)).map (fun ms => ms.foldl addMapping map) := by
  induction tokens generalizing map with
  | nil => rfl
  | cons t tokens ih =>
    rw [List.foldlM_cons, List.mapM_cons, addRemapInfo]
    cases Mapping.ofToken t.1 t.2 with
    | none => rfl
    | some m =>
      simp only [Option.map_some, Option.bind_eq_bind, Option.bind_some, ih]
      cases tokens.mapM (fun t => Mapping.ofToken t.1 t.2) with
      | none => rfl
      | some ms => rfl

/-- What is configured by URLs is the map of the mappings that they are. -/
theorem configured_eq (tokens : List (Bytes × Bytes)) :
    tokens.foldlM (fun map t => addRemapInfo map t.1 t.2) (fun _ => []) =
      (tokens.mapM (fun t => Mapping.ofToken t.1 t.2)).map mapOf :=
  foldlM_addRemapInfo tokens _

/-- The port is an `uint16_t`. -/
def HttpUrl.SameHostPort (a b : HttpUrl) : Prop :=
  a.sHost = b.sHost ∧ a.getPort % 2 ^ 16 = b.getPort % 2 ^ 16

instance (a b : HttpUrl) : Decidable (a.SameHostPort b) := inferInstanceAs (Decidable (_ ∧ _))

theorem hostPortKey_inj (a b : HttpUrl) : hostPortKey a = hostPortKey b ↔ a.SameHostPort b := by
  have hbyte (m n : Nat) : UInt8.ofNat m = UInt8.ofNat n ↔ m % 256 = n % 256 := by
    rw [← UInt8.toNat_inj, UInt8.toNat_ofNat', UInt8.toNat_ofNat']
  unfold hostPortKey HttpUrl.SameHostPort
  rw [List.cons.injEq, List.cons.injEq, hbyte, hbyte, and_comm (a := a.sHost = b.sHost), ← and_assoc]
  refine and_congr_left (fun _ => ?_)
  omega

/-- The rules for a host and port are those of its mappings, in their order. -/
theorem mapOf_key (ms : List Mapping) (key : Bytes) :
    mapOf ms key = (ms.filter (fun m => hostPortKey m.url == key)).map Mapping.rule := by
  induction ms using List.reverseRecOn with
  | nil => rfl
  | append_singleton ms m ih =>
    have hlast : mapOf (ms ++ [m]) = addMapping (mapOf ms) m := by
      rw [mapOf, List.foldl_append]
      rfl
    rw [hlast, addMapping, List.filter_append, List.map_append, ih]
    by_cases hkey : key = hostPortKey m.url
    · have hyes : (hostPortKey m.url == key) = true := beq_iff_eq.mpr hkey.symm
      simp only [if_pos hkey, List.filter_singleton, hyes, cond_true, List.map_singleton]
    · have hno : (hostPortKey m.url == key) = false := beq_eq_false_iff_ne.mpr (Ne.symm hkey)
      simp only [if_neg hkey, List.filter_singleton, hno, cond_false, List.map_nil, List.append_nil]

namespace Mapping

/-- The path, surrounded by slashes, is a real prefix of the requested one on the same host and port. -/
structure Applies (m : Mapping) (u : HttpUrl) : Prop where
  site : m.url.SameHostPort u
  pre : m.rule.path <+: u.sPath
  real : m.rule.path ≠ u.sPath

/-- What is asked of a rule of the host and port. -/
def fits (u : HttpUrl) (m : Mapping) : Bool :=
  m.rule.path.length < u.sPath.length && m.rule.path.isPrefixOf u.sPath

theorem fits_iff : m.fits u = true ↔ m.rule.path <+: u.sPath ∧ m.rule.path ≠ u.sPath := by
  rw [fits, Bool.and_eq_true, decide_eq_true_eq, List.isPrefixOf_iff_prefix]
  constructor
  · rintro ⟨hlt, hpre⟩
    refine ⟨hpre, fun heq => ?_⟩
    rw [heq] at hlt
    exact lt_irrefl _ hlt
  · rintro ⟨hpre, hne⟩
    refine ⟨lt_of_le_of_ne hpre.length_le (fun hlen => hne (hpre.eq_of_length hlen)), hpre⟩

def applies (u : HttpUrl) (m : Mapping) : Bool := hostPortKey m.url == hostPortKey u && m.fits u

theorem applies_iff : m.applies u = true ↔ m.Applies u := by
  rw [applies, Bool.and_eq_true, beq_iff_eq, hostPortKey_inj, fits_iff]
  exact ⟨fun h => ⟨h.1, h.2.1, h.2.2⟩, fun h => ⟨h.site, h.pre, h.real⟩⟩

def size (m : Mapping) : Nat := m.rule.path.length

theorem size_pos (m : Mapping) : 0 < m.size := by
  rw [size, List.length_pos_iff]
  intro hnil
  have hfront := m.rule.front
  rw [hnil] at hfront
  cases hfront

end Mapping

/-- The best rule is that of the first of the longest mappings that apply. -/
theorem bestRemap_eq (ms : List Mapping) (u : HttpUrl) :
    bestRemap u.sPath (mapOf ms (hostPortKey u)) =
      (firstMax Mapping.size (Mapping.applies u) ms).map Mapping.rule := by
  have hscan (rules : List Remap) : bestRemap u.sPath rules =
      firstMax (fun r => r.path.length)
        (fun r => r.path.length < u.sPath.length && r.path.isPrefixOf u.sPath) rules := by
    unfold bestRemap firstMax
    simp only [Bool.and_assoc]
  rw [hscan, mapOf_key, firstMax_map, firstMax_filter]
  rfl

/-- What is asked of the repository and the rest of a path: it is that of the longest prefix among the
mappings, and of the first of them if several have that. -/
structure ResolvesLongest (ms : List Mapping) (u : HttpUrl) (r : Option (Bytes × Bytes)) : Prop where
  found : ∀ repName rest, r = some (repName, rest) → ∃ before m after, ms = before ++ m :: after ∧
    m.Applies u ∧ m.repName = repName ∧ m.rule.path ++ rest = u.sPath ∧ rest ≠ [] ∧
      (∀ n ∈ before, n.Applies u → n.rule.path.length < m.rule.path.length) ∧
      ∀ n ∈ after, n.Applies u → n.rule.path.length ≤ m.rule.path.length
  missing : r = none ↔ ∀ m ∈ ms, ¬ m.Applies u

theorem getRep_eq (h : cfg.mapUrl2pVname = mapOf ms) :
    getRepNameAndPathResidual cfg u = (firstMax Mapping.size (Mapping.applies u) ms).map
      (fun m => (m.repName, u.sPath.drop m.rule.path.length)) := by
  rw [getRepNameAndPathResidual, h, bestRemap_eq, Option.map_map]
  rfl

theorem getRep_resolves (h : cfg.mapUrl2pVname = mapOf ms) :
    ResolvesLongest ms u (getRepNameAndPathResidual cfg u) := by
  rw [getRep_eq h]
  refine ⟨fun repName rest hr => ?_, ?_⟩
  · obtain ⟨m, hm, hpair⟩ := Option.map_eq_some_iff.mp hr
    obtain ⟨rfl, rfl⟩ := Prod.mk.inj hpair
    have hbest := firstMax_spec hm
    obtain ⟨before, after, rfl, hbefore, hafter⟩ := hbest.split
    have happlies := Mapping.applies_iff.mp hbest.wanted
    have hparts : m.rule.path ++ u.sPath.drop m.rule.path.length = u.sPath :=
      (List.prefix_append_drop happlies.pre).symm
    refine ⟨before, m, after, rfl, happlies, rfl, hparts, fun hnil => ?_, ?_, ?_⟩
    · rw [hnil, List.append_nil] at hparts
      exact happlies.real hparts
    · exact fun n hn happ => hbefore n hn (Mapping.applies_iff.mpr happ)
    · exact fun n hn happ => hafter n hn (Mapping.applies_iff.mpr happ)
  · rw [Option.map_eq_none_iff, firstMax_none]
    refine forall₂_congr (fun m _ => ?_)
    rw [← Mapping.applies_iff]
    have hpos := m.size_pos
    exact ⟨fun hzero happ => by have := hzero happ; omega, fun hno happ => absurd happ hno⟩

/-- Among the mappings that apply, those of one size have one path. -/
theorem applies_size {n : Nat} (hn : n < u.sPath.length) (m : Mapping) :
    (m.applies u && m.size == n) = decide (m.rule.path = u.sPath.take n ∧ m.url.SameHostPort u) := by
  rw [Bool.eq_iff_iff, Bool.and_eq_true, Mapping.applies_iff, beq_iff_eq, decide_eq_true_eq, Mapping.size]
  constructor
  · rintro ⟨⟨hsite, hpre, -⟩, hlen⟩
    exact ⟨hlen ▸ List.prefix_iff_eq_take.mp hpre, hsite⟩
  · rintro ⟨hpath, hsite⟩
    have hlen : m.rule.path.length = n := by
      rw [hpath, List.length_take]
      omega
    refine ⟨⟨hsite, hpath ▸ List.take_prefix n u.sPath, fun heq => ?_⟩, hlen⟩
    rw [heq] at hlen
    omega

theorem applies_short {n : Nat} (hn : u.sPath.length ≤ n) (m : Mapping) :
    (m.applies u && m.size == n) = false := by
  rw [← Bool.not_eq_true, Bool.and_eq_true, Mapping.applies, Mapping.fits, Mapping.size]
  simp only [Bool.and_eq_true, decide_eq_true_eq, beq_iff_eq]
  omega

/-- The longest prefix decides, and the order of the mappings matters among equal paths of one host and
port only. -/
theorem getRep_longest_prefix (cfg : ServeCfg) (ms : List Mapping) (u : HttpUrl) :
    ResolvesLongest ms u (getRepNameAndPathResidual { cfg with mapUrl2pVname := mapOf ms } u) ∧
      ∀ ms',
        ((∀ path, ms.filter (fun m => m.rule.path = path ∧ m.url.SameHostPort u) =
            ms'.filter (fun m => m.rule.path = path ∧ m.url.SameHostPort u)) →
          getRepNameAndPathResidual { cfg with mapUrl2pVname := mapOf ms } u =
            getRepNameAndPathResidual { cfg with mapUrl2pVname := mapOf ms' } u) ∧
        (ms.Perm ms' →
          (getRepNameAndPathResidual { cfg with mapUrl2pVname := mapOf ms } u).map Prod.snd =
            (getRepNameAndPathResidual { cfg with mapUrl2pVname := mapOf ms' } u).map Prod.snd) := by
  refine ⟨getRep_resolves rfl, fun ms' => ⟨fun hsame => ?_, fun hperm => ?_⟩⟩
  · rw [getRep_eq rfl, getRep_eq rfl]
    refine congrArg _ (firstMax_congr (fun n => ?_))
    by_cases hn : n < u.sPath.length
    · simp only [applies_size hn]
      exact hsame (u.sPath.take n)
    · simp only [applies_short (not_lt.mp hn), List.filter_false]
  · rw [getRep_eq rfl, getRep_eq rfl, Option.map_map, Option.map_map]
    have hsize := congrArg (Option.map u.sPath.drop)
      (firstMax_perm Mapping.size (Mapping.applies u) hperm)
    rwa [Option.map_map, Option.map_map] at hsize

end Acng
