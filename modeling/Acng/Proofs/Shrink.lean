import Acng.Shrink
import Mathlib.Algebra.BigOperators.Group.List.Basic
import Mathlib.Tactic.Linarith

namespace Acng
open Lib

/-- The blocks of some entries together. -/
def blocksOf (entries : List PkgEntry) : Int := (entries.map (fun entry => (entry.blocks : Int))).sum

@[simp] theorem blocksOf_cons (entry : PkgEntry) (entries : List PkgEntry) :
    blocksOf (entry :: entries) = entry.blocks + blocksOf entries := by
  rw [blocksOf, List.map_cons, List.sum_cons, blocksOf]

@[simp] theorem blocksOf_append (front back : List PkgEntry) :
    blocksOf (front ++ back) = blocksOf front + blocksOf back := by
  rw [blocksOf, List.map_append, List.sum_append, blocksOf, blocksOf]

namespace WalkedFile

def date (file : WalkedFile) : Int := max file.ctime file.mtime

/-- The entry of a file without its other one. -/
def entry (file : WalkedFile) : PkgEntry := ⟨file.path, file.date, file.blocks⟩

/-- The entry of a data file with its head. -/
def entryWith (cfg : ShrinkCfg) (data head : WalkedFile) : PkgEntry :=
  ⟨data.path, if cfg.trackfileuse then head.date else data.date, data.blocks + head.blocks⟩

/-- Whether the walk takes a file into account. -/
def Counts (cfg : ShrinkCfg) (file : WalkedFile) : Prop := (cfg.isVolatile file.pkgPath && !cfg.incIfiles) = false

instance (cfg : ShrinkCfg) (file : WalkedFile) : Decidable (file.Counts cfg) :=
  inferInstanceAs (Decidable (_ = false))

theorem path_of_isHead {file : WalkedFile} (h : file.isHead = true) : file.path = file.otherName ++ lit ".head" := by
  obtain ⟨front, hfront⟩ := List.isSuffixOf_iff_suffix.mp h
  have hlen : front.length = file.path.length - 5 := by
    have := congrArg List.length hfront
    rw [List.length_append, show (lit ".head").length = 5 from rfl] at this
    omega
  rw [otherName, if_pos h, pkgPath, if_pos h, ← hlen]
  conv_lhs => rw [← hfront]
  rw [← hfront, List.take_left]

end WalkedFile

/-- The files that were seen, each in one entry: alone, or a data file with its head. -/
def Grouped (cfg : ShrinkCfg) (seen : List WalkedFile) (scan : ShrinkScan) : Prop :=
  ∃ (pairs : List (WalkedFile × WalkedFile)) (alone : List WalkedFile),
    (pairs.flatMap (fun pair => [pair.1, pair.2]) ++ alone).Perm seen ∧
      scan.delQ = pairs.map (fun pair => WalkedFile.entryWith cfg pair.1 pair.2) ∧
      scan.related = alone.map WalkedFile.entry ∧ ∀ pair ∈ pairs, pair.2.path = pair.1.path ++ lit ".head"

/-- The other one of a file is taken out of those that are alone. -/
theorem filter_related {a b : List WalkedFile} {g : WalkedFile} (hnodup : ((a ++ g :: b).map WalkedFile.path).Nodup) :
    ((a ++ g :: b).map WalkedFile.entry).filter (fun entry => entry.path != g.path) =
      (a ++ b).map WalkedFile.entry := by
  rw [List.map_append, List.map_cons, List.perm_middle.nodup_iff, ← List.map_append, List.nodup_cons] at hnodup
  have hothers : ∀ other ∈ a ++ b, (other.entry.path != g.path) = true := by
    intro other hmem
    rw [bne_iff_ne]
    intro heq
    exact hnodup.1 (List.mem_map.mpr ⟨other, hmem, heq⟩)
  have hgone : ¬((g.entry.path != g.path) = true) := by
    rw [bne_iff_ne, not_not]
    rfl
  rw [List.filter_map, List.filter_append, List.filter_cons]
  simp only [Function.comp_apply, if_neg hgone]
  rw [← List.filter_append]
  exact congrArg (List.map WalkedFile.entry) (List.filter_eq_self.mpr hothers)

/-- A file and its other one, with the data file in front. -/
def WalkedFile.pairOf (file other : WalkedFile) : WalkedFile × WalkedFile :=
  if file.isHead then (other, file) else (file, other)

theorem entryWith_pairOf (cfg : ShrinkCfg) {file g : WalkedFile} (hpath : g.path = file.otherName) :
    WalkedFile.entryWith cfg (file.pairOf g).1 (file.pairOf g).2 =
      ⟨file.pkgPath,
        if (cfg.trackfileuse && !file.isHead) || (!cfg.trackfileuse && file.isHead) then g.date else file.date,
        file.blocks + g.blocks⟩ := by
  cases hhead : file.isHead with
  | true =>
    have hpkg : file.pkgPath = g.path := by rw [hpath, WalkedFile.otherName, if_pos hhead]
    cases htrack : cfg.trackfileuse <;> simp [WalkedFile.pairOf, WalkedFile.entryWith, hhead, hpkg, htrack, Nat.add_comm]
  | false =>
    have hpkg : file.pkgPath = file.path := by rw [WalkedFile.pkgPath, hhead]; rfl
    cases htrack : cfg.trackfileuse <;> simp [WalkedFile.pairOf, WalkedFile.entryWith, hhead, hpkg, htrack]

theorem pairOf_path {file g : WalkedFile} (hpath : g.path = file.otherName) :
    (file.pairOf g).2.path = (file.pairOf g).1.path ++ lit ".head" := by
  cases hhead : file.isHead with
  | true =>
    rw [WalkedFile.pairOf, if_pos hhead, hpath]
    exact WalkedFile.path_of_isHead hhead
  | false =>
    rw [WalkedFile.pairOf, hhead]
    simp only [Bool.false_eq_true, if_false, hpath]
    rw [WalkedFile.otherName, hhead]
    rfl

theorem pairOf_perm (file g : WalkedFile) : [(file.pairOf g).1, (file.pairOf g).2].Perm [g, file] := by
  rw [WalkedFile.pairOf]
  cases file.isHead
  · exact List.Perm.swap g file []
  · exact List.Perm.refl _

theorem Grouped.receive {cfg : ShrinkCfg} {seen : List WalkedFile} {scan : ShrinkScan}
    (h : Grouped cfg seen scan) {file : WalkedFile} (hcounts : file.Counts cfg)
    (hnodup : (seen.map WalkedFile.path).Nodup) (hnew : file.path ∉ seen.map WalkedFile.path) :
    Grouped cfg (seen ++ [file]) (scan.receive cfg file) := by
  obtain ⟨pairs, alone, hperm, hdelQ, hrelated, hheads⟩ := h
  have hcond : ¬((cfg.isVolatile file.pkgPath && !cfg.incIfiles) = true) := by
    rw [hcounts]
    exact Bool.false_ne_true
  have halone : ∀ g ∈ alone, g ∈ seen := fun g hg => hperm.subset (List.mem_append_right _ hg)
  unfold ShrinkScan.receive
  simp only [hcond]
  cases hfind : scan.related.find? (fun entry => entry.path == file.otherName) with
  | none =>
    have hno : scan.related.any (fun entry => entry.path == file.path) = false := by
      rw [← Bool.not_eq_true, List.any_eq_true]
      rintro ⟨entry, hentry, hpath⟩
      rw [hrelated] at hentry
      obtain ⟨g, hg, rfl⟩ := List.mem_map.mp hentry
      exact hnew (List.mem_map.mpr ⟨g, halone g hg, beq_iff_eq.mp hpath⟩)
    simp only [hno, Bool.false_eq_true, if_false]
    refine ⟨pairs, alone ++ [file], ?_, hdelQ, ?_, hheads⟩
    · rw [← List.append_assoc]
      exact hperm.append_right [file]
    · rw [hrelated, List.map_append]
      rfl
  | some other =>
    obtain ⟨hother, front, back, hsplit, -⟩ := List.find?_eq_some_iff_append.mp hfind
    rw [hrelated] at hsplit
    obtain ⟨a, back', rfl, rfl, hback⟩ := List.map_eq_append_iff.mp hsplit
    obtain ⟨g, b, rfl, rfl, rfl⟩ := List.map_eq_cons_iff.mp hback
    have hpath : g.path = file.otherName := beq_iff_eq.mp hother
    have haloneNodup : ((a ++ g :: b).map WalkedFile.path).Nodup := by
      have hpaths := (hperm.map WalkedFile.path).nodup_iff.mpr hnodup
      rw [List.map_append] at hpaths
      exact (List.nodup_append.mp hpaths).2.1
    simp only [Bool.false_eq_true, if_false]
    refine ⟨pairs ++ [file.pairOf g], a ++ b, ?_, ?_, ?_, ?_⟩
    · have hmiddle : ([g, file] ++ (a ++ b)).Perm (a ++ g :: b ++ [file]) := by
        refine List.Perm.trans ?_ List.perm_append_comm
        exact (List.Perm.swap file g (a ++ b)).trans (List.perm_middle.symm.cons file)
      rw [List.flatMap_append, List.flatMap_singleton, List.append_assoc]
      refine (((pairOf_perm file g).append_right (a ++ b)).trans hmiddle).append_left _ |>.trans ?_
      rw [← List.append_assoc]
      exact hperm.append_right [file]
    · rw [hdelQ, List.map_append, List.map_singleton, entryWith_pairOf cfg hpath]
      rfl
    · rw [hrelated, ← hpath]
      exact filter_related haloneNodup
    · exact List.forall_mem_append.mpr ⟨hheads, List.forall_mem_singleton.mpr (pairOf_path hpath)⟩

/-- The walk puts each file that counts into one entry. -/
theorem walk_grouped (cfg : ShrinkCfg) (files : List WalkedFile) (hnodup : (files.map WalkedFile.path).Nodup) :
    Grouped cfg (files.filter (fun file => file.Counts cfg)) (ShrinkScan.walk cfg files) := by
  induction files using List.reverseRecOn with
  | nil => exact ⟨[], [], List.Perm.refl _, rfl, rfl, by simp⟩
  | append_singleton files file ih =>
    rw [List.map_append, List.map_singleton, List.nodup_append] at hnodup
    obtain ⟨hfront, -, hnew⟩ := hnodup
    rw [ShrinkScan.walk, List.foldl_append, List.filter_append]
    have hwalk := ih hfront
    by_cases hcounts : file.Counts cfg
    · rw [List.filter_cons_of_pos (by simpa using hcounts), List.filter_nil]
      refine hwalk.receive hcounts ?_ ?_
      · exact (List.filter_sublist.map WalkedFile.path).nodup hfront
      · intro hmem
        obtain ⟨g, hg, hpath⟩ := List.mem_map.mp hmem
        exact hnew g.path (List.mem_map_of_mem (List.mem_of_mem_filter hg)) file.path
          (List.mem_singleton_self _) hpath
    · rw [List.filter_cons_of_neg (by simpa using hcounts), List.filter_nil, List.append_nil]
      have hskip : (cfg.isVolatile file.pkgPath && !cfg.incIfiles) = true := by
        rwa [WalkedFile.Counts, Bool.not_eq_false] at hcounts
      have hsame : ShrinkScan.receive cfg (ShrinkScan.walk cfg files) file = ShrinkScan.walk cfg files := by
        rw [ShrinkScan.receive, hskip]
        rfl
      change Grouped cfg _ (ShrinkScan.receive cfg (ShrinkScan.walk cfg files) file)
      rw [hsame]
      exact hwalk

theorem blocksOf_pairs (cfg : ShrinkCfg) (pairs : List (WalkedFile × WalkedFile)) :
    blocksOf (pairs.map (fun pair => WalkedFile.entryWith cfg pair.1 pair.2)) =
      ((pairs.flatMap (fun pair => [pair.1, pair.2])).map (fun file => (file.blocks : Int))).sum := by
  induction pairs with
  | nil => rfl
  | cons pair pairs ih =>
    rw [List.map_cons, blocksOf_cons, ih]
    simp [WalkedFile.entryWith, Int.add_assoc]

/-- All blocks of the files are in the entries. -/
theorem Grouped.blocks {cfg : ShrinkCfg} {seen : List WalkedFile} {scan : ShrinkScan} (h : Grouped cfg seen scan) :
    blocksOf scan.entries = (seen.map (fun file => (file.blocks : Int))).sum := by
  obtain ⟨pairs, alone, hperm, hdelQ, hrelated, -⟩ := h
  rw [ShrinkScan.entries, blocksOf_append, hdelQ, hrelated, blocksOf_pairs, ← (hperm.map _).sum_eq, List.map_append,
    List.sum_append, blocksOf, List.map_map]
  rfl

section Stop

variable {order deleted kept : List PkgEntry} {wanted paired alone : Int} (hsplit : order = deleted ++ kept)
  (hsum : blocksOf order = paired + alone)
include hsplit hsum

end Stop

end Acng
