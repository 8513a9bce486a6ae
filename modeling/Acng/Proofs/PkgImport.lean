import Acng.PkgImport
import Acng.Proofs.KeyOrder
import Acng.Proofs.Sources

namespace Acng
open Lib LinkedFiles

variable {π : Type} [DecidableEq π] {nm : PathNaming π}

/-- What is said of one `LinkOrCopy`. -/
def LinkOrCopyRight (nm : PathNaming π) (io : LinkIo) (disk : FileTree π) (sFrom sTo : Bytes) : Prop :=
  let r := linkOrCopy nm io disk sFrom sTo
  (r.1.result = true → ∃ content, nm.read disk sFrom = some content ∧ nm.read r.2 sTo = some content) ∧
    (r.1.made = true → r.1.result = true)

/-- What has to hold behind the checks, for a source with such a content. A symbolic link that gets another name must
lead to the same from there. A copy must not be made, and a failed one must not look like one. -/
def TailWell (nm : PathNaming π) (io : LinkIo) (disk : FileTree π) (sFrom sTo content : Bytes) : Prop :=
  if io.link = true ∧ disk.node (nm.place sTo) = none then
    ∀ text, disk.node (nm.place sFrom) = some (.link text) →
      disk.read nm.leads (maxSymlinks - 1) (nm.leads (nm.place sTo) text) = some content
  else
    nm.follow disk sTo ≠ none →
      io.copy ≠ .done ∧ ∀ left, io.copy = .failed (some left) → left.length = content.length → left = content

def isLink : Option (Node Bytes) → Bool
  | some (.link _) => true
  | _ => false

def LinksWell (nm : PathNaming π) (io : LinkIo) (disk : FileTree π) (sFrom sTo : Bytes) : Prop :=
  if io.lstat = true ∧ isLink (disk.node (nm.place sFrom)) = true then
    ¬ (io.realpath = true ∧ io.unlink = true ∧ io.symlink = true ∧ nm.stat disk sFrom ≠ none ∧
      nm.follow disk sFrom = some (nm.place sTo))
  else
    ∀ content, nm.read disk sFrom = some content → nm.stat disk sTo ≠ nm.stat disk sFrom →
      (nm.stat disk sTo = none → TailWell nm io disk sFrom sTo content) ∧
      (nm.stat disk sTo ≠ none → io.unlink = true → TailWell nm io (disk.unlink (nm.place sTo)) sFrom sTo content)

omit [DecidableEq π] in
theorem PathNaming.read_eq_some {disk : FileTree π} {path content : Bytes} :
    nm.read disk path = some content ↔ ∃ i, nm.stat disk path = some i ∧ disk.data i = content :=
  Option.map_eq_some_iff

omit [DecidableEq π] in
theorem PathNaming.read_none {disk : FileTree π} {path : Bytes} (h : nm.stat disk path = none) :
    nm.read disk path = none := by
  rw [PathNaming.read, LinkedFiles.read]
  rw [PathNaming.stat] at h
  rw [h, Option.map_none]

/-- The new name of a symbolic link. -/
theorem read_linked_link {disk : FileTree π} {sFrom sTo text content : Bytes}
    (htext : disk.node (nm.place sFrom) = some (.link text)) (hfree : disk.node (nm.place sTo) = none) :
    nm.read (disk.link (nm.place sFrom) (nm.place sTo)) sTo = some content ↔
      disk.read nm.leads (maxSymlinks - 1) (nm.leads (nm.place sTo) text) = some content := by
  have hnode : (disk.link (nm.place sFrom) (nm.place sTo)).node (nm.place sTo) = some (.link text) := by
    rw [← htext]
    exact Function.update_self _ _ _
  have hstat : nm.stat (disk.link (nm.place sFrom) (nm.place sTo)) sTo =
      (disk.link (nm.place sFrom) (nm.place sTo)).stat nm.leads (maxSymlinks - 1) (nm.leads (nm.place sTo) text) := by
    rw [PathNaming.stat, LinkedFiles.stat, LinkedFiles.stat]
    exact congrArg (fun q => Option.bind q _) (follow_link hnode (maxSymlinks - 1))
  have hread : nm.read (disk.link (nm.place sFrom) (nm.place sTo)) sTo =
      (disk.link (nm.place sFrom) (nm.place sTo)).read nm.leads (maxSymlinks - 1) (nm.leads (nm.place sTo) text) :=
    congrArg (Option.map disk.data) hstat
  rw [hread]
  constructor
  · intro h
    -- The way does not lead over the new name itself, so it was the same without it.
    have hway : nm.place sTo ∉ trail nm.leads (disk.link (nm.place sFrom) (nm.place sTo)).node (maxSymlinks - 1)
        (nm.leads (nm.place sTo) text) := by
      intro hmem
      obtain ⟨i, hi, -⟩ := Option.map_eq_some_iff.mp h
      obtain ⟨q, hq, -⟩ := stat_eq_some.mp hi
      rw [follow_loop hnode hmem] at hq
      cases hq
    refine (beside_link_back disk (nm.place sFrom) (nm.place sTo)).read h (fun q hq => ?_)
    rw [List.mem_singleton.mp hq]
    exact hway
  · intro h
    have hbeside : Beside [] disk (disk.link (nm.place sFrom) (nm.place sTo)) := beside_link hfree
    exact hbeside.read h (fun _ hmem => absurd hmem List.not_mem_nil)

omit [DecidableEq π] in
/-- An empty entry is not on the way to a file. -/
theorem not_mem_trail {disk : FileTree π} {path content : Bytes} {p : π} (hread : nm.read disk path = some content)
    (hfree : disk.node p = none) : p ∉ nm.trail disk path := by
  intro hmem
  obtain ⟨i, hi, -⟩ := PathNaming.read_eq_some.mp hread
  obtain ⟨q, hfollow, hq⟩ := stat_eq_some.mp hi
  exact node_ne_none_of_mem hfollow (by rw [hq]; exact Option.some_ne_none _) hmem hfree

omit [DecidableEq π] in
theorem node_of_read {disk : FileTree π} {path content : Bytes} (hread : nm.read disk path = some content) :
    (disk.node (nm.place path)).isSome = true := by
  rw [Option.isSome_iff_ne_none]
  intro hnone
  exact not_mem_trail hread hnone (mem_trail_self maxSymlinks (nm.place path))

/-- The new name of a file. -/
theorem read_linked_file {disk : FileTree π} {sFrom sTo content : Bytes} {i : Nat}
    (hfile : disk.node (nm.place sFrom) = some (.file i)) (hread : nm.read disk sFrom = some content) :
    nm.read (disk.link (nm.place sFrom) (nm.place sTo)) sTo = some content := by
  obtain ⟨j, hj, hdata⟩ := PathNaming.read_eq_some.mp hread
  have hend : ∀ text, disk.node (nm.place sFrom) ≠ some (.link text) := by rw [hfile]; simp
  obtain ⟨q, hq, hnode⟩ := stat_eq_some.mp hj
  rw [follow_end hend] at hq
  obtain rfl := Option.some.inj hq
  have hnew : (disk.link (nm.place sFrom) (nm.place sTo)).node (nm.place sTo) = some (.file j) :=
    (Function.update_self _ _ _).trans hnode
  refine PathNaming.read_eq_some.mpr ⟨j, stat_eq_some.mpr ⟨nm.place sTo, follow_end ?_ maxSymlinks, hnew⟩, hdata⟩
  rw [hnew]
  simp

theorem linkThenCopy_linked {io : LinkIo} {disk : FileTree π} {sFrom sTo content : Bytes}
    (hfrom : nm.read disk sFrom = some content) (hlink : io.link = true ∧ disk.node (nm.place sTo) = none) :
    linkThenCopy nm io disk sFrom sTo = (.linked, disk.link (nm.place sFrom) (nm.place sTo)) := by
  rw [linkThenCopy, node_of_read hfrom, hlink.1, hlink.2]
  rfl

/-- Without a link the copy decides, and what is compared behind it. -/
theorem linkThenCopy_copy {io : LinkIo} {disk : FileTree π} {sFrom sTo content : Bytes}
    (hfrom : nm.read disk sFrom = some content) (hto : nm.stat disk sTo = none)
    (hlink : ¬ (io.link = true ∧ disk.node (nm.place sTo) = none)) :
    if nm.follow disk sTo = none then linkThenCopy nm io disk sFrom sTo = (.compared false, disk)
    else
      (io.copy = .done → linkThenCopy nm io disk sFrom sTo = (.copied, nm.write disk sTo content)) ∧
      (io.copy = .failed none → linkThenCopy nm io disk sFrom sTo = (.compared false, disk)) ∧
      ∀ left, io.copy = .failed (some left) →
        linkThenCopy nm io disk sFrom sTo = (.compared (left.length = content.length), nm.write disk sTo left) ∧
        nm.read (nm.write disk sTo left) sTo = some left := by
  obtain ⟨i, hi, -⟩ := PathNaming.read_eq_some.mp hfrom
  have hother : ¬ nm.stat disk sTo = nm.stat disk sFrom := by rw [hto, hi]; simp
  have hcond : ¬ ((io.link && (disk.node (nm.place sFrom)).isSome && (disk.node (nm.place sTo)).isNone) = true) := by
    rw [node_of_read hfrom, Bool.and_true, Bool.and_eq_true, Option.isNone_iff_eq_none]
    exact hlink
  have hreadto : nm.read disk sTo = none := PathNaming.read_none hto
  simp only [linkThenCopy, if_neg hcond, fileCopy, hfrom, if_neg hother]
  cases hfollow : nm.follow disk sTo with
  | none =>
    rw [if_pos rfl]
    -- Nothing can be written where a way does not end.
    have hsame : ∀ left, nm.write disk sTo left = disk := by
      intro left
      rw [PathNaming.stat] at hto
      rw [PathNaming.follow] at hfollow
      rw [PathNaming.write, LinkedFiles.write, hto, hfollow]
    cases io.copy with
    | done => simp [hfrom, hreadto]
    | failed left => cases left <;> simp [hsame, hfrom, hreadto]
  | some q =>
    rw [if_neg (by simp)]
    refine ⟨fun hcopy => by simp [hcopy], fun hcopy => by simp [hcopy, hfrom, hreadto], fun left hcopy => ?_⟩
    have hwritten : nm.read (nm.write disk sTo left) sTo = some left := read_write_self left hfollow
    have hbeside : Beside [] disk (nm.write disk sTo left) := beside_write left hto
    have hkept : nm.read (nm.write disk sTo left) sFrom = some content :=
      hbeside.read hfrom (fun _ hmem => absurd hmem List.not_mem_nil)
    exact ⟨by simp [hcopy, hkept, hwritten], hwritten⟩

theorem linkThenCopy_right_iff {io : LinkIo} {disk : FileTree π} {sFrom sTo content : Bytes}
    (hfrom : nm.read disk sFrom = some content) (hto : nm.stat disk sTo = none) :
    (((linkThenCopy nm io disk sFrom sTo).1.result = true →
        nm.read (linkThenCopy nm io disk sFrom sTo).2 sTo = some content) ∧
      ((linkThenCopy nm io disk sFrom sTo).1.made = true → (linkThenCopy nm io disk sFrom sTo).1.result = true)) ↔
    TailWell nm io disk sFrom sTo content := by
  rw [TailWell]
  by_cases hlink : io.link = true ∧ disk.node (nm.place sTo) = none
  · rw [if_pos hlink, linkThenCopy_linked hfrom hlink]
    have hexists := node_of_read hfrom
    constructor
    · intro hright text htext
      exact (read_linked_link htext hlink.2).mp (hright.1 rfl)
    · intro hwell
      refine ⟨fun _ => ?_, fun _ => rfl⟩
      cases hnode : disk.node (nm.place sFrom) with
      | none => simp [hnode] at hexists
      | some n =>
        cases n with
        | file i => exact read_linked_file hnode hfrom
        | link text => exact (read_linked_link hnode hlink.2).mpr (hwell text hnode)
  · rw [if_neg hlink]
    have hcopy := linkThenCopy_copy hfrom hto hlink
    split at hcopy
    · rename_i hfollow
      rw [hcopy]
      simp [hfollow, LinkExit.result, LinkExit.made]
    · rename_i hfollow
      obtain ⟨hdone, hnothing, hleft⟩ := hcopy
      cases hresult : io.copy with
      | done =>
        rw [hdone hresult]
        simp [hfollow, LinkExit.result, LinkExit.made]
      | failed left =>
        cases left with
        | none =>
          rw [hnothing hresult]
          simp [hfollow, LinkExit.result, LinkExit.made]
        | some left =>
          obtain ⟨hexit, hwritten⟩ := hleft left hresult
          rw [hexit]
          simp [hfollow, hwritten, LinkExit.result, LinkExit.made]

theorem node_symlink {disk : FileTree π} {sTo : Bytes} {q : π} :
    (disk.symlink (nm.canonical q) (nm.place sTo)).node (nm.place sTo) = some (.link (nm.canonical q)) :=
  Function.update_self _ _ _

/-- A link to a file shows the file. -/
theorem read_symlink {disk : FileTree π} {sTo : Bytes} {q : π} {i : Nat} (hfile : disk.node q = some (.file i))
    (hne : q ≠ nm.place sTo) :
    nm.read (disk.symlink (nm.canonical q) (nm.place sTo)) sTo = some (disk.data i) := by
  have hnode : (disk.symlink (nm.canonical q) (nm.place sTo)).node q = some (.file i) :=
    (Function.update_of_ne hne _ _).trans hfile
  refine PathNaming.read_eq_some.mpr ⟨i, stat_eq_some.mpr ⟨q, ?_, hnode⟩, rfl⟩
  rw [show maxSymlinks = 39 + 1 from rfl, follow_link (@node_symlink π _ nm disk sTo q), nm.leads_canonical]
  exact follow_end (by rw [hnode]; simp) 39

/-- A link to itself shows nothing. -/
theorem read_symlink_self {disk : FileTree π} {sTo : Bytes} :
    nm.read (disk.symlink (nm.canonical (nm.place sTo)) (nm.place sTo)) sTo = none := by
  have hlink := @node_symlink π _ nm disk sTo (nm.place sTo)
  have hmem : nm.place sTo ∈ trail nm.leads (disk.symlink (nm.canonical (nm.place sTo)) (nm.place sTo)).node 39
      (nm.leads (nm.place sTo) (nm.canonical (nm.place sTo))) := by
    rw [nm.leads_canonical]
    exact mem_trail_self 39 (nm.place sTo)
  refine PathNaming.read_none ?_
  rw [PathNaming.stat, LinkedFiles.stat, show maxSymlinks = 39 + 1 from rfl, follow_link hlink, follow_loop hlink hmem]
  rfl

theorem symlink_right_iff {io : LinkIo} {disk : FileTree π} {sFrom sTo : Bytes}
    (hseen : io.lstat = true ∧ isLink (disk.node (nm.place sFrom)) = true) :
    LinkOrCopyRight nm io disk sFrom sTo ↔
      ¬ (io.realpath = true ∧ io.unlink = true ∧ io.symlink = true ∧ nm.stat disk sFrom ≠ none ∧
        nm.follow disk sFrom = some (nm.place sTo)) := by
  obtain ⟨hlstat, hlink⟩ := hseen
  obtain ⟨text, htext⟩ : ∃ text, disk.node (nm.place sFrom) = some (.link text) := by
    cases hnode : disk.node (nm.place sFrom) with
    | none => simp [hnode, isLink] at hlink
    | some n =>
      cases n with
      | file i => simp [hnode, isLink] at hlink
      | link text => exact ⟨text, rfl⟩
  simp only [LinkOrCopyRight, linkOrCopy, hlstat, if_true, htext]
  cases hreal : io.realpath with
  | false => simp [LinkExit.result, LinkExit.made]
  | true =>
    cases hstat : nm.stat disk sFrom with
    | none => simp [LinkExit.result, LinkExit.made]
    | some i =>
      obtain ⟨q, hfollow, hfile⟩ := stat_eq_some.mp hstat
      have hread : nm.read disk sFrom = some (disk.data i) := PathNaming.read_eq_some.mpr ⟨i, hstat, rfl⟩
      change nm.follow disk sFrom = some q at hfollow
      simp only [hfollow, Option.isSome_some, Bool.and_true, if_true]
      cases hsym : io.symlink with
      | false => simp [LinkExit.result, LinkExit.made]
      | true =>
        cases hunlink : io.unlink with
        | false =>
          cases hnode : disk.node (nm.place sTo) with
          | some n => simp [hnode, LinkExit.result, LinkExit.made]
          | none =>
            have hne : q ≠ nm.place sTo := by
              rintro rfl
              rw [hnode] at hfile
              cases hfile
            simp [hnode, hread, read_symlink hfile hne, LinkExit.result, LinkExit.made]
        | true =>
          have hgone : (disk.unlink (nm.place sTo)).node (nm.place sTo) = none := Function.update_self _ _ _
          by_cases hne : q = nm.place sTo
          · subst hne
            simp [hgone, hread, read_symlink_self, LinkExit.result, LinkExit.made]
          · have hfile' : (disk.unlink (nm.place sTo)).node q = some (.file i) :=
              (Function.update_of_ne hne _ _).trans hfile
            have hshown := @read_symlink π _ nm _ sTo q i hfile' hne
            have hdata : (disk.unlink (nm.place sTo)).data i = disk.data i := rfl
            simp [hgone, hread, hshown, hdata, hne, LinkExit.result, LinkExit.made]

/-- An unlinked target is not on the way to a source that is another file. -/
theorem read_unlink {disk : FileTree π} {sFrom sTo content : Bytes} (hfrom : nm.read disk sFrom = some content)
    (hother : nm.stat disk sTo ≠ nm.stat disk sFrom) :
    nm.read (disk.unlink (nm.place sTo)) sFrom = some content := by
  refine (beside_unlink disk (nm.place sTo)).read hfrom (fun p hp hmem => ?_)
  rw [List.mem_singleton.mp hp] at hmem
  obtain ⟨i, hi, -⟩ := PathNaming.read_eq_some.mp hfrom
  obtain ⟨q, hfollow, hq⟩ := stat_eq_some.mp hi
  obtain ⟨left, hle, hleft⟩ := follow_of_mem hfollow hmem
  have hto : nm.stat disk sTo = some i := stat_eq_some.mpr ⟨q, (follow_more hleft hle).1, hq⟩
  exact hother (hto.trans hi.symm)

/-- The source is not taken for a symbolic link. -/
theorem file_right_iff {io : LinkIo} {disk : FileTree π} {sFrom sTo : Bytes}
    (hseen : ¬ (io.lstat = true ∧ isLink (disk.node (nm.place sFrom)) = true)) :
    LinkOrCopyRight nm io disk sFrom sTo ↔
      ∀ content, nm.read disk sFrom = some content → nm.stat disk sTo ≠ nm.stat disk sFrom →
        (nm.stat disk sTo = none → TailWell nm io disk sFrom sTo content) ∧
        (nm.stat disk sTo ≠ none → io.unlink = true →
          TailWell nm io (disk.unlink (nm.place sTo)) sFrom sTo content) := by
  rw [LinkOrCopyRight]
  unfold linkOrCopy
  split
  · rename_i text hlink
    refine absurd ?_ hseen
    split at hlink
    · rename_i hlstat
      exact ⟨hlstat, by rw [hlink]; rfl⟩
    · cases hlink
  cases hfrom : nm.stat disk sFrom with
  | none =>
    have hread : nm.read disk sFrom = none := PathNaming.read_none hfrom
    simp [hread, LinkExit.result, LinkExit.made]
  | some i =>
    have hread : nm.read disk sFrom = some (disk.data i) := PathNaming.read_eq_some.mpr ⟨i, hfrom, rfl⟩
    cases hto : nm.stat disk sTo with
    | none =>
      simp only [hread, Option.some.injEq, exists_eq_left', forall_eq']
      rw [linkThenCopy_right_iff hread hto]
      simp
    | some j =>
      by_cases hsame : i = j
      · subst hsame
        have hreadto : nm.read disk sTo = some (disk.data i) := PathNaming.read_eq_some.mpr ⟨i, hto, rfl⟩
        simp [hread, hreadto, LinkExit.result, LinkExit.made]
      · have hother : nm.stat disk sTo ≠ nm.stat disk sFrom := by
          rw [hfrom, hto]
          exact fun h => hsame (Option.some.inj h).symm
        cases hunlink : io.unlink with
        | false => simp [hsame, LinkExit.result, LinkExit.made]
        | true =>
          have hgone : (disk.unlink (nm.place sTo)).node (nm.place sTo) = none := Function.update_self _ _ _
          have hnone : nm.stat (disk.unlink (nm.place sTo)) sTo = none := by
            rw [PathNaming.stat, LinkedFiles.stat, follow_end (by rw [hgone]; simp), Option.bind_some, hgone]
          have hkept := read_unlink hread hother
          simp only [hsame, if_false, Bool.not_true, Bool.false_eq_true, hread, Option.some.injEq, exists_eq_left',
            forall_eq']
          rw [linkThenCopy_right_iff hkept hnone]
          have hne : some j ≠ some i := fun h => hsame (Option.some.inj h).symm
          simp [hne]

theorem linkOrCopy_right_iff {io : LinkIo} {disk : FileTree π} {sFrom sTo : Bytes} :
    LinkOrCopyRight nm io disk sFrom sTo ↔ LinksWell nm io disk sFrom sTo := by
  rw [LinksWell]
  by_cases hseen : io.lstat = true ∧ isLink (disk.node (nm.place sFrom)) = true
  · rw [if_pos hseen, symlink_right_iff hseen]
  · rw [if_neg hseen, file_right_iff hseen]

/-- An entry of a file in the import directory whose name is one line. -/
structure EntryFits (sSrcPath : Bytes) (e : KeyEntry) : Prop where
  size_nonneg : 0 ≤ e.1.size
  size_lt : e.1.size < 2 ^ 63
  csType_ne : e.1.csType ≠ .invalid
  csum_length : e.1.csum.length = e.1.csType.len
  path : ∃ name, e.2.sPath = sSrcPath ++ 47 :: name ∧ 10 ∉ name
  no_nul : 0 ∉ e.2.sPath
  mtime_ge : -2 ^ 63 ≤ e.2.mtime
  mtime_lt : e.2.mtime < 2 ^ 63

theorem dec_noNewline (v : Int) : 10 ∉ dec v := by
  intro h
  rcases dec_bytes v 10 h with h | h <;> exact absurd h (by decide)

theorem hexString_noNewline (sum : Bytes) : 10 ∉ bytesToHexString sum := by
  intro h
  exact absurd (bytesToHexString_plain sum 10 h).1 (by decide)

/-- A sign and the digits behind it. -/
theorem dec_signed (v : Int) :
    ∃ (neg : Bool) (digits : Bytes), dec v = (if neg then [45] else []) ++ digits ∧ digits ≠ [] ∧
      (∀ d ∈ digits, isdigit d = true) ∧ v = if neg then -(decimal digits : Int) else decimal digits := by
  rcases Int.lt_or_le v 0 with hv | hv
  · refine ⟨true, dec (-v).toNat, dec_neg v hv, dec_ne _, dec_digits _, ?_⟩
    rw [decimal_dec, if_pos rfl]
    omega
  · obtain ⟨n, rfl⟩ := Int.eq_ofNat_of_zero_le hv
    exact ⟨false, dec n, rfl, dec_ne n, dec_digits n, by rw [decimal_dec]; rfl⟩

/-- A printed number is read back. -/
theorem readInt_dec {v lo hi : Int} (hlo : lo ≤ v) (hhi : v ≤ hi) {rest : Bytes}
    (hrest : rest.head?.any isdigit = false) (old : Int) :
    InStream.readInt lo hi { rest := dec v ++ rest } old = ({ rest, eof := rest.isEmpty }, v) := by
  obtain ⟨neg, digits, htext, hne, hdigits, hv⟩ := dec_signed v
  rw [htext]
  exact InStream.readInt_number hne hdigits hv hlo hhi hrest old

/-- Behind a part of a printed number the stream is at its end. -/
theorem readInt_cut {v : Int} {text : Bytes} (h : text <+: dec v) (lo hi old : Int) :
    (InStream.readInt lo hi { rest := text } old).1.good = false := by
  obtain ⟨neg, digits, htext, -, hdigits, -⟩ := dec_signed v
  rw [htext] at h
  exact InStream.readInt_part hdigits h lo hi old

theorem strtoll_sized {v : Int} (h0 : 0 ≤ v) (hlt : v < 2 ^ 63) : strtoll (dec v) = v := by
  obtain ⟨n, rfl⟩ := Int.eq_ofNat_of_zero_le h0
  have hread := strtoll_decDigits (n := n) (by omega)
  rwa [decDigits_eq_dec] at hread

theorem toCsType_ctorIdx (csType : CsType) : toCsType csType.ctorIdx = some csType := by
  cases csType <;> rfl

theorem ctorIdx_int (csType : CsType) : (-2 ^ 31 : Int) ≤ csType.ctorIdx ∧ (csType.ctorIdx : Int) ≤ 2 ^ 31 - 1 := by
  cases csType <;> decide

/-- A checksum is longer than any number. -/
theorem setCs_short {hexString : Bytes} (h : hexString.length < 32) (fpr : Fingerprint) (csType : CsType) :
    fpr.setCs hexString csType = none := by
  have hguess : CsType.guess (hexString.length / 2) = .invalid := by
    unfold CsType.guess
    repeat rw [if_neg (by omega)]
  cases csType <;> simp [Fingerprint.setCs, CsType.len, hguess] <;> omega

section Record

variable {sSrcPath : Bytes} {e : KeyEntry}

/-- Behind two lines, the checksum is what the third one gives. -/
theorem readKey_lines (he : EntryFits sSrcPath e) (text : Bytes) (v : KeyVars) :
    readKey { rest := dec e.1.size ++ 10 :: (dec e.1.csType.ctorIdx ++ 10 :: text) } v =
      let sum := InStream.getline { rest := text } []
      ({ v.fpr with size := e.1.size }.setCs sum.2 e.1.csType).map
        (fun fpr => (sum.1, { v with cs := sum.2, fpr, csType := e.1.csType.ctorIdx })) := by
  obtain ⟨hlo, hhi⟩ := ctorIdx_int e.1.csType
  have hnewline : InStream.getline { rest := 10 :: text } (dec e.1.size) = ({ rest := text }, []) :=
    InStream.getline_line (show (10 : UInt8) ∉ [] by simp) text _
  unfold readKey
  simp only [InStream.getline_line (dec_noNewline _), strtoll_sized he.size_nonneg he.size_lt,
    if_neg (Int.not_lt.mpr he.size_nonneg), readInt_dec hlo hhi (show (10 :: text).head?.any isdigit = false from rfl),
    List.isEmpty_cons, hnewline, toCsType_ctorIdx, Option.bind_some]
  cases Fingerprint.setCs _ _ _ <;> rfl

theorem setCs_sum (he : EntryFits sSrcPath e) (fpr : Fingerprint) :
    { fpr with size := e.1.size }.setCs (bytesToHexString e.1.csum) e.1.csType = some e.1 := by
  have hne : e.1.csum ≠ [] := by
    refine List.ne_nil_of_length_pos ?_
    rw [he.csum_length]
    have htype := he.csType_ne
    cases hcs : e.1.csType <;> simp_all [CsType.len]
  exact setCs_bytesToHexString _ _ he.csType_ne he.csum_length hne

/-- The size, the type and the checksum are read back. -/
theorem readKey_line (he : EntryFits sSrcPath e) (rest : Bytes) (v : KeyVars) :
    readKey { rest := keyHead e ++ 10 :: rest } v =
      some ({ rest }, { v with cs := bytesToHexString e.1.csum, fpr := e.1, csType := e.1.csType.ctorIdx }) := by
  have htext : keyHead e ++ 10 :: rest =
      dec e.1.size ++ 10 :: (dec e.1.csType.ctorIdx ++ 10 :: (bytesToHexString e.1.csum ++ 10 :: rest)) := by
    simp [keyHead]
  rw [htext, readKey_lines he]
  simp only [InStream.getline_line (hexString_noNewline _), setCs_sum he, Option.map_some]

/-- They are read at the end of the file too. -/
theorem readKey_last (he : EntryFits sSrcPath e) (v : KeyVars) :
    ∃ s, s.good = false ∧ readKey { rest := keyHead e } v =
      some (s, { v with cs := bytesToHexString e.1.csum, fpr := e.1, csType := e.1.csType.ctorIdx }) := by
  refine ⟨{ rest := [], eof := true, fail := (bytesToHexString e.1.csum).isEmpty }, rfl, ?_⟩
  rw [keyHead, readKey_lines he]
  simp only [InStream.getline_last (hexString_noNewline _), setCs_sum he, Option.map_some]

/-- What a cut leaves of a line, or of what is behind it. -/
theorem cut_line {text l rest : Bytes} (h : text <+: l ++ 10 :: rest) :
    text <+: l ∨ ∃ behind, text = l ++ 10 :: behind ∧ behind <+: rest := by
  obtain ⟨t, ht⟩ := h
  obtain ⟨left, hl, -⟩ | ⟨behind, htext, hbehind⟩ := List.append_eq_append_iff.mp ht
  · exact .inl ⟨left, hl.symm⟩
  · cases behind with
    | nil => exact .inl ⟨[], by simp [htext]⟩
    | cons c behind =>
      obtain ⟨rfl, hrest⟩ := List.cons.inj hbehind
      exact .inr ⟨behind, htext, t, hrest.symm⟩

theorem setCs_none {cs : Bytes} (h : cs.length < 32) (fpr : Fingerprint) (csType : Int) :
    (toCsType csType).bind (fun csType => fpr.setCs cs csType) = none := by
  cases toCsType csType with
  | none => rfl
  | some csType => exact setCs_short h fpr csType

/-- A sum without all of its digits is none. -/
theorem setCs_part {fpr : Fingerprint} {cs : Bytes} {csType : CsType} (htype : csType ≠ .invalid)
    (h : cs.length ≠ 2 * csType.len) : fpr.setCs cs csType = none := by
  simp [Fingerprint.setCs, htype, h]

/-- A part of them is not taken for a fingerprint. -/
theorem readKey_cut (he : EntryFits sSrcPath e) {text : Bytes} (h : text <+: keyHead e) (hne : text ≠ keyHead e)
    (v : KeyVars) : readKey { rest := text } v = none := by
  have hsize : (dec e.1.size).length < 32 := by
    obtain ⟨n, hn⟩ := Int.eq_ofNat_of_zero_le he.size_nonneg
    have hlt := he.size_lt
    rw [hn] at hlt ⊢
    exact (dec_length (k := 19) (by decide) (by omega)).trans_lt (by decide)
  obtain hcut | ⟨text, rfl, hcut⟩ := cut_line h
  · -- in the size
    have hline : 10 ∉ text := fun h10 => dec_noNewline _ (hcut.subset h10)
    have hshort : text.length < 32 := hcut.length_le.trans_lt hsize
    have hbad : ∀ fail, InStream.good { rest := [], eof := true, fail } = false := fun _ => rfl
    unfold readKey
    simp only [InStream.getline_last hline, InStream.readInt_bad (hbad _), InStream.getline_bad (hbad _),
      setCs_none hshort]
    exact ite_self _
  · obtain hcut | ⟨text, rfl, hsum⟩ := cut_line hcut
    · -- in the type
      have hbad := readInt_cut hcut (-2 ^ 31) (2 ^ 31 - 1) v.csType
      unfold readKey
      simp only [InStream.getline_line (dec_noNewline _), InStream.getline_bad hbad]
      rw [InStream.getline_bad (by simp [InStream.good])]
      simp only [setCs_none hsize]
      exact ite_self _
    · -- in the sum
      have hline : 10 ∉ text := fun h10 => hexString_noNewline _ (hsum.subset h10)
      have hlength : text.length ≠ 2 * e.1.csType.len := by
        intro hlen
        rw [← he.csum_length, ← length_bytesToHexString] at hlen
        exact hne (by rw [hsum.eq_of_length hlen, keyHead])
      rw [readKey_lines he]
      simp only [InStream.getline_last hline, setCs_part he.csType_ne hlength, Option.map_none]

/-- The path and the time are read back. -/
theorem readPath_line (he : EntryFits sSrcPath e) (rest : Bytes) (v : KeyVars) :
    readPath sSrcPath { rest := e.2.sPath.drop (sSrcPath.length + 1) ++ 10 :: (dec e.2.mtime ++ 10 :: rest) } v =
      ({ rest }, { v with cs := [], sPath := e.2.sPath, mtime := e.2.mtime }) := by
  obtain ⟨name, hpath, hname⟩ := he.path
  have hdrop : e.2.sPath.drop (sSrcPath.length + 1) = name := by
    rw [hpath, List.drop_append]
    simp
  have hlt := he.mtime_lt
  have hnewline := InStream.getline_line (show (10 : UInt8) ∉ [] by simp) rest v.cs
  rw [List.nil_append] at hnewline
  rw [hdrop]
  unfold readPath
  simp only [InStream.getline_line hname,
    readInt_dec he.mtime_ge (Int.le_sub_one_of_lt hlt) (show (10 :: rest).head?.any isdigit = false from rfl),
    List.isEmpty_cons, hnewline, ← hpath]

/-- Behind a part of them the loop is left. -/
theorem readPath_cut (he : EntryFits sSrcPath e) {text : Bytes}
    (h : text <+: e.2.sPath.drop (sSrcPath.length + 1) ++ 10 :: dec e.2.mtime) (v : KeyVars) :
    (readPath sSrcPath { rest := text } v).1.good = false := by
  obtain ⟨name, hpath, hname⟩ := he.path
  have hdrop : e.2.sPath.drop (sSrcPath.length + 1) = name := by
    rw [hpath, List.drop_append]
    simp
  rw [hdrop] at h
  obtain hcut | ⟨text, rfl, hcut⟩ := cut_line h
  · have hline : 10 ∉ text := fun h10 => hname (hcut.subset h10)
    have hbad : ∀ fail, InStream.good { rest := [], eof := true, fail } = false := fun _ => rfl
    unfold readPath
    simp only [InStream.getline_last hline, InStream.readInt_bad (hbad _), InStream.getline_bad (hbad _), hbad]
  · have hbad := readInt_cut hcut (-2 ^ 63) (2 ^ 63 - 1) v.mtime
    unfold readPath
    simp only [InStream.getline_line hname, InStream.getline_bad hbad]
    simp [InStream.good]

theorem readPath_fpr (s : InStream) (v : KeyVars) : (readPath sSrcPath s v).2.fpr = v.fpr := rfl

theorem keyPass_some {input s : InStream} {v v' : KeyVars} (h : readKey input v = some (s, v')) :
    keyPass sSrcPath input v = some (readPath sSrcPath s v') := by
  rw [keyPass, h, Option.map_some]

/-- Nothing more is read from a stream at its end. -/
theorem readPath_bad {s : InStream} (h : s.good = false) (v : KeyVars) : (readPath sSrcPath s v).1.good = false := by
  cases hgood : (readPath sSrcPath s v).1.good with
  | false => rfl
  | true => exact absurd (readPath_shrinks hgood).1 (by simp [h])

/-- A record is read back as its entry, with the flag not set. -/
theorem keyPass_line (he : EntryFits sSrcPath e) (rest : Bytes) (v : KeyVars) :
    keyPass sSrcPath { rest := keyText sSrcPath e ++ rest } v =
      some ({ rest }, ⟨[], e.1, e.1.csType.ctorIdx, e.2.sPath, e.2.mtime⟩) := by
  have htext : keyText sSrcPath e ++ rest =
      keyHead e ++ 10 :: (e.2.sPath.drop (sSrcPath.length + 1) ++ 10 :: (dec e.2.mtime ++ 10 :: rest)) := by
    simp [keyText]
  rw [htext, keyPass_some (readKey_line he _ v), readPath_line he]

/-- Of a record that is cut, no more than the fingerprint is sure, and the loop is left. -/
theorem keyPass_cut (he : EntryFits sSrcPath e) {text : Bytes} (h : text <+: keyText sSrcPath e)
    (hne : text ≠ keyText sSrcPath e) (v : KeyVars) :
    keyPass sSrcPath { rest := text } v = none ∨
      (keyHead e).length ≤ text.length ∧
        ∃ r, keyPass sSrcPath { rest := text } v = some r ∧ r.1.good = false ∧ r.2.fpr = e.1 := by
  obtain hcut | ⟨text, rfl, hcut⟩ := cut_line h
  · by_cases hhead : text = keyHead e
    · obtain ⟨s, hs, hkey⟩ := readKey_last he v
      subst hhead
      exact .inr ⟨le_rfl, _, keyPass_some hkey, readPath_bad hs _, readPath_fpr s _⟩
    · exact .inl (by rw [keyPass, readKey_cut he hcut hhead, Option.map_none])
  · have hpart : text <+: e.2.sPath.drop (sSrcPath.length + 1) ++ 10 :: dec e.2.mtime := by
      have hconcat : text <+: (e.2.sPath.drop (sSrcPath.length + 1) ++ 10 :: dec e.2.mtime) ++ [10] := by
        simpa using hcut
      refine (List.prefix_concat_iff.mp hconcat).resolve_left ?_
      rintro rfl
      exact hne (by simp [keyText])
    exact .inr ⟨by simp, _, keyPass_some (readKey_line he text v), readPath_cut he hpart _, readPath_fpr _ _⟩

end Record

theorem loadKeys_none {sSrcPath : Bytes} {stat : Bytes → Option Int} {keys : ImportKeys} {input : InStream}
    {v : KeyVars} (h : keyPass sSrcPath input v = none) : loadKeys sSrcPath stat keys input v = keys := by
  rw [loadKeys.eq_def]
  split
  · rfl
  · rename_i hpass
    rw [h] at hpass
    exact absurd hpass (by simp)

theorem loadKeys_some {sSrcPath : Bytes} {stat : Bytes → Option Int} {keys : ImportKeys} {input : InStream}
    {v : KeyVars} {r : InStream × KeyVars} (h : keyPass sSrcPath input v = some r) :
    loadKeys sSrcPath stat keys input v =
      let keys := if stat (cstr r.2.sPath) = some r.2.mtime then keys.load r.2.entry else keys
      if r.1.good = true then loadKeys sSrcPath stat keys r.1 r.2 else keys := by
  rw [loadKeys.eq_def]
  split
  · rename_i hpass
    rw [h] at hpass
    exact absurd hpass (by simp)
  · rename_i hpass
    rw [h] at hpass
    obtain rfl := Option.some.inj hpass
    rfl

/-- The file of an entry has still the modification time. -/
def unchanged (stat : Bytes → Option Int) (e : KeyEntry) : Bool := stat e.2.sPath == some e.2.mtime

def KeyEntry.unused (e : KeyEntry) : KeyEntry := (e.1, { e.2 with bFileUsed := false })

/-- What is loaded from whole records. -/
def loadEntries (stat : Bytes → Option Int) (keys : ImportKeys) (entries : List KeyEntry) : ImportKeys :=
  (entries.filter (unchanged stat)).foldl (fun keys e => keys.load (KeyEntry.unused e)) keys

/-- The first bytes end in front of the path of a record, or behind its end. -/
def cleanCut (sSrcPath : Bytes) : Nat → List KeyEntry → Bool
  | _, [] => true
  | n, e :: entries =>
    let size := (keyText sSrcPath e).length
    if size ≤ n then cleanCut sSrcPath (n - size) entries else n < (keyHead e).length

theorem keyPass_nil (sSrcPath : Bytes) (v : KeyVars) : keyPass sSrcPath { rest := [] } v = none := by
  have hkey : readKey { rest := [] } v = none := by
    have hbad : InStream.good { rest := [], eof := true, fail := true } = false := rfl
    unfold readKey
    simp only [InStream.getline_last (show (10 : UInt8) ∉ [] by simp), List.isEmpty_nil, InStream.readInt_bad hbad,
      InStream.getline_bad hbad, setCs_none (show ([] : Bytes).length < 32 by decide)]
    exact ite_self _
  rw [keyPass, hkey, Option.map_none]

theorem loadEntries_cons (stat : Bytes → Option Int) (keys : ImportKeys) (e : KeyEntry) (entries : List KeyEntry) :
    loadEntries stat keys (e :: entries) =
      loadEntries stat (if stat e.2.sPath = some e.2.mtime then keys.load (KeyEntry.unused e) else keys) entries := by
  by_cases hstat : stat e.2.sPath = some e.2.mtime
  · simp [loadEntries, unchanged, hstat]
  · simp [loadEntries, unchanged, hstat]

theorem loadKeys_line {sSrcPath : Bytes} (stat : Bytes → Option Int) {e : KeyEntry} (he : EntryFits sSrcPath e)
    (rest : Bytes) (keys : ImportKeys) (v : KeyVars) :
    ∃ v', loadKeys sSrcPath stat keys { rest := keyText sSrcPath e ++ rest } v =
      loadKeys sSrcPath stat
        (if stat e.2.sPath = some e.2.mtime then keys.load (KeyEntry.unused e) else keys) { rest } v' := by
  have hcstr : cstr e.2.sPath = e.2.sPath := cstr_eq_self he.no_nul
  refine ⟨⟨[], e.1, e.1.csType.ctorIdx, e.2.sPath, e.2.mtime⟩, ?_⟩
  rw [loadKeys_some (keyPass_line he rest v)]
  dsimp only
  rw [hcstr, if_pos (show InStream.good { rest } = true from rfl)]
  rfl

theorem loadKeys_cut {sSrcPath : Bytes} (stat : Bytes → Option Int) {e : KeyEntry} (he : EntryFits sSrcPath e)
    {text : Bytes} (h : text <+: keyText sSrcPath e) (hne : text ≠ keyText sSrcPath e) (keys : ImportKeys)
    (v : KeyVars) :
    loadKeys sSrcPath stat keys { rest := text } v = keys ∨
      (keyHead e).length ≤ text.length ∧
        ∃ info, loadKeys sSrcPath stat keys { rest := text } v = keys.load (e.1, info) := by
  obtain hpass | ⟨hlong, r, hpass, hbad, hfpr⟩ := keyPass_cut he h hne v
  · exact .inl (loadKeys_none hpass)
  · rw [loadKeys_some hpass]
    dsimp only
    rw [hbad, if_neg Bool.false_ne_true]
    split
    · exact .inr ⟨hlong, _, by rw [KeyVars.entry, hfpr]⟩
    · exact .inl rfl

/-- Whole records are loaded as they were saved, each one whose file has still its modification time. A cut may
leave one more entry behind them. -/
theorem loadKeys_records {sSrcPath : Bytes} {stat : Bytes → Option Int} {entries : List KeyEntry}
    (hfits : ∀ e ∈ entries, EntryFits sSrcPath e) (n : Nat) (keys : ImportKeys) (v : KeyVars) :
    let whole := wholeRecords sSrcPath n entries
    let loaded := loadEntries stat keys whole
    let result := loadKeys sSrcPath stat keys { rest := (entries.flatMap (keyText sSrcPath)).take n } v
    result = loaded ∨
      cleanCut sSrcPath n entries = false ∧
        ∃ e info, entries[whole.length]? = some e ∧ result = loaded.load (e.1, info) := by
  induction entries generalizing n keys v with
  | nil =>
    refine .inl (loadKeys_none ?_)
    rw [List.flatMap_nil, List.take_nil]
    exact keyPass_nil sSrcPath v
  | cons e entries ih =>
    obtain ⟨he, hfits⟩ := List.forall_mem_cons.mp hfits
    rw [List.flatMap_cons]
    by_cases hn : (keyText sSrcPath e).length ≤ n
    · -- the first record is whole
      have htext : (keyText sSrcPath e ++ entries.flatMap (keyText sSrcPath)).take n =
          keyText sSrcPath e ++ (entries.flatMap (keyText sSrcPath)).take (n - (keyText sSrcPath e).length) := by
        rw [List.take_append, List.take_of_length_le hn]
      obtain ⟨v', hline⟩ := loadKeys_line stat he
        ((entries.flatMap (keyText sSrcPath)).take (n - (keyText sSrcPath e).length)) keys v
      rw [htext, hline]
      simp only [wholeRecords, cleanCut, if_pos hn, List.length_cons, List.getElem?_cons_succ, loadEntries_cons]
      exact ih hfits _ _ v'
    · -- the cut is in it
      have htext : (keyText sSrcPath e ++ entries.flatMap (keyText sSrcPath)).take n = (keyText sSrcPath e).take n :=
        List.take_append_of_le_length (by omega)
      have hlength : ((keyText sSrcPath e).take n).length = n := List.length_take_of_le (by omega)
      have hne : (keyText sSrcPath e).take n ≠ keyText sSrcPath e := by
        intro heq
        rw [heq] at hlength
        omega
      rw [htext]
      simp only [wholeRecords, cleanCut, if_neg hn]
      obtain hloaded | ⟨hlong, info, hloaded⟩ := loadKeys_cut stat he (List.take_prefix n _) hne keys v
      · exact .inl hloaded
      · refine .inr ⟨?_, e, info, rfl, hloaded⟩
        rw [hlength] at hlong
        exact decide_eq_false (by omega)

theorem lookup_ne {q : Fingerprint} {e : KeyEntry} (h : q ≠ e.1) (l : List KeyEntry) :
    (e :: l).lookup q = l.lookup q := by
  rw [List.lookup_cons, beq_false_of_ne h]

/-- Of the entries with one fingerprint, the last one stays. -/
theorem lookup_load (entries : List KeyEntry) (keys : ImportKeys) (fpr : Fingerprint) :
    (entries.foldl ImportKeys.load keys).importMap.lookup fpr =
      (entries.reverse.lookup fpr).or (keys.importMap.lookup fpr) := by
  induction entries generalizing keys with
  | nil => rfl
  | cons e entries ih =>
    rw [List.foldl_cons, ih, List.reverse_cons, List.lookup_append, Option.or_assoc]
    congr 1
    rw [ImportKeys.load, OrdMap.lookup_insert]
    by_cases h : fpr = e.1
    · rw [if_pos h, h, List.lookup_cons_self, Option.some_or]
    · rw [if_neg h, lookup_ne h, List.lookup_nil, Option.none_or]

theorem precached_load (entries : List KeyEntry) (keys : ImportKeys) :
    (entries.foldl ImportKeys.load keys).precachedList =
      entries.reverse.map (fun e => e.2.sPath) ++ keys.precachedList := by
  induction entries generalizing keys with
  | nil => rfl
  | cons e entries ih => simp [ih, ImportKeys.load]

theorem loadEntries_eq (stat : Bytes → Option Int) (keys : ImportKeys) (entries : List KeyEntry) :
    loadEntries stat keys entries =
      ((entries.filter (unchanged stat)).map KeyEntry.unused).foldl ImportKeys.load keys := by
  rw [List.foldl_map, loadEntries]

theorem wholeRecords_zero (sSrcPath : Bytes) (entries : List KeyEntry) :
    wholeRecords sSrcPath 0 entries = [] := by
  cases entries with
  | nil => rfl
  | cons e entries =>
    refine if_neg ?_
    simp [keyText]

/-- Nothing is missing in the whole file. -/
theorem wholeRecords_all {sSrcPath : Bytes} {entries : List KeyEntry} {n : Nat}
    (h : (entries.flatMap (keyText sSrcPath)).length ≤ n) :
    wholeRecords sSrcPath n entries = entries ∧ cleanCut sSrcPath n entries = true := by
  induction entries generalizing n with
  | nil => exact ⟨rfl, rfl⟩
  | cons e entries ih =>
    rw [List.flatMap_cons, List.length_append] at h
    obtain ⟨hwhole, hclean⟩ := ih (n := n - (keyText sSrcPath e).length) (by omega)
    have hn : (keyText sSrcPath e).length ≤ n := by omega
    simp only [wholeRecords, cleanCut, if_pos hn, hwhole, hclean, and_self]

theorem keyCacheText_length (sSrcPath : Bytes) (entries : List KeyEntry) :
    (keyCacheText sSrcPath entries).length = (entries.flatMap (keyText sSrcPath)).length + 5 := by
  have hsig : fmtSig.length = 4 := rfl
  rw [keyCacheText, List.length_append, List.length_cons, hsig]
  omega

/-- In a file that ends in the signature there is no record. -/
theorem loadKeyCache_short {sSrcPath : Bytes} {stat : Bytes → Option Int} {n : Nat} (hn : n ≤ 4) :
    loadKeyCache sSrcPath stat (some (fmtSig.take n)) = {} := by
  have hline : 10 ∉ fmtSig.take n := fun h10 => absurd ((List.take_subset n _) h10) (by decide)
  have hshort : (fmtSig.take n).length < 32 := by
    rw [List.length_take]
    omega
  have hbad : ∀ fail, InStream.good { rest := [], eof := true, fail } = false := fun _ => rfl
  unfold loadKeyCache
  simp only [InStream.getline_last hline]
  split
  · rfl
  · refine loadKeys_none ?_
    have hkey : ∀ fail, readKey { rest := [], eof := true, fail } { cs := fmtSig.take n } = none := by
      intro fail
      unfold readKey
      simp only [InStream.getline_bad (hbad _), InStream.readInt_bad (hbad _), setCs_none hshort]
      exact ite_self _
    rw [keyPass, hkey, Option.map_none]

theorem loadKeyCache_records {sSrcPath : Bytes} (stat : Bytes → Option Int) {entries : List KeyEntry}
    (hfits : ∀ e ∈ entries, EntryFits sSrcPath e) (n : Nat) :
    let whole := wholeRecords sSrcPath (n - 5) entries
    let loaded := loadEntries stat {} whole
    let result := loadKeyCache sSrcPath stat (some ((keyCacheText sSrcPath entries).take n))
    result = loaded ∨
      cleanCut sSrcPath (n - 5) entries = false ∧
        ∃ e info, entries[whole.length]? = some e ∧ result = loaded.load (e.1, info) := by
  by_cases hn : n ≤ 4
  · refine .inl ?_
    have htext : (keyCacheText sSrcPath entries).take n = fmtSig.take n := List.take_append_of_le_length hn
    rw [htext, loadKeyCache_short hn, show n - 5 = 0 by omega, wholeRecords_zero]
    rfl
  · have htext : (keyCacheText sSrcPath entries).take n =
        fmtSig ++ 10 :: (entries.flatMap (keyText sSrcPath)).take (n - 5) := by
      have hsig : (fmtSig ++ [10]).length = 5 := rfl
      rw [keyCacheText, List.append_cons, List.take_append, List.take_of_length_le (by omega), hsig]
      simp
    have hline : 10 ∉ fmtSig := by decide
    rw [htext]
    unfold loadKeyCache
    simp only [InStream.getline_line hline, bne_self_eq_false, Bool.false_eq_true, if_false]
    exact loadKeys_records hfits (n - 5) {} _

/-- What is loaded from a key cache of which a kill has left the first bytes. Of the entries whose whole records are
in them and whose files have still the modification time, the last one with a fingerprint is in the map, and all of
them are precached. One entry more may come from the record that is cut, with its fingerprint. -/
theorem keyCache_cut (sSrcPath : Bytes) (entries : List KeyEntry) (hfits : ∀ e ∈ entries, EntryFits sSrcPath e)
    (stat : Bytes → Option Int) (n : Nat) :
    let whole := wholeRecords sSrcPath (n - 5) entries
    let keys := loadKeyCache sSrcPath stat (some ((keyCacheText sSrcPath entries).take n))
    ∃ torn : Option KeyEntry,
      (∀ t, torn = some t → cleanCut sSrcPath (n - 5) entries = false ∧
        ∃ e, entries[whole.length]? = some e ∧ t.1 = e.1) ∧
      (∀ fpr, keys.importMap.lookup fpr =
        (torn.toList ++ ((whole.filter (unchanged stat)).map KeyEntry.unused).reverse).lookup fpr) ∧
      (∀ path, path ∈ keys.precachedList ↔
        (∃ t, torn = some t ∧ t.2.sPath = path) ∨ ∃ e ∈ whole, stat path = some e.2.mtime ∧ e.2.sPath = path) ∧
      ((keyCacheText sSrcPath entries).length ≤ n → whole = entries ∧ torn = none) := by
  intro whole keys
  let loaded := (whole.filter (unchanged stat)).map KeyEntry.unused
  have hall : (keyCacheText sSrcPath entries).length ≤ n →
      whole = entries ∧ cleanCut sSrcPath (n - 5) entries = true := by
    intro hn
    rw [keyCacheText_length] at hn
    exact wholeRecords_all (by omega)
  have hkeys : ∃ torn : Option KeyEntry,
      (∀ t, torn = some t → cleanCut sSrcPath (n - 5) entries = false ∧
        ∃ e, entries[whole.length]? = some e ∧ t.1 = e.1) ∧
      keys = (loaded ++ torn.toList).foldl ImportKeys.load {} := by
    obtain hloaded | ⟨hclean, e, info, he, hloaded⟩ := loadKeyCache_records stat hfits n
    · refine ⟨none, by simp, ?_⟩
      rw [Option.toList_none, List.append_nil]
      exact hloaded.trans (loadEntries_eq stat {} whole)
    · refine ⟨some (e.1, info), ?_, ?_⟩
      · rintro t ⟨rfl⟩
        exact ⟨hclean, e, he, rfl⟩
      · rw [List.foldl_append, ← loadEntries_eq]
        exact hloaded
  obtain ⟨torn, htorn, hkeys⟩ := hkeys
  refine ⟨torn, htorn, ?_, ?_, ?_⟩
  · intro fpr
    rw [hkeys, lookup_load, List.reverse_append]
    cases torn <;> simp [loaded]
  · intro path
    have hmem : path ∈ loaded.map (fun e => e.2.sPath) ↔
        ∃ e ∈ whole, stat path = some e.2.mtime ∧ e.2.sPath = path := by
      simp only [loaded, List.map_map, List.mem_map, List.mem_filter, unchanged, Function.comp_apply,
        KeyEntry.unused, beq_iff_eq]
      constructor
      · rintro ⟨e, ⟨he, hstat⟩, rfl⟩
        exact ⟨e, he, hstat, rfl⟩
      · rintro ⟨e, he, hstat, rfl⟩
        exact ⟨e, ⟨he, hstat⟩, rfl⟩
    have hback : path ∈ (loaded ++ torn.toList).reverse.map (fun e => e.2.sPath) ↔
        (∃ t ∈ torn.toList, t.2.sPath = path) ∨ path ∈ loaded.map (fun e => e.2.sPath) := by
      rw [List.reverse_append, List.map_append, List.mem_append, List.map_reverse, List.map_reverse,
        List.mem_reverse, List.mem_reverse, List.mem_map]
    rw [hkeys, precached_load, List.append_nil, hback, hmem]
    simp
  · intro hn
    obtain ⟨hwhole, hclean⟩ := hall hn
    refine ⟨hwhole, ?_⟩
    cases torn with
    | none => rfl
    | some t => exact absurd (htorn t rfl).1 (by simp [hclean])

/-- Two files of the import directory. -/
def twoKeys : List KeyEntry :=
  [({ size := 60, csType := .md5, csum := List.replicate 16 171 }, { sPath := lit "/c/_import/a.deb", mtime := 77 }),
    ({ size := 61, csType := .md5, csum := List.replicate 16 205 }, { sPath := lit "/c/_import/b.deb", mtime := -3 })]

def twoStat (path : Bytes) : Option Int :=
  if path = lit "/c/_import/a.deb" then some 77 else if path = lit "/c/_import/b.deb" then some (-3) else none

theorem twoKeys_fit : ∀ e ∈ twoKeys, EntryFits (lit "/c/_import") e := by
  have hpath : ∀ name : Bytes, 10 ∉ name → ∃ n, lit "/c/_import" ++ 47 :: name = lit "/c/_import" ++ 47 :: n ∧ 10 ∉ n :=
    fun name h => ⟨name, rfl, h⟩
  intro e he
  obtain rfl | he := List.mem_cons.mp he
  · exact ⟨by decide, by decide, by decide, by decide, hpath (lit "a.deb") (by decide), by decide,
      by decide, by decide⟩
  · obtain rfl := List.mem_singleton.mp he
    exact ⟨by decide, by decide, by decide, by decide, hpath (lit "b.deb") (by decide), by decide,
      by decide, by decide⟩

/-- A whole file gives the second one back, too. -/
theorem keyCache_cut_nowhere :
    (loadKeyCache (lit "/c/_import") twoStat (some (keyCacheText (lit "/c/_import") twoKeys))).importMap.lookup
        { size := 61, csType := .md5, csum := List.replicate 16 205 } =
      some { sPath := lit "/c/_import/b.deb", mtime := -3 } := by
  obtain ⟨torn, -, hmap, -, hall⟩ := keyCache_cut (lit "/c/_import") twoKeys twoKeys_fit twoStat
    (keyCacheText (lit "/c/_import") twoKeys).length
  obtain ⟨hwhole, rfl⟩ := hall le_rfl
  rw [List.take_length, hwhole] at hmap
  have hall : (twoKeys.filter (unchanged twoStat)).map KeyEntry.unused = twoKeys := by decide +kernel
  rw [hmap, hall]
  decide +kernel

end Acng
