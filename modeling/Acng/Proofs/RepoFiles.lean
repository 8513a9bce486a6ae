import Acng.Proofs.HttpUrl
import Acng.RepoFiles

namespace Acng
open Lib

namespace RewriteLine

/-- What a line says by itself. -/
def mappings (sRepName : Bytes) : RewriteLine → List Mapping
  | .url entry => [⟨entry, sRepName⟩]
  | _ => []

def hosts : RewriteLine → List Bytes
  | .field key val => RewriteReader.siteOf key val
  | _ => []

def paths : RewriteLine → List Bytes
  | .field key val => RewriteReader.archiveOf key val
  | _ => []

end RewriteLine

/-- The lines between two blank ones: URLs, and the fields of a block. -/
structure RewriteBlock where
  urls : List Mapping
  hosts : List Bytes
  paths : List Bytes
deriving DecidableEq

namespace RewriteBlock

def ofLines (sRepName : Bytes) (lines : List Bytes) : RewriteBlock where
  urls := lines.flatMap (fun line => (RewriteLine.ofLine line).mappings sRepName)
  hosts := lines.flatMap (fun line => (RewriteLine.ofLine line).hosts)
  paths := lines.flatMap (fun line => (RewriteLine.ofLine line).paths)

/-- One mapping for each URL line, and the hosts of the block with its own paths. -/
def mappings (sRepName : Bytes) (block : RewriteBlock) : List Mapping :=
  block.urls ++ RewriteReader.product sRepName block.hosts block.paths

/-- The blocks of a file. -/
def ofText (sRepName text : Bytes) : List RewriteBlock :=
  ((fileLines text).splitOnP (fun line => RewriteLine.ofLine line == .blank)).map
    (ofLines sRepName)

/-- No block has a path without a host, and none that has hosts but no path is in front of one with
a path. -/
structure Separate (blocks : List RewriteBlock) : Prop where
  complete : ∀ block ∈ blocks, block.paths ≠ [] → block.hosts ≠ []
  apart : blocks.Pairwise (fun a b => a.hosts ≠ [] → a.paths = [] → b.paths = [])

theorem separate_cons (block : RewriteBlock) (blocks : List RewriteBlock) :
    Separate (block :: blocks) ↔
      (block.paths ≠ [] → block.hosts ≠ []) ∧
        (block.hosts ≠ [] → block.paths = [] → ∀ b ∈ blocks, b.paths = []) ∧ Separate blocks := by
  constructor
  · rintro ⟨hcomplete, hapart⟩
    obtain ⟨hfront, hrest⟩ := List.forall_mem_cons.mp hcomplete
    obtain ⟨hfront', hrest'⟩ := List.pairwise_cons.mp hapart
    exact ⟨hfront, fun hhosts hpaths b hb => hfront' b hb hhosts hpaths, hrest, hrest'⟩
  · rintro ⟨hfront, hfront', hrest, hrest'⟩
    exact ⟨List.forall_mem_cons.mpr ⟨hfront, hrest⟩,
      List.pairwise_cons.mpr ⟨fun b hb hhosts hpaths => hfront' hhosts hpaths b hb, hrest'⟩⟩

end RewriteBlock

namespace RewriteReader

theorem product_nil (sRepName : Bytes) (hosts : List Bytes) : product sRepName hosts [] = [] := by
  simp [product]

theorem length_product (sRepName : Bytes) (hosts paths : List Bytes) :
    (product sRepName hosts paths).length = hosts.length * paths.length := by
  simp [product]

theorem fixPostPreSlashes_of_slashed {path : Bytes} (hfront : path.head? = some 47)
    (hback : path.getLast? = some 47) : fixPostPreSlashes path = path := by
  unfold fixPostPreSlashes
  simp [hfront, hback]

/-- The rule for a path of a block has it as it is. -/
theorem archiveOf_fixed {key val path : Bytes} (h : path ∈ archiveOf key val) :
    fixPostPreSlashes path = path := by
  unfold archiveOf at h
  split at h
  · obtain rfl := List.mem_singleton.mp h
    split
    · decide
    · exact fixPostPreSlashes_of_slashed (fixPostPreSlashes_front val) (fixPostPreSlashes_back val)
  · cases h

/-- A whole block and the blank line behind it. -/
def readBlock (sRepName : Bytes) (st : RewriteReader) (block : RewriteBlock) :
    Option RewriteReader :=
  commit sRepName
    { added := st.added ++ block.urls, hosts := st.hosts ++ block.hosts
      paths := st.paths ++ block.paths }

theorem readLine_of_field (sRepName : Bytes) (st : RewriteReader) {line : Bytes}
    (hblank : RewriteLine.ofLine line ≠ .blank) (hbad : RewriteLine.ofLine line ≠ .bad) :
    st.readLine sRepName line = some
      { added := st.added ++ (RewriteLine.ofLine line).mappings sRepName
        hosts := st.hosts ++ (RewriteLine.ofLine line).hosts
        paths := st.paths ++ (RewriteLine.ofLine line).paths } := by
  unfold readLine
  cases hline : RewriteLine.ofLine line with
  | comment => simp [RewriteLine.mappings, RewriteLine.hosts, RewriteLine.paths]
  | url entry => simp [RewriteLine.mappings, RewriteLine.hosts, RewriteLine.paths]
  | blank => exact absurd hline hblank
  | field key val => simp [RewriteLine.mappings, RewriteLine.hosts, RewriteLine.paths]
  | bad => exact absurd hline hbad

theorem foldlM_readLine (sRepName : Bytes) (lines : List Bytes) (st : RewriteReader)
    (h : ∀ line ∈ lines, RewriteLine.ofLine line ≠ .blank ∧ RewriteLine.ofLine line ≠ .bad) :
    lines.foldlM (readLine sRepName) st = some
      { added := st.added ++ (RewriteBlock.ofLines sRepName lines).urls
        hosts := st.hosts ++ (RewriteBlock.ofLines sRepName lines).hosts
        paths := st.paths ++ (RewriteBlock.ofLines sRepName lines).paths } := by
  induction lines generalizing st with
  | nil => simp [RewriteBlock.ofLines]
  | cons line lines ih =>
    obtain ⟨⟨hblank, hbad⟩, hrest⟩ := List.forall_mem_cons.mp h
    rw [List.foldlM_cons, readLine_of_field sRepName st hblank hbad, Option.bind_eq_bind,
      Option.bind_some, ih _ hrest]
    simp [RewriteBlock.ofLines, List.append_assoc]

/-- The file is read block by block. -/
theorem readRewriteFile_eq (sRepName text : Bytes)
    (h : ∀ line ∈ fileLines text, RewriteLine.ofLine line ≠ .bad) :
    readRewriteFile sRepName text =
      ((RewriteBlock.ofText sRepName text).foldlM (readBlock sRepName) {}).map
        RewriteReader.added := by
  have hblank (st : RewriteReader) (line : Bytes)
      (hline : (RewriteLine.ofLine line == .blank) = true) :
      readLine sRepName st line = commit sRepName st := by
    unfold readLine
    rw [beq_iff_eq.mp hline]
  unfold readRewriteFile RewriteBlock.ofText
  rw [List.foldlM_map, foldlM_chunks_eq hblank (by decide) (fileLines text)]
  intro st lines hlines
  rw [foldlM_readLine sRepName lines st
    (fun line hline => ⟨by simpa using (hlines line hline).2, h line (hlines line hline).1⟩)]
  rfl

/-- A block without a path only has its URLs; its hosts wait. -/
theorem readBlock_pathless (sRepName : Bytes) (st : RewriteReader) (block : RewriteBlock)
    (hst : st.paths = []) (hpaths : block.paths = []) :
    readBlock sRepName st block =
      some { added := st.added ++ block.urls, hosts := st.hosts ++ block.hosts } := by
  unfold readBlock commit
  rw [hst, hpaths]
  cases st.hosts ++ block.hosts <;> simp

theorem readBlock_siteless (sRepName : Bytes) (st : RewriteReader) (block : RewriteBlock)
    (hhosts : st.hosts ++ block.hosts = []) (hpaths : block.paths ≠ []) :
    readBlock sRepName st block = none := by
  unfold readBlock commit
  simp [hhosts, hpaths]

/-- The hosts that have waited get the paths of this block. -/
theorem readBlock_full (sRepName : Bytes) (st : RewriteReader) (block : RewriteBlock)
    (hst : st.paths = []) (hhosts : st.hosts ++ block.hosts ≠ []) (hpaths : block.paths ≠ []) :
    readBlock sRepName st block = some
      { added := st.added ++ block.urls
          ++ product sRepName (st.hosts ++ block.hosts) block.paths } := by
  unfold readBlock commit
  have hhosts' : (st.hosts ++ block.hosts).isEmpty = false := by simpa using hhosts
  have hpaths' : block.paths.isEmpty = false := by simpa using hpaths
  rw [hst, List.nil_append]
  simp only [hhosts', hpaths', Bool.and_false, Bool.not_false, Bool.false_eq_true,
    if_false]

/-- Nothing that the blocks have on their own is left out, whatever hosts have waited. -/
theorem length_le_readBlocks (sRepName : Bytes) (blocks : List RewriteBlock)
    (st out : RewriteReader) (hst : st.paths = [])
    (h : blocks.foldlM (readBlock sRepName) st = some out) :
    st.added.length + (blocks.flatMap (RewriteBlock.mappings sRepName)).length
      ≤ out.added.length := by
  induction blocks generalizing st with
  | nil =>
    obtain rfl := Option.some.inj h
    simp
  | cons block blocks ih =>
    rw [List.foldlM_cons] at h
    rw [List.flatMap_cons, List.length_append, RewriteBlock.mappings, List.length_append,
      length_product]
    by_cases hpaths : block.paths = []
    · rw [readBlock_pathless sRepName st block hst hpaths] at h
      have := ih _ rfl h
      simp only [List.length_append] at this
      simp only [hpaths, List.length_nil, Nat.mul_zero]
      omega
    · by_cases hhosts : st.hosts ++ block.hosts = []
      · rw [readBlock_siteless sRepName st block hhosts hpaths] at h
        cases h
      · rw [readBlock_full sRepName st block hst hhosts hpaths] at h
        have := ih _ rfl h
        simp only [List.length_append, length_product, Nat.add_mul] at this
        omega

/-- From a state with hosts that wait: the blocks add what is theirs exactly where nobody takes
these hosts and the blocks are separate. -/
theorem readBlocks_iff (sRepName : Bytes) (blocks : List RewriteBlock) (st : RewriteReader)
    (hst : st.paths = []) :
    (blocks.foldlM (readBlock sRepName) st).map RewriteReader.added =
        some (st.added ++ blocks.flatMap (RewriteBlock.mappings sRepName)) ↔
      (st.hosts ≠ [] → ∀ block ∈ blocks, block.paths = []) ∧ RewriteBlock.Separate blocks := by
  induction blocks generalizing st with
  | nil => simp [RewriteBlock.Separate.mk]
  | cons block blocks ih =>
    rw [List.foldlM_cons, RewriteBlock.separate_cons, List.flatMap_cons, RewriteBlock.mappings,
      List.forall_mem_cons]
    by_cases hpaths : block.paths = []
    · rw [readBlock_pathless sRepName st block hst hpaths, hpaths, product_nil, List.append_nil,
        ← List.append_assoc]
      refine (ih _ rfl).trans ?_
      simp only [ne_eq, List.append_eq_nil_iff, not_and_or, or_imp, forall_const, true_and,
        not_true_eq_false, false_imp_iff, and_assoc]
    · by_cases hhosts : st.hosts ++ block.hosts = []
      · rw [readBlock_siteless sRepName st block hhosts hpaths]
        simp [hpaths, (List.append_eq_nil_iff.mp hhosts).2]
      · rw [readBlock_full sRepName st block hst hhosts hpaths]
        by_cases hwait : st.hosts = []
        · rw [hwait, List.nil_append] at hhosts ⊢
          rw [← List.append_assoc, ← List.append_assoc, Option.bind_eq_bind, Option.bind_some]
          refine (ih ⟨st.added ++ block.urls ++ product sRepName block.hosts block.paths, [], []⟩
            rfl).trans ?_
          simp [hpaths, hhosts]
        · -- the hosts that have waited give mappings that no block has
          refine iff_of_false ?_ (fun h => hpaths (h.1 hwait).1)
          intro h
          obtain ⟨out, hout, hadded⟩ := Option.map_eq_some_iff.mp h
          have hle := length_le_readBlocks sRepName blocks _ out rfl hout
          have hpos := Nat.mul_pos (List.length_pos_of_ne_nil hwait)
            (List.length_pos_of_ne_nil hpaths)
          rw [hadded] at hle
          simp only [List.length_append, length_product, Nat.add_mul] at hle
          omega

/-- A file that can be read adds its URLs and for every block the hosts of that block with its paths
exactly where the blocks are separate: a block with hosts but without a path keeps its hosts for the
next block with a path, and a path without a host ends the program. -/
theorem readRewriteFile_separate_iff (sRepName text : Bytes)
    (h : ∀ line ∈ fileLines text, RewriteLine.ofLine line ≠ .bad) :
    readRewriteFile sRepName text =
        some ((RewriteBlock.ofText sRepName text).flatMap (RewriteBlock.mappings sRepName)) ↔
      RewriteBlock.Separate (RewriteBlock.ofText sRepName text) := by
  rw [readRewriteFile_eq sRepName text h]
  refine (readBlocks_iff sRepName _ {} rfl).trans ?_
  simp

theorem readRewriteFile_separate_iff_block :
    readRewriteFile (lit "r")
        (lit "# hosts\nhttp://a.org/x\nSite: b.org\nAlias: c.org\nArchive-http: /debian\n\n") =
      some ((RewriteBlock.ofText (lit "r")
        (lit "# hosts\nhttp://a.org/x\nSite: b.org\nAlias: c.org\nArchive-http: /debian\n\n")).flatMap
          (RewriteBlock.mappings (lit "r"))) := by
  refine (readRewriteFile_separate_iff (lit "r") _ (by decide)).mpr ⟨?_, ?_⟩
  · decide
  · decide

/-- The host of the first block, which has no path, gets the path of the second one. -/
theorem readRewriteFile_mixes :
    ¬readRewriteFile (lit "r") (lit "Site: a.org\n\nSite: b.org\nArchive-http: /debian/\n") =
      some ((RewriteBlock.ofText (lit "r")
        (lit "Site: a.org\n\nSite: b.org\nArchive-http: /debian/\n")).flatMap
          (RewriteBlock.mappings (lit "r"))) := by
  decide

end RewriteReader

namespace HttpUrl

/-- The object that is left is not part of the result. -/
theorem setHttpUrlEntry_toOption (sUrlRaw : Bytes) (unescape : Bool) :
    (setHttpUrlEntry sUrlRaw unescape).toOption = setHttpUrl sUrlRaw unescape := by
  unfold setHttpUrlEntry setHttpUrl
  simp only
  generalize trimFront (stringTrimBack (if unescape = true then urlUnescape sUrlRaw else sUrlRaw)) = url
  cases url.isEmpty with
  | true => rfl
  | false =>
    simp only [Bool.false_eq_true, if_false, Option.bind_eq_bind]
    cases front url with
    | none => rfl
    | some fr =>
      simp only [Option.bind_some]
      generalize fr.rest.dropWhile (· == 47) = rest
      cases rest.isEmpty with
      | true => rfl
      | false =>
        obtain ⟨authority, sPath⟩ := splitPath rest
        cases rest.head? == some 95 with
        | true => rfl
        | false =>
          obtain ⟨sUserPass, host⟩ := splitUser authority
          simp only [Bool.false_eq_true, if_false]
          cases splitPort fr.bCheckBrac fr.noPort host with
          | none => rfl
          | some port =>
            obtain ⟨nPort, host⟩ := port
            simp only [Option.bind_some]
            cases stripBrackets fr.bCheckBrac host with
            | none => rfl
            | some sHost =>
              simp only [Option.bind_some]
              cases (find (lit ":::") sHost).isSome with
              | true => rfl
              | false => rfl

theorem setHttpUrlEntry_ok {sUrlRaw : Bytes} {unescape : Bool} {entry : HttpUrl} :
    setHttpUrlEntry sUrlRaw unescape = .ok entry ↔ setHttpUrl sUrlRaw unescape = some entry := by
  rw [← setHttpUrlEntry_toOption]
  cases setHttpUrlEntry sUrlRaw unescape with
  | error left => exact iff_of_false (by simp) (by simp [Except.toOption])
  | ok out => exact ⟨fun h => congrArg some (Except.ok.inj h), fun h => congrArg _ (Option.some.inj h)⟩

end HttpUrl

namespace BackendLine

def blank (line : Bytes) : Bool := (trimFront line).isEmpty

def comment (line : Bytes) : Bool := (trimFront line).head? == some 35

/-- A line that is the URL of a backend. -/
def url (line : Bytes) : Option HttpUrl :=
  if blank line || comment line then none
  else HttpUrl.setHttpUrl (stringTrimBack (trimFront line)) true

/-- A line that is a field of a legacy block. -/
def field (line : Bytes) : Option (Bytes × Bytes) :=
  if blank line || comment line || (url line).isSome then none
  else parseKeyValLine (stringTrimBack (trimFront line))

end BackendLine

/-- The lines between two blank ones: URLs, and the host and the path of a legacy block. -/
structure BackendBlock where
  urls : List HttpUrl
  sHost : Option Bytes
  sPath : Option Bytes
deriving DecidableEq

namespace BackendBlock

/-- The last value of a field. -/
def lastValue (fields : List (Bytes × Bytes)) (isKey : Bytes → Bool) : Option Bytes :=
  ((fields.filter (fun f => isKey f.1)).getLast?.map Prod.snd).filter (fun val => !val.isEmpty)

def slashed (entry : HttpUrl) : HttpUrl := { entry with sPath := fixPostPreSlashes entry.sPath }

def ofLines (lines : List Bytes) : BackendBlock where
  urls := lines.filterMap (fun line => (BackendLine.url line).map slashed)
  sHost := lastValue (lines.filterMap BackendLine.field) (keyEq (lit "Site"))
  sPath := lastValue (lines.filterMap BackendLine.field) (fun key =>
    keyEq (lit "Archive-http") key || keyEq (lit "X-Archive-http") key)

/-- The backend of a legacy block. -/
def legacy (block : BackendBlock) : List HttpUrl :=
  match block.sHost, block.sPath with
  | some sHost, some sPath => [slashed { sHost, sPath }]
  | _, _ => []

/-- One backend for each URL line, and one for a legacy block. -/
def backends (block : BackendBlock) : List HttpUrl := block.urls ++ block.legacy

def ofText (text : Bytes) : List BackendBlock :=
  ((fileLines text).splitOnP BackendLine.blank).map ofLines

end BackendBlock

namespace BackendsReader

/-- A line that begins with something keeps it. -/
theorem stringTrimBack_full {line : Bytes} (h : trimFront line ≠ []) :
    (stringTrimBack (trimFront line)).isEmpty = false := by
  have hkept : (trimFront line).rdropWhile isspace ≠ [] := by
    intro hall
    have hfront : isspace ((trimFront line).head h) = true :=
      List.rdropWhile_eq_nil_iff.mp hall _ (List.head_mem h)
    have hback : isspace ((trimFront line).head h) = false := List.head_dropWhile_not isspace h
    rw [hback] at hfront
    exact absurd hfront Bool.false_ne_true
  rw [List.isEmpty_eq_false_iff]
  unfold stringTrimBack
  simp only
  split
  · exact h
  · exact hkept

/-- Only a URL line adds a backend. The empty line that would end a block never comes. -/
theorem readLine_backends (st : BackendsReader) {line : Bytes} (hblank : BackendLine.blank line = false)
    (hcomment : BackendLine.comment line = false)
    (hread : (BackendLine.url line).isSome ∨ (BackendLine.field line).isSome) :
    ∃ entry, st.readLine (trimFront line) = some
      { entry, backends := st.backends
          ++ ((BackendLine.url line).map BackendBlock.slashed).toList } := by
  have hfull := stringTrimBack_full (by simpa [BackendLine.blank] using hblank)
  have hurl : BackendLine.url line
      = HttpUrl.setHttpUrl (stringTrimBack (trimFront line)) true := by
    unfold BackendLine.url
    simp [hblank, hcomment]
  unfold readLine
  simp only
  cases hset : HttpUrl.setHttpUrlEntry (stringTrimBack (trimFront line)) true with
  | ok entry =>
    rw [hurl, HttpUrl.setHttpUrlEntry_ok.mp hset]
    exact ⟨{}, rfl⟩
  | error entry =>
    have hnone : BackendLine.url line = none := by
      rw [hurl, ← HttpUrl.setHttpUrlEntry_toOption, hset]
      rfl
    have hfield : BackendLine.field line
        = parseKeyValLine (stringTrimBack (trimFront line)) := by
      unfold BackendLine.field
      simp [hblank, hcomment, hnone]
    rw [hnone, hfield] at hread
    obtain hread | hread := hread
    · cases hread
    · obtain ⟨f, hf⟩ := Option.isSome_iff_exists.mp hread
      simp only [hfull, Bool.false_and, Bool.false_eq_true, if_false, hf, hnone]
      exact ⟨setField entry f.1 f.2, by simp⟩

theorem foldlM_backends (lines : List Bytes) (st : BackendsReader)
    (h : ∀ line ∈ lines, BackendLine.blank line = true ∨ BackendLine.comment line = true ∨
      (BackendLine.url line).isSome ∨ (BackendLine.field line).isSome) :
    ((((lines.map trimFront).filter (fun sLine => !(sLine.isEmpty || sLine.head? == some 35))).foldlM
        readLine st).map BackendsReader.backends) =
      some (st.backends
        ++ lines.filterMap (fun line => (BackendLine.url line).map BackendBlock.slashed)) := by
  induction lines generalizing st with
  | nil => simp
  | cons line lines ih =>
    obtain ⟨hline, hrest⟩ := List.forall_mem_cons.mp h
    rw [List.map_cons]
    by_cases hskip : (BackendLine.blank line || BackendLine.comment line) = true
    · have hnone : BackendLine.url line = none := by
        unfold BackendLine.url
        rw [if_pos hskip]
      have hdrop : ¬(!((trimFront line).isEmpty || (trimFront line).head? == some 35)) = true := by
        rw [Bool.not_eq_true, Bool.not_eq_false']
        exact hskip
      rw [List.filter_cons, if_neg hdrop, ih st hrest]
      simp [hnone]
    · have hkeep : (!((trimFront line).isEmpty || (trimFront line).head? == some 35)) = true := by
        rw [Bool.not_eq_true']
        exact eq_false_of_ne_true hskip
      rw [Bool.or_eq_true, not_or, Bool.not_eq_true, Bool.not_eq_true] at hskip
      obtain ⟨hblank, hcomment⟩ := hskip
      have hread : (BackendLine.url line).isSome ∨ (BackendLine.field line).isSome := by
        simpa [hblank, hcomment] using hline
      obtain ⟨entry, hout⟩ := readLine_backends st hblank hcomment hread
      rw [List.filter_cons, if_pos hkeep, List.foldlM_cons, hout, Option.bind_eq_bind,
        Option.bind_some, ih _ hrest, List.filterMap_cons]
      cases (BackendLine.url line).map BackendBlock.slashed <;> simp

/-- A file of which every line can be read gives the backends of its URL lines and of its legacy
blocks exactly where it has no legacy block: the blank line that ends one does not reach the loop. -/
theorem readBackendsFile_legacy_iff (text : Bytes)
    (h : ∀ line ∈ fileLines text, BackendLine.blank line = true ∨ BackendLine.comment line = true ∨
      (BackendLine.url line).isSome ∨ (BackendLine.field line).isSome) :
    readBackendsFile text = some ((BackendBlock.ofText text).flatMap BackendBlock.backends) ↔
      ∀ block ∈ BackendBlock.ofText text, block.legacy = [] := by
  have hlines : ∀ line ∈ fileLines text ++ [[]], BackendLine.blank line = true ∨
      BackendLine.comment line = true ∨ (BackendLine.url line).isSome ∨
        (BackendLine.field line).isSome := by
    intro line hline
    obtain hline | hline := List.mem_append.mp hline
    · exact h line hline
    · obtain rfl := List.mem_singleton.mp hline
      exact .inl rfl
  have hurls : (BackendBlock.ofText text).flatMap BackendBlock.urls
      = (fileLines text).filterMap (fun line => (BackendLine.url line).map BackendBlock.slashed) := by
    unfold BackendBlock.ofText
    rw [List.flatMap_map]
    refine flatMap_splitOnP (fun line hline => ?_) (fileLines text)
    unfold BackendLine.url
    rw [hline]
    rfl
  have hread : readBackendsFile text
      = some ((BackendBlock.ofText text).flatMap BackendBlock.urls) := by
    unfold readBackendsFile cfgLines
    rw [foldlM_backends _ {} hlines, hurls, List.filterMap_append]
    simp [BackendLine.url, BackendLine.blank, trimFront]
  rw [hread, Option.some.injEq, eq_comm]
  exact flatMap_append_eq_left_iff BackendBlock.urls BackendBlock.legacy _

theorem readBackendsFile_legacy_iff_urls :
    readBackendsFile (lit "# mirrors\nhttp://a.org/debian\n\nftp.b.org/x/\n") =
      some ((BackendBlock.ofText
        (lit "# mirrors\nhttp://a.org/debian\n\nftp.b.org/x/\n")).flatMap BackendBlock.backends) := by
  refine (readBackendsFile_legacy_iff _ (by decide)).mpr ?_
  decide

theorem readBackendsFile_loses_legacy :
    ¬readBackendsFile (lit "Site: a.org\nArchive-http: /debian/\n\n") =
      some ((BackendBlock.ofText
        (lit "Site: a.org\nArchive-http: /debian/\n\n")).flatMap BackendBlock.backends) := by
  decide

end BackendsReader

end Acng
