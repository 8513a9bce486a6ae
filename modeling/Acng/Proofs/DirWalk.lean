import Acng.DirWalk
import Acng.Lib.Separators
import Acng.Proofs.Unescape
import Mathlib.Data.Finset.Card

namespace Acng
open Lib

variable {σ : Type}

/-- What `Walk` does on a path: each way that it has to come back. -/
inductive Visit (fs : Fs) (h : FileHandler σ) (mode : WalkMode) (levels : Nat) (parents : List (Nat × Nat))
    (sPath : Bytes) (w : WalkState σ) : Bool × WalkState σ → Prop
  | missing : fs.look mode sPath = none → Visit fs h mode levels parents sPath w (true, w)
  | link {st} : fs.look mode sPath = some st → mode.bFollowSymlinks = false → st.st_mode = .lnk →
      Visit fs h mode levels parents sPath w (true, w)
  | regular {st} : fs.look mode sPath = some st → st.st_mode = .reg →
      Visit fs h mode levels parents sPath w (w.call h .processRegular sPath st)
  | other {st} : fs.look mode sPath = some st → st.st_mode ≠ .reg → st.st_mode ≠ .dir →
      Visit fs h mode levels parents sPath w (w.call h .processOthers sPath st)
  | refused {st w₁} : fs.look mode sPath = some st → st.st_mode = .dir →
      w.call h .processDirBefore sPath st = (false, w₁) → Visit fs h mode levels parents sPath w (false, w₁)
  | again {st w₁} : fs.look mode sPath = some st → st.st_mode = .dir →
      w.call h .processDirBefore sPath st = (true, w₁) →
      (st.id ∈ parents ∨ mode.bFilterDoubleDirVisit = true ∧ st.id ∈ w₁.filter) →
      Visit fs h mode levels parents sPath w (true, w₁)
  | unreadable {st w₁} : fs.look mode sPath = some st → st.st_mode = .dir →
      w.call h .processDirBefore sPath st = (true, w₁) → st.id ∉ parents →
      (mode.bFilterDoubleDirVisit = true → st.id ∉ w₁.filter) → fs.readdir sPath = none →
      Visit fs h mode levels parents sPath w (true, w₁.emplace mode st.id)
  | read {st w₁ names bRet w₂} : fs.look mode sPath = some st → st.st_mode = .dir →
      w.call h .processDirBefore sPath st = (true, w₁) → st.id ∉ parents →
      (mode.bFilterDoubleDirVisit = true → st.id ∉ w₁.filter) → fs.readdir sPath = some names →
      walkNames (fun d_name => walk fs h mode levels (st.id :: parents) (childPath mode sPath d_name)) names
        { w₁.emplace mode st.id with listed := (w₁.emplace mode st.id).listed ++ [st.id] } = some (bRet, w₂) →
      Visit fs h mode levels parents sPath w
        ((w₂.call h .processDirAfter sPath st).1 && bRet, (w₂.call h .processDirAfter sPath st).2)

theorem walk_visit {fs : Fs} {h : FileHandler σ} {mode : WalkMode} {levels : Nat} {parents : List (Nat × Nat)}
    {sPath : Bytes} {w : WalkState σ} {r : Bool × WalkState σ}
    (hwalk : walk fs h mode (levels + 1) parents sPath w = some r) :
    Visit fs h mode levels parents sPath w r := by
  rw [walk] at hwalk
  cases hlook : fs.look mode sPath with
  | none =>
    rw [hlook] at hwalk
    obtain rfl := Option.some.inj hwalk
    exact .missing hlook
  | some st =>
    rw [hlook] at hwalk
    dsimp only at hwalk
    by_cases hlink : (!mode.bFollowSymlinks && decide (st.st_mode = .lnk)) = true
    · rw [if_pos hlink] at hwalk
      obtain rfl := Option.some.inj hwalk
      rw [Bool.and_eq_true, Bool.not_eq_true', decide_eq_true_eq] at hlink
      exact .link hlook hlink.1 hlink.2
    · rw [if_neg hlink] at hwalk
      by_cases hreg : st.st_mode = .reg
      · rw [if_pos hreg] at hwalk
        obtain rfl := Option.some.inj hwalk
        exact .regular hlook hreg
      · rw [if_neg hreg] at hwalk
        by_cases hdir : st.st_mode = .dir
        · rw [if_neg (not_not.mpr hdir)] at hwalk
          cases hbefore : w.call h .processDirBefore sPath st with
          | mk ok w₁ =>
            rw [hbefore] at hwalk
            dsimp only at hwalk
            cases ok with
            | false =>
              obtain rfl := Option.some.inj hwalk
              exact .refused hlook hdir hbefore
            | true =>
              rw [if_neg (by simp)] at hwalk
              by_cases hparent : st.id ∈ parents
              · rw [if_pos hparent] at hwalk
                obtain rfl := Option.some.inj hwalk
                exact .again hlook hdir hbefore (.inl hparent)
              · rw [if_neg hparent] at hwalk
                by_cases hseen : mode.bFilterDoubleDirVisit = true ∧ st.id ∈ w₁.filter
                · rw [if_pos hseen] at hwalk
                  obtain rfl := Option.some.inj hwalk
                  exact .again hlook hdir hbefore (.inr hseen)
                · rw [if_neg hseen] at hwalk
                  have hnew : mode.bFilterDoubleDirVisit = true → st.id ∉ w₁.filter := not_and.mp hseen
                  cases hnames : fs.readdir sPath with
                  | none =>
                    rw [hnames] at hwalk
                    obtain rfl := Option.some.inj hwalk
                    exact .unreadable hlook hdir hbefore hparent hnew hnames
                  | some names =>
                    rw [hnames] at hwalk
                    dsimp only at hwalk
                    rw [Option.map_eq_some_iff] at hwalk
                    obtain ⟨⟨bRet, w₂⟩, hloop, rfl⟩ := hwalk
                    exact .read hlook hdir hbefore hparent hnew hnames hloop
        · rw [if_pos hdir] at hwalk
          obtain rfl := Option.some.inj hwalk
          exact .other hlook hreg hdir

theorem walk_missing {fs : Fs} {h : FileHandler σ} {mode : WalkMode} {levels : Nat} {parents : List (Nat × Nat)}
    {sPath : Bytes} {w : WalkState σ} (hnone : fs.look mode sPath = none) :
    walk fs h mode (levels + 1) parents sPath w = some (true, w) := by
  rw [walk, hnone]

theorem walkNames_returns {walkChild : Bytes → WalkState σ → Option (Bool × WalkState σ)}
    (hchild : ∀ d_name w, ∃ r, walkChild d_name w = some r) (names : List Bytes) (w : WalkState σ) :
    ∃ r, walkNames walkChild names w = some r := by
  induction names generalizing w with
  | nil => exact ⟨_, rfl⟩
  | cons d_name names ih =>
    rw [walkNames]
    split
    · exact ih w
    · obtain ⟨⟨ok, w'⟩, hr⟩ := hchild d_name w
      rw [hr]
      cases ok with
      | false => exact ⟨_, rfl⟩
      | true => exact ih w'

/-- All directories that the system knows. -/
def Fs.Finite (fs : Fs) : Prop :=
  ∃ ids : Finset (Nat × Nat), ∀ mode sPath st, fs.look mode sPath = some st → st.st_mode = .dir → st.id ∈ ids

/-- Each level has a directory that is not in the chain yet. -/
theorem walk_returns {fs : Fs} (h : FileHandler σ) {mode : WalkMode} {ids : Finset (Nat × Nat)}
    (hids : ∀ sPath st, fs.look mode sPath = some st → st.st_mode = .dir → st.id ∈ ids) {levels : Nat}
    {parents : List (Nat × Nat)} (hnodup : parents.Nodup) (hsub : ∀ id ∈ parents, id ∈ ids)
    (hlevels : ids.card < levels + parents.length) (sPath : Bytes) (w : WalkState σ) :
    ∃ r, walk fs h mode levels parents sPath w = some r := by
  induction levels generalizing parents sPath w with
  | zero =>
    have hle : parents.toFinset.card ≤ ids.card :=
      Finset.card_le_card (fun id hid => hsub id (List.mem_toFinset.mp hid))
    rw [List.toFinset_card_of_nodup hnodup] at hle
    omega
  | succ levels ih =>
    rw [walk]
    cases hlook : fs.look mode sPath with
    | none => exact ⟨_, rfl⟩
    | some st =>
      dsimp only
      split
      · exact ⟨_, rfl⟩
      · split
        · exact ⟨_, rfl⟩
        · split
          · exact ⟨_, rfl⟩
          · rename_i hdir
            split
            · exact ⟨_, rfl⟩
            · split
              · exact ⟨_, rfl⟩
              · rename_i hparent
                split
                · exact ⟨_, rfl⟩
                · cases hnames : fs.readdir sPath with
                  | none => exact ⟨_, rfl⟩
                  | some names =>
                    have hmem := hids sPath st hlook (not_not.mp hdir)
                    obtain ⟨r, hr⟩ := walkNames_returns
                      (fun d_name w => ih (List.nodup_cons.mpr ⟨hparent, hnodup⟩)
                        (List.forall_mem_cons.mpr ⟨hmem, hsub⟩) (by rw [List.length_cons]; omega)
                        (childPath mode sPath d_name) w) names _
                    dsimp only
                    rw [hr]
                    exact ⟨_, rfl⟩

theorem walkNames_preserves {P : WalkState σ → Prop}
    {walkChild : Bytes → WalkState σ → Option (Bool × WalkState σ)}
    (hchild : ∀ d_name w r, walkChild d_name w = some r → P w → P r.2) {names : List Bytes}
    {w : WalkState σ} {r : Bool × WalkState σ} (hloop : walkNames walkChild names w = some r) (hw : P w) :
    P r.2 := by
  induction names generalizing w with
  | nil =>
    obtain rfl := Option.some.inj hloop
    exact hw
  | cons d_name names ih =>
    rw [walkNames] at hloop
    split at hloop
    · exact ih hloop hw
    · cases hr : walkChild d_name w with
      | none => simp [hr] at hloop
      | some x =>
        obtain ⟨ok, w'⟩ := x
        have hw' : P w' := hchild d_name w _ hr hw
        rw [hr] at hloop
        cases ok with
        | false =>
          obtain rfl := Option.some.inj hloop
          exact hw'
        | true => exact ih hloop hw'

/-- What holds on if the handler is called and if a new directory comes into the filter and is read. -/
theorem walk_preserves {fs : Fs} {h : FileHandler σ} {mode : WalkMode} {P : WalkState σ → Prop}
    (hcall : ∀ func sPath st w, P w → P (w.call h func sPath st).2)
    (hnew : ∀ id w, P w → (mode.bFilterDoubleDirVisit = true → id ∉ w.filter) →
      P (w.emplace mode id) ∧ P { w.emplace mode id with listed := (w.emplace mode id).listed ++ [id] })
    {levels : Nat} {parents : List (Nat × Nat)} {sPath : Bytes} {w : WalkState σ} {r : Bool × WalkState σ}
    (hwalk : walk fs h mode levels parents sPath w = some r) (hw : P w) : P r.2 := by
  induction levels generalizing parents sPath w r with
  | zero => simp [walk] at hwalk
  | succ levels ih =>
    cases walk_visit hwalk with
    | missing => exact hw
    | link => exact hw
    | regular => exact hcall _ _ _ w hw
    | other => exact hcall _ _ _ w hw
    | @refused st w₁ _ _ hbefore =>
      have hw₁ := hcall .processDirBefore sPath st w hw
      rwa [hbefore] at hw₁
    | @again st w₁ _ _ hbefore =>
      have hw₁ := hcall .processDirBefore sPath st w hw
      rwa [hbefore] at hw₁
    | @unreadable st w₁ _ _ hbefore _ hnot =>
      have hw₁ := hcall .processDirBefore sPath st w hw
      rw [hbefore] at hw₁
      exact (hnew _ _ hw₁ hnot).1
    | @read st w₁ names bRet w₂ _ _ hbefore _ hnot _ hloop =>
      have hw₁ := hcall .processDirBefore sPath st w hw
      rw [hbefore] at hw₁
      have hchild : ∀ d_name w r,
          walk fs h mode levels (st.id :: parents) (childPath mode sPath d_name) w = some r → P w → P r.2 :=
        fun _ _ _ hr => ih hr
      have hw₂ := walkNames_preserves hchild hloop (hnew st.id w₁ hw₁ hnot).2
      exact hcall _ _ _ _ hw₂

/-- With the filter no directory is read twice. -/
def ListedOnce (w : WalkState σ) : Prop := w.listed.Nodup ∧ ∀ id ∈ w.listed, id ∈ w.filter

theorem walk_listedOnce {fs : Fs} {h : FileHandler σ} {mode : WalkMode}
    (hfilter : mode.bFilterDoubleDirVisit = true) {levels : Nat} {parents : List (Nat × Nat)} {sPath : Bytes}
    {w : WalkState σ} {r : Bool × WalkState σ} (hwalk : walk fs h mode levels parents sPath w = some r)
    (hw : ListedOnce w) : ListedOnce r.2 := by
  refine walk_preserves (P := ListedOnce) (fun _ _ _ _ hw => hw) (fun id w hw hnot => ?_) hwalk hw
  have hnot := hnot hfilter
  have hemplace : w.emplace mode id = { w with filter := id :: w.filter } := if_pos hfilter
  rw [hemplace]
  refine ⟨⟨hw.1, fun id' hid => List.mem_cons_of_mem _ (hw.2 id' hid)⟩, ?_, ?_⟩
  · refine List.nodup_append.mpr ⟨hw.1, List.nodup_cons.mpr ⟨List.not_mem_nil, List.nodup_nil⟩, ?_⟩
    intro id' hid id'' hid' heq
    rw [List.mem_singleton.mp hid'] at heq
    exact hnot (heq ▸ hw.2 id' hid)
  · intro id' hid
    obtain hid | hid := List.mem_append.mp hid
    · exact List.mem_cons_of_mem _ (hw.2 id' hid)
    · exact List.mem_cons.mpr (.inl (List.mem_singleton.mp hid))

/-- The calls stay. -/
theorem walk_calls {fs : Fs} {h : FileHandler σ} {mode : WalkMode} {levels : Nat} {parents : List (Nat × Nat)}
    {sPath : Bytes} {w : WalkState σ} {r : Bool × WalkState σ}
    (hwalk : walk fs h mode levels parents sPath w = some r) : ∀ call ∈ w.calls, call ∈ r.2.calls := by
  refine walk_preserves (P := fun w' => ∀ call ∈ w.calls, call ∈ w'.calls) (fun func sPath st w' hw => ?_)
    (fun id w' hw _ => ?_) hwalk (fun _ hcall => hcall)
  · exact fun call hcall => List.mem_append_left _ (hw call hcall)
  · have hemplace : (w'.emplace mode id).calls = w'.calls := by
      rw [WalkState.emplace]
      split <;> rfl
    rw [hemplace]
    exact ⟨hw, hw⟩

/-- What is below a path, and the path itself: on the way down are only directories, no links. -/
inductive Under (fs : Fs) : Bytes → Bytes → Prop
  | self (sPath) : Under fs sPath sPath
  | child {sPath d_name q st names} : fs.lstat sPath = some st → st.st_mode = .dir →
      fs.readdir sPath = some names → d_name ∈ names → d_name ≠ lit "." → d_name ≠ lit ".." →
      Under fs (sPath ++ lit "/" ++ d_name) q → Under fs sPath q

theorem Under.trans {fs : Fs} {p q r : Bytes} (hpq : Under fs p q) (hqr : Under fs q r) : Under fs p r := by
  induction hpq with
  | self => exact hqr
  | child hst hdir hnames hmem hdot hdots _ ih => exact .child hst hdir hnames hmem hdot hdots (ih hqr)

/-- The paths below go on behind a slash. -/
theorem Under.path {fs : Fs} {p q : Bytes} (h : Under fs p q) :
    ∃ s : Bytes, q = p ++ s ∧ s.head?.all (· == 47) = true := by
  induction h with
  | self p => exact ⟨[], (List.append_nil p).symm, rfl⟩
  | @child p d_name q _ _ _ _ _ _ _ _ _ ih =>
    obtain ⟨s, rfl, -⟩ := ih
    refine ⟨lit "/" ++ d_name ++ s, by simp only [List.append_assoc], ?_⟩
    have hslash : lit "/" = [47] := by decide
    rw [hslash]
    rfl

/-- A directory is not below its children. -/
theorem Under.not_back {fs : Fs} {p d_name : Bytes} : ¬ Under fs (p ++ lit "/" ++ d_name) p := by
  intro h
  obtain ⟨s, heq, -⟩ := h.path
  have hlen := congrArg List.length heq
  have hslash : (lit "/").length = 1 := by decide
  simp only [List.length_append, hslash] at hlen
  omega

/-- Names end where the slash is. -/
theorem name_eq {n n' s s' : Bytes} (hn : 47 ∉ n) (hn' : 47 ∉ n') (hs : s.head?.all (· == 47) = true)
    (hs' : s'.head?.all (· == 47) = true) (h : n ++ s = n' ++ s') : n = n' := by
  have htake : ∀ {n s : Bytes}, 47 ∉ n → s.head?.all (· == 47) = true →
      (n ++ s).takeWhile (· != 47) = n := by
    intro n s hn hs
    cases s with
    | nil =>
      rw [List.append_nil, List.takeWhile_eq_self_iff]
      exact fun c hc => bne_iff_ne.mpr (fun heq => hn (heq ▸ hc))
    | cons c s =>
      obtain rfl : c = 47 := by simpa using hs
      exact takeWhile_sep s hn
  rw [← htake hn hs, h, htake hn' hs']

/-- Nothing is below two children of one directory. -/
theorem Under.sibling {fs : Fs} {p n n' q : Bytes} (hn : 47 ∉ n) (hn' : 47 ∉ n')
    (h : Under fs (p ++ lit "/" ++ n) q) (h' : Under fs (p ++ lit "/" ++ n') q) : n = n' := by
  obtain ⟨s, rfl, hs⟩ := h.path
  obtain ⟨s', heq, hs'⟩ := h'.path
  simp only [List.append_assoc] at heq
  exact name_eq hn hn' hs hs' (List.append_cancel_left (List.append_cancel_left heq))

/-- A file system below a root: a directory has one place there, and the names in it are different. -/
structure Tree (fs : Fs) (sRoot : Bytes) : Prop where
  names_nodup : ∀ p names, Under fs sRoot p → fs.readdir p = some names → names.Nodup
  no_slash : ∀ p names, Under fs sRoot p → fs.readdir p = some names → ∀ d_name ∈ names, 47 ∉ d_name
  one_place : ∀ p q st st', Under fs sRoot p → Under fs sRoot q → fs.lstat p = some st → st.st_mode = .dir →
    fs.lstat q = some st' → st'.st_mode = .dir → st.id = st'.id → p = q

/-- None of these directories is below a path. -/
def Apart (fs : Fs) (ids : List (Nat × Nat)) (sPath : Bytes) : Prop :=
  ∀ q st, Under fs sPath q → fs.lstat q = some st → st.st_mode = .dir → st.id ∉ ids

/-- How often a path was reported as a regular file. -/
def WalkState.reports (w : WalkState σ) (q : Bytes) : Nat :=
  w.calls.countP (fun call => call.func = .processRegular ∧ call.sPath = q)

def WalkState.stopped (w : WalkState σ) : Prop := ∃ call ∈ w.calls, call.answer = false

/-- What a walk over some paths has done, unless it was stopped: each regular file among them is reported once, no
other one is, and only directories among them came into the filter. -/
def Reported (fs : Fs) (among : Bytes → Prop) (w w' : WalkState σ) : Prop :=
  w'.stopped ∨
    (∀ q st, fs.lstat q = some st → st.st_mode = .reg →
      (among q → w'.reports q = w.reports q + 1) ∧ (¬ among q → w'.reports q = w.reports q)) ∧
    ∀ id ∈ w'.filter, id ∈ w.filter ∨
      ∃ q st, among q ∧ fs.lstat q = some st ∧ st.st_mode = .dir ∧ st.id = id

/-- What is below the children of these names. -/
def UnderNames (fs : Fs) (p : Bytes) (names : List Bytes) (q : Bytes) : Prop :=
  ∃ d_name ∈ names, d_name ≠ lit "." ∧ d_name ≠ lit ".." ∧ Under fs (p ++ lit "/" ++ d_name) q

theorem below_cons {fs : Fs} {p d_name q : Bytes} {names : List Bytes} :
    UnderNames fs p (d_name :: names) q ↔
      (d_name ≠ lit "." ∧ d_name ≠ lit ".." ∧ Under fs (p ++ lit "/" ++ d_name) q) ∨ UnderNames fs p names q := by
  simp [UnderNames]

/-- The walk over one path, and then over others that are apart from it. -/
theorem Reported.append {fs : Fs} {first rest : Bytes → Prop} {w w' w'' : WalkState σ}
    (hfirst : Reported fs first w w') (hrest : Reported fs rest w' w'')
    (hcalls : ∀ call ∈ w'.calls, call ∈ w''.calls) (hapart : ∀ q, first q → ¬ rest q) :
    Reported fs (fun q => first q ∨ rest q) w w'' := by
  obtain ⟨call, hmem, hanswer⟩ | ⟨hone, hfilter⟩ := hfirst
  · exact .inl ⟨call, hcalls call hmem, hanswer⟩
  · obtain hstopped | ⟨hone', hfilter'⟩ := hrest
    · exact .inl hstopped
    · refine .inr ⟨fun q st hst hreg => ?_, fun id hid => ?_⟩
      · obtain ⟨hin, hout⟩ := hone q st hst hreg
        obtain ⟨hin', hout'⟩ := hone' q st hst hreg
        refine ⟨fun hamong => ?_, fun hnot => ?_⟩
        · by_cases hq : first q
          · rw [hout' (hapart q hq), hin hq]
          · rw [hin' (hamong.resolve_left hq), hout hq]
        · obtain ⟨hq, hq'⟩ := not_or.mp hnot
          rw [hout' hq', hout hq]
      · obtain hid | ⟨q, st, hq, hst⟩ := hfilter' id hid
        · obtain hid | ⟨q, st, hq, hst⟩ := hfilter id hid
          · exact .inl hid
          · exact .inr ⟨q, st, .inl hq, hst⟩
        · exact .inr ⟨q, st, .inr hq, hst⟩

/-- What a walk over one child put into the filter is not below another one. -/
theorem apart_sibling {fs : Fs} {sRoot p d_name n : Bytes} (htree : Tree fs sRoot) (hclean : 47 ∉ d_name)
    (hclean' : 47 ∉ n) (hne : n ≠ d_name) (hunder : Under fs sRoot (p ++ lit "/" ++ d_name))
    (hunder' : Under fs sRoot (p ++ lit "/" ++ n)) {w w₁ : WalkState σ}
    (hfilter : ∀ id ∈ w₁.filter, id ∈ w.filter ∨
      ∃ q st, Under fs (p ++ lit "/" ++ d_name) q ∧ fs.lstat q = some st ∧ st.st_mode = .dir ∧ st.id = id)
    (hapart : Apart fs w.filter (p ++ lit "/" ++ n)) : Apart fs w₁.filter (p ++ lit "/" ++ n) := by
  intro q st hq hst hdir hid
  obtain hid | ⟨q', st', hq', hst', hdir', heq⟩ := hfilter _ hid
  · exact hapart q st hq hst hdir hid
  · -- a directory below the child that was walked is in another place
    have hplace := htree.one_place q q' st st' (hunder'.trans hq) (hunder.trans hq') hst hdir hst' hdir' heq.symm
    rw [← hplace] at hq'
    exact hne (Under.sibling hclean hclean' hq' hq).symm

theorem walkNames_reported {fs : Fs} {sRoot p : Bytes} (htree : Tree fs sRoot) {names : List Bytes}
    (hnodup : names.Nodup) (hslash : ∀ d_name ∈ names, 47 ∉ d_name)
    (hroot : ∀ d_name ∈ names, d_name ≠ lit "." → d_name ≠ lit ".." →
      Under fs sRoot (p ++ lit "/" ++ d_name))
    {walkChild : Bytes → WalkState σ → Option (Bool × WalkState σ)}
    (hcalls : ∀ d_name w r, walkChild d_name w = some r → ∀ call ∈ w.calls, call ∈ r.2.calls)
    (hchild : ∀ d_name w r, d_name ∈ names → d_name ≠ lit "." → d_name ≠ lit ".." →
      Apart fs w.filter (p ++ lit "/" ++ d_name) → walkChild d_name w = some r →
      Reported fs (Under fs (p ++ lit "/" ++ d_name)) w r.2 ∧ (r.1 = false → r.2.stopped))
    {w : WalkState σ} {r : Bool × WalkState σ}
    (hapart : ∀ d_name ∈ names, d_name ≠ lit "." → d_name ≠ lit ".." →
      Apart fs w.filter (p ++ lit "/" ++ d_name))
    (hloop : walkNames walkChild names w = some r) :
    Reported fs (UnderNames fs p names) w r.2 ∧ (r.1 = false → r.2.stopped) := by
  induction names generalizing w with
  | nil =>
    obtain rfl := Option.some.inj hloop
    refine ⟨.inr ⟨fun q st _ _ => ⟨fun h => ?_, fun _ => rfl⟩, fun id hid => .inl hid⟩, fun h => ?_⟩
    · obtain ⟨d_name, hmem, -⟩ := h
      exact absurd hmem List.not_mem_nil
    · exact absurd h (by simp)
  | cons d_name names ih =>
    obtain ⟨hnew, hnodup⟩ := List.nodup_cons.mp hnodup
    obtain ⟨hclean, hslash⟩ := List.forall_mem_cons.mp hslash
    obtain ⟨hhere, hroot⟩ := List.forall_mem_cons.mp hroot
    obtain ⟨hfirst, hrest⟩ := List.forall_mem_cons.mp hapart
    have hchild' := fun n w r (hn : n ∈ names) => hchild n w r (List.mem_cons_of_mem _ hn)
    rw [walkNames] at hloop
    by_cases hdots : d_name = lit "." ∨ d_name = lit ".."
    · rw [if_pos hdots] at hloop
      have hsame : UnderNames fs p (d_name :: names) = UnderNames fs p names := by
        funext q
        refine propext (below_cons.trans (or_iff_right ?_))
        rintro ⟨hdot, hdots', -⟩
        exact hdots.elim hdot hdots'
      rw [hsame]
      exact ih hnodup hslash hroot hchild' hrest hloop
    · rw [if_neg hdots] at hloop
      obtain ⟨hdot, hdots⟩ := not_or.mp hdots
      have hunder := hhere hdot hdots
      cases hr : walkChild d_name w with
      | none => simp [hr] at hloop
      | some x =>
        obtain ⟨ok, w₁⟩ := x
        obtain ⟨hrep, hstop⟩ := hchild d_name w _ List.mem_cons_self hdot hdots (hfirst hdot hdots) hr
        rw [hr] at hloop
        cases ok with
        | false =>
          obtain rfl := Option.some.inj hloop
          exact ⟨.inl (hstop rfl), fun _ => hstop rfl⟩
        | true =>
          have hmore : ∀ call ∈ w₁.calls, call ∈ r.2.calls := by
            refine walkNames_preserves (P := fun w' => ∀ call ∈ w₁.calls, call ∈ w'.calls)
              (fun n w r hr hw call hcall => hcalls n w r hr call (hw call hcall)) hloop (fun _ hcall => hcall)
          obtain ⟨call, hmem, hanswer⟩ | ⟨hone, hfilter⟩ := hrep
          · exact ⟨.inl ⟨call, hmore call hmem, hanswer⟩, fun _ => ⟨call, hmore call hmem, hanswer⟩⟩
          · have hrest₁ : ∀ n ∈ names, n ≠ lit "." → n ≠ lit ".." → Apart fs w₁.filter (p ++ lit "/" ++ n) := by
              intro n hn hn₁ hn₂
              have hne : n ≠ d_name := fun heq => hnew (heq ▸ hn)
              exact apart_sibling htree hclean (hslash n hn) hne hunder (hroot n hn hn₁ hn₂) hfilter
                (hrest n hn hn₁ hn₂)
            obtain ⟨hothers, hstop'⟩ := ih hnodup hslash hroot hchild' hrest₁ hloop
            refine ⟨?_, hstop'⟩
            have hboth := Reported.append (.inr ⟨hone, hfilter⟩) hothers hmore (fun q hq hbelow => ?_)
            · have hsame : UnderNames fs p (d_name :: names) =
                  fun q => Under fs (p ++ lit "/" ++ d_name) q ∨ UnderNames fs p names q := by
                funext q
                refine propext (below_cons.trans (or_congr_left ?_))
                exact ⟨fun h => h.2.2, fun h => ⟨hdot, hdots, h⟩⟩
              rw [hsame]
              exact hboth
            · obtain ⟨n, hn, -, -, hq'⟩ := hbelow
              exact hnew (Under.sibling hclean (hslash n hn) hq hq' ▸ hn)

/-- The mode in which the walk finds what is below. -/
structure Plain (fs : Fs) (mode : WalkMode) (sRoot : Bytes) : Prop where
  noFollow : mode.bFollowSymlinks = false
  kept : mode.stupidfs = true → ∀ p names, Under fs sRoot p → fs.readdir p = some names →
    ∀ d_name ∈ names, d_name ≠ lit "." → d_name ≠ lit ".." → 37 ∉ d_name

theorem Plain.look {fs : Fs} {mode : WalkMode} {sRoot : Bytes} (h : Plain fs mode sRoot) (p : Bytes) :
    fs.look mode p = fs.lstat p := by
  rw [Fs.look, h.noFollow]
  rfl

theorem Plain.childPath {fs : Fs} {mode : WalkMode} {sRoot : Bytes} (h : Plain fs mode sRoot) {p : Bytes}
    {names : List Bytes} (hroot : Under fs sRoot p) (hnames : fs.readdir p = some names) {d_name : Bytes}
    (hmem : d_name ∈ names) (hdot : d_name ≠ lit ".") (hdots : d_name ≠ lit "..") :
    childPath mode p d_name = p ++ lit "/" ++ d_name := by
  rw [Acng.childPath]
  cases hstupid : mode.stupidfs with
  | false => rfl
  | true =>
    have hkept := (urlUnescape_kept d_name).1 (h.kept hstupid p names hroot hnames d_name hmem hdot hdots)
    rw [if_pos rfl, hkept]

theorem reports_call (h : FileHandler σ) (func : HandlerFunc) (p : Bytes) (st : Stat) (w : WalkState σ)
    (q : Bytes) :
    (w.call h func p st).2.reports q =
      w.reports q + if func = .processRegular ∧ p = q then 1 else 0 := by
  rw [WalkState.call, WalkState.reports, WalkState.reports, List.countP_append, List.countP_singleton]
  simp only [decide_eq_true_eq]

theorem stopped_call {h : FileHandler σ} {func : HandlerFunc} {p : Bytes} {st : Stat} {w : WalkState σ}
    (hanswer : (w.call h func p st).1 = false) : (w.call h func p st).2.stopped :=
  ⟨⟨func, p, false⟩, List.mem_append_right _ (List.mem_singleton.mpr (by
    rw [← hanswer]
    rfl)), rfl⟩

theorem before_call {h : FileHandler σ} {p : Bytes} {st : Stat} {w w₁ : WalkState σ} {ok : Bool}
    (hbefore : w.call h .processDirBefore p st = (ok, w₁)) :
    w₁.filter = w.filter ∧ ∀ q, w₁.reports q = w.reports q := by
  obtain rfl : (w.call h .processDirBefore p st).2 = w₁ := by rw [hbefore]
  refine ⟨rfl, fun q => ?_⟩
  rw [reports_call, if_neg (by simp), Nat.add_zero]

theorem mem_emplace {mode : WalkMode} {id id' : Nat × Nat} {w : WalkState σ}
    (h : id' ∈ (w.emplace mode id).filter) : id' = id ∨ id' ∈ w.filter := by
  rw [WalkState.emplace] at h
  split at h
  · exact List.mem_cons.mp h
  · exact .inr h

theorem reports_emplace (mode : WalkMode) (id : Nat × Nat) (w : WalkState σ) (q : Bytes) :
    (w.emplace mode id).reports q = w.reports q := by
  rw [WalkState.emplace]
  split <;> rfl

/-- A path with nothing below that could be reported. -/
theorem Reported.of_none {fs : Fs} {p : Bytes} {w w' : WalkState σ}
    (hnone : ∀ q st, Under fs p q → fs.lstat q = some st → st.st_mode ≠ .reg)
    (hreports : ∀ q, w'.reports q = w.reports q)
    (hfilter : ∀ id ∈ w'.filter, id ∈ w.filter ∨
      ∃ st, fs.lstat p = some st ∧ st.st_mode = .dir ∧ st.id = id) :
    Reported fs (Under fs p) w w' := by
  refine .inr ⟨fun q st hst hreg => ⟨fun hq => absurd hreg (hnone q st hq hst), fun _ => hreports q⟩,
    fun id hid => ?_⟩
  exact (hfilter id hid).imp_right (fun ⟨st, hst⟩ => ⟨p, st, .self p, hst⟩)

/-- Nothing is below a node that is no directory. -/
theorem under_not_dir {fs : Fs} {p q : Bytes} (h : Under fs p q)
    (hnot : ∀ st, fs.lstat p = some st → st.st_mode ≠ .dir) : q = p := by
  cases h with
  | self => rfl
  | child hst hdir => exact absurd hdir (hnot _ hst)

/-- What is below a directory is below its names. -/
theorem under_dir {fs : Fs} {p q : Bytes} {names : List Bytes} (hnames : fs.readdir p = some names)
    (h : Under fs p q) : q = p ∨ UnderNames fs p names q := by
  cases h with
  | self => exact .inl rfl
  | @child _ d_name _ _ names' _ _ hnames' hmem hdot hdots hunder =>
    obtain rfl := Option.some.inj (hnames'.symm.trans hnames)
    exact .inr ⟨d_name, hmem, hdot, hdots, hunder⟩

theorem stopped_more {h : FileHandler σ} {func : HandlerFunc} {p : Bytes} {st : Stat} {w : WalkState σ}
    (hstop : w.stopped) : (w.call h func p st).2.stopped := by
  obtain ⟨call, hmem, hanswer⟩ := hstop
  exact ⟨call, List.mem_append_left _ hmem, hanswer⟩

/-- A directory has done what the walk over its names has done. -/
theorem Reported.directory {fs : Fs} {h : FileHandler σ} {mode : WalkMode} {p : Bytes} {st : Stat}
    {names : List Bytes} {listed : List (Nat × Nat)} {w w₁ w₂ : WalkState σ} {ok : Bool}
    (hst : fs.lstat p = some st) (hdir : st.st_mode = .dir) (hnames : fs.readdir p = some names)
    (hbefore : w.call h .processDirBefore p st = (ok, w₁))
    (hrep : Reported fs (UnderNames fs p names) { w₁.emplace mode st.id with listed } w₂) :
    Reported fs (Under fs p) w (w₂.call h .processDirAfter p st).2 := by
  obtain ⟨hsame, hreports⟩ := before_call hbefore
  obtain hstop | ⟨hone, hids⟩ := hrep
  · exact .inl (stopped_more hstop)
  · have hbelow : ∀ q, UnderNames fs p names q → Under fs p q := by
      rintro q ⟨d_name, hmem, hdot, hdots, hq⟩
      exact .child hst hdir hnames hmem hdot hdots hq
    refine .inr ⟨fun q st' hst' hreg => ?_, fun id hid => ?_⟩
    · have hiff : Under fs p q ↔ UnderNames fs p names q := by
        refine ⟨fun hq => (under_dir hnames hq).resolve_left (fun heq => ?_), hbelow q⟩
        rw [heq, hst, Option.some_inj] at hst'
        rw [← hst', hdir] at hreg
        exact absurd hreg (by simp)
      have hw : WalkState.reports { w₁.emplace mode st.id with listed } q = w.reports q :=
        (reports_emplace mode st.id w₁ q).trans (hreports q)
      obtain ⟨hin, hout⟩ := hone q st' hst' hreg
      rw [hw] at hin hout
      rw [reports_call, if_neg (by simp), Nat.add_zero, hiff]
      exact ⟨hin, hout⟩
    · obtain hid | ⟨q, st', hq, hst'⟩ := hids id hid
      · obtain rfl | hid := mem_emplace hid
        · exact .inr ⟨p, st, .self p, hst, hdir, rfl⟩
        · exact .inl (hsame ▸ hid)
      · exact .inr ⟨q, st', hbelow q hq, hst'⟩

theorem walk_reported {fs : Fs} {h : FileHandler σ} {mode : WalkMode} {sRoot : Bytes} (htree : Tree fs sRoot)
    (hplain : Plain fs mode sRoot) {levels : Nat} {parents : List (Nat × Nat)} {p : Bytes}
    {w : WalkState σ} {r : Bool × WalkState σ} (hroot : Under fs sRoot p) (hparents : Apart fs parents p)
    (hfilter : Apart fs w.filter p) (hwalk : walk fs h mode levels parents p w = some r) :
    Reported fs (Under fs p) w r.2 ∧ (r.1 = false → r.2.stopped) := by
  induction levels generalizing parents p w r with
  | zero => simp [walk] at hwalk
  | succ levels ih =>
    have hlook := hplain.look p
    cases walk_visit hwalk with
    | missing hst =>
      rw [hlook] at hst
      refine ⟨.of_none (fun q st hq hq' => ?_) (fun _ => rfl) (fun id hid => .inl hid), fun h => absurd h (by simp)⟩
      rw [under_not_dir hq (by simp [hst]), hst] at hq'
      exact absurd hq' (by simp)
    | @link st hst _ hlink =>
      rw [hlook] at hst
      refine ⟨.of_none (fun q st' hq hq' => ?_) (fun _ => rfl) (fun id hid => .inl hid), fun h => absurd h (by simp)⟩
      rw [under_not_dir hq (by simp [hst, hlink]), hst, Option.some_inj] at hq'
      simp [← hq', hlink]
    | @regular st hst hreg =>
      rw [hlook] at hst
      refine ⟨.inr ⟨fun q st' hst' hreg' => ?_, fun id hid => .inl hid⟩, stopped_call⟩
      have hunder : Under fs p q ↔ p = q :=
        ⟨fun hq => (under_not_dir hq (by simp [hst, hreg])).symm, fun heq => heq ▸ .self p⟩
      rw [reports_call, hunder]
      exact ⟨fun heq => by rw [if_pos ⟨rfl, heq⟩], fun hne => by rw [if_neg (fun hand => hne hand.2), Nat.add_zero]⟩
    | @other st hst hreg hdir =>
      rw [hlook] at hst
      refine ⟨.of_none (fun q st' hq hq' => ?_) (fun q => ?_) (fun id hid => .inl hid), stopped_call⟩
      · rw [under_not_dir hq (by simp [hst, hdir]), hst, Option.some_inj] at hq'
        rwa [← hq']
      · rw [reports_call, if_neg (by simp), Nat.add_zero]
    | @refused st w₁ _ _ hbefore =>
      have hstop : w₁.stopped := by
        have := @stopped_call σ h .processDirBefore p st w (by rw [hbefore])
        rwa [hbefore] at this
      exact ⟨.inl hstop, fun _ => hstop⟩
    | @again st w₁ hst hdir hbefore hseen =>
      rw [hlook] at hst
      obtain hparent | ⟨-, hold⟩ := hseen
      · exact absurd hparent (hparents p st (.self p) hst hdir)
      · rw [(before_call hbefore).1] at hold
        exact absurd hold (hfilter p st (.self p) hst hdir)
    | @unreadable st w₁ hst hdir hbefore _ hnot hnames =>
      rw [hlook] at hst
      obtain ⟨hsame, hreports⟩ := before_call hbefore
      refine ⟨.of_none (fun q st' hq hq' => ?_) (fun q => ?_) (fun id hid => ?_), fun h => absurd h (by simp)⟩
      · cases hq with
        | self =>
          rw [hst, Option.some_inj] at hq'
          simp [← hq', hdir]
        | child _ _ hnames' => simp [hnames] at hnames'
      · rw [reports_emplace, hreports]
      · obtain rfl | hid := mem_emplace hid
        · exact .inr ⟨st, hst, hdir, rfl⟩
        · exact .inl (hsame ▸ hid)
    | @read st w₁ names bRet w₂ hst hdir hbefore _ hnot hnames hloop =>
      rw [hlook] at hst
      have hsame := (before_call hbefore).1
      have hhere : ∀ d_name ∈ names, d_name ≠ lit "." → d_name ≠ lit ".." →
          Under fs p (p ++ lit "/" ++ d_name) := fun d_name hmem hdot hdots =>
        .child hst hdir hnames hmem hdot hdots (.self _)
      have hself : ∀ d_name q st', Under fs (p ++ lit "/" ++ d_name) q → d_name ∈ names → d_name ≠ lit "." →
          d_name ≠ lit ".." → fs.lstat q = some st' → st'.st_mode = .dir → st'.id ≠ st.id := by
        intro d_name q st' hq hmem hdot hdots hst' hdir' heq
        have hplace := htree.one_place q p st' st (hroot.trans ((hhere d_name hmem hdot hdots).trans hq)) hroot
          hst' hdir' hst hdir heq
        exact Under.not_back (hplace ▸ hq)
      have hloop' := walkNames_reported htree (htree.names_nodup p names hroot hnames)
        (htree.no_slash p names hroot hnames)
        (fun d_name hmem hdot hdots => hroot.trans (hhere d_name hmem hdot hdots))
        (fun d_name w r hr => walk_calls hr) (fun d_name w r hmem hdot hdots hapart hr => ?_)
        (fun d_name hmem hdot hdots => ?_) hloop
      · obtain ⟨hrep, hstop⟩ := hloop'
        refine ⟨hrep.directory hst hdir hnames hbefore, fun hfalse => ?_⟩
        obtain hafter | hret := Bool.and_eq_false_iff.mp hfalse
        · exact stopped_call hafter
        · exact stopped_more (hstop hret)
      · rw [hplain.childPath hroot hnames hmem hdot hdots] at hr
        refine ih (hroot.trans (hhere d_name hmem hdot hdots)) (fun q st' hq hst' hdir' hid => ?_) hapart hr
        obtain heq | hid := List.mem_cons.mp hid
        · exact hself d_name q st' hq hmem hdot hdots hst' hdir' heq
        · exact hparents q st' ((hhere d_name hmem hdot hdots).trans hq) hst' hdir' hid
      · intro q st' hq hst' hdir' hid
        obtain heq | hid := mem_emplace hid
        · exact hself d_name q st' hq hmem hdot hdots hst' hdir' heq
        · rw [hsame] at hid
          exact hfilter q st' ((hhere d_name hmem hdot hdots).trans hq) hst' hdir' hid

/-- What a walk has to do: it ends, with the filter it reads no directory twice, and if it follows no links then each
regular file below the root is reported once unless the handler stops it. -/
def WalksWell (fs : Fs) (h : FileHandler σ) (mode : WalkMode) (sRoot : Bytes) (handler : σ) : Prop :=
  ∃ levels ok w, directoryWalk fs h mode levels sRoot handler = some (ok, w) ∧
    (mode.bFilterDoubleDirVisit = true → w.listed.Nodup) ∧
    (mode.bFollowSymlinks = false → Tree fs sRoot → w.stopped ∨
      ∀ q st, Under fs sRoot q → fs.lstat q = some st → st.st_mode = .reg → w.reports q = 1)

/-- A name that a directory may have for a child. -/
structure FileName (d_name : Bytes) : Prop where
  nonempty : d_name ≠ []
  noNul : 0 ∉ d_name
  noSlash : 47 ∉ d_name
  noDot : d_name ≠ lit "."
  noDots : d_name ≠ lit ".."

/-- All names in a file system but the two of each directory. -/
def Fs.Names (fs : Fs) (allowed : Bytes → Prop) : Prop :=
  ∀ p names, fs.readdir p = some names → ∀ d_name ∈ names, d_name ≠ lit "." → d_name ≠ lit ".." →
    FileName d_name ∧ allowed d_name

theorem walksWell {fs : Fs} (hfinite : fs.Finite) (h : FileHandler σ) (mode : WalkMode) (sRoot : Bytes)
    (handler : σ)
    (hkept : mode.stupidfs = true → ∀ p names, fs.readdir p = some names → ∀ d_name ∈ names,
      d_name ≠ lit "." → d_name ≠ lit ".." → 37 ∉ d_name) :
    WalksWell fs h mode sRoot handler := by
  obtain ⟨ids, hids⟩ := hfinite
  obtain ⟨⟨ok, w⟩, hwalk⟩ := @walk_returns σ fs h mode ids (hids mode) (ids.card + 1) [] List.nodup_nil
    (by simp) (by simp) sRoot { handler }
  refine ⟨ids.card + 1, ok, w, hwalk, fun hfilter => ?_, fun hnoFollow htree => ?_⟩
  · exact (walk_listedOnce hfilter hwalk ⟨List.nodup_nil, by simp⟩).1
  · have hplain : Plain fs mode sRoot := ⟨hnoFollow, fun hs p names _ => hkept hs p names⟩
    obtain ⟨hreported, -⟩ := walk_reported htree hplain (.self sRoot) (fun _ _ _ _ _ => List.not_mem_nil)
      (fun _ _ _ _ _ => List.not_mem_nil) hwalk
    exact hreported.imp_right (fun hone q st hq hst hreg => (hone.1 q st hst hreg).1 hq)

/-- A directory with one file. -/
def oneFile (d_name : Bytes) : Fs :=
  let look : Bytes → Option Stat := fun p =>
    if p = lit "r" then some ⟨1, 1, .dir⟩
    else if p = lit "r" ++ lit "/" ++ d_name then some ⟨1, 2, .reg⟩ else none
  { lstat := look, stat := look, readdir := fun p => if p = lit "r" then some [d_name] else none }

/-- A handler that goes on. -/
def goOn : FileHandler Unit := ⟨fun _ _ _ _ => (true, ())⟩

theorem oneFile_look (d_name : Bytes) (mode : WalkMode) (p : Bytes) :
    (oneFile d_name).look mode p = (oneFile d_name).lstat p := by
  rw [Fs.look]
  split <;> rfl

theorem oneFile_root (d_name : Bytes) : (oneFile d_name).lstat (lit "r") = some ⟨1, 1, .dir⟩ := by
  simp only [oneFile, if_true]

theorem oneFile_dir {d_name p : Bytes} {st : Stat} (hst : (oneFile d_name).lstat p = some st)
    (hdir : st.st_mode = .dir) : p = lit "r" ∧ st = ⟨1, 1, .dir⟩ := by
  simp only [oneFile] at hst
  split at hst
  · exact ⟨‹_›, (Option.some.inj hst).symm⟩
  · split at hst
    · rw [← Option.some.inj hst] at hdir
      exact absurd hdir (by simp)
    · exact absurd hst (by simp)

theorem oneFile_names {d_name p : Bytes} {names : List Bytes} (h : (oneFile d_name).readdir p = some names) :
    names = [d_name] := by
  simp only [oneFile] at h
  split at h
  · exact (Option.some.inj h).symm
  · exact absurd h (by simp)

theorem oneFile_finite (d_name : Bytes) : (oneFile d_name).Finite := by
  refine ⟨{(1, 1)}, fun mode p st hst hdir => ?_⟩
  rw [oneFile_look] at hst
  rw [(oneFile_dir hst hdir).2]
  exact Finset.mem_singleton.mpr rfl

theorem oneFile_tree {d_name : Bytes} (hname : FileName d_name) : Tree (oneFile d_name) (lit "r") where
  names_nodup p names _ h := by
    rw [oneFile_names h]
    exact List.nodup_cons.mpr ⟨List.not_mem_nil, List.nodup_nil⟩
  no_slash p names _ h d_name' hmem := by
    rw [oneFile_names h, List.mem_singleton] at hmem
    rw [hmem]
    exact hname.noSlash
  one_place p q st st' _ _ hp hdir hq hdir' _ := by
    rw [(oneFile_dir hp hdir).1, (oneFile_dir hq hdir').1]

/-- The path that is made of an escaped name is not there. -/
theorem oneFile_child {d_name : Bytes} (hpercent : 37 ∈ d_name) :
    (oneFile d_name).lstat (lit "r" ++ lit "/" ++ urlUnescape d_name) = none := by
  have hshort := (urlUnescape_kept d_name).2 hpercent
  have hroot : (lit "r").length = 1 := by decide
  have hslash : (lit "/").length = 1 := by decide
  have hother : ¬ lit "r" ++ lit "/" ++ urlUnescape d_name = lit "r" := by
    intro heq
    have := congrArg List.length heq
    simp only [List.length_append, hroot, hslash] at this
    omega
  have hlonger : ¬ lit "r" ++ lit "/" ++ urlUnescape d_name = lit "r" ++ lit "/" ++ d_name := by
    intro heq
    rw [List.append_cancel_left heq] at hshort
    exact absurd hshort (Nat.lt_irrefl _)
  simp only [oneFile, if_neg hother, if_neg hlonger]

/-- The calls of a walk over it: only those for the directory. -/
theorem oneFile_calls {d_name : Bytes} (hname : FileName d_name) (hpercent : 37 ∈ d_name) {levels : Nat}
    {ok : Bool} {w : WalkState Unit}
    (hwalk : directoryWalk (oneFile d_name) goOn ⟨true, false, false⟩ levels (lit "r") () = some (ok, w)) :
    w.calls = [⟨.processDirBefore, lit "r", true⟩, ⟨.processDirAfter, lit "r", true⟩] := by
  have hroot : ∀ {st}, (oneFile d_name).look ⟨true, false, false⟩ (lit "r") = some st → st = ⟨1, 1, .dir⟩ := by
    intro st hst
    rw [oneFile_look, oneFile_root] at hst
    exact (Option.some.inj hst).symm
  cases levels with
  | zero => simp [directoryWalk, walk] at hwalk
  | succ levels =>
    rw [directoryWalk] at hwalk
    cases walk_visit hwalk with
    | missing hst =>
      rw [oneFile_look, oneFile_root] at hst
      exact absurd hst (by simp)
    | link hst _ hlink => simp [hroot hst] at hlink
    | regular hst hreg => simp [hroot hst] at hreg
    | other hst _ hdir => simp [hroot hst] at hdir
    | refused _ _ hbefore => simp [WalkState.call, goOn] at hbefore
    | again _ _ _ hseen => simp at hseen
    | unreadable _ _ _ _ _ hnames => simp [oneFile] at hnames
    | @read st w₁ names bRet w₂ hst _ hbefore _ _ hnames hloop =>
      obtain rfl := hroot hst
      rw [oneFile_names hnames, walkNames, if_neg (by simp [hname.noDot, hname.noDots])] at hloop
      cases levels with
      | zero => simp [walk] at hloop
      | succ levels =>
        have hnone : (oneFile d_name).look ⟨true, false, false⟩ (childPath ⟨true, false, false⟩ (lit "r") d_name) =
            none := by
          rw [oneFile_look, childPath, if_pos rfl]
          exact oneFile_child hpercent
        rw [walk_missing hnone] at hloop
        simp only [walkNames, Option.some_inj, Prod.mk.injEq] at hloop
        obtain ⟨rfl, rfl⟩ := hloop
        obtain rfl : (WalkState.call goOn .processDirBefore (lit "r") ⟨1, 1, .dir⟩ ⟨(), [], [], []⟩).2 = w₁ := by
          rw [hbefore]
        rfl

/-- The file whose name is unescaped to another one is not found. -/
theorem oneFile_missed {d_name : Bytes} (hname : FileName d_name) (hpercent : 37 ∈ d_name) :
    ¬ WalksWell (oneFile d_name) goOn ⟨true, false, false⟩ (lit "r") () := by
  rintro ⟨levels, ok, w, hwalk, -, hreports⟩
  have hcalls := oneFile_calls hname hpercent hwalk
  obtain ⟨call, hmem, hanswer⟩ | hone := hreports rfl (oneFile_tree hname)
  · rw [hcalls] at hmem
    simp only [List.mem_cons, List.not_mem_nil, or_false] at hmem
    obtain rfl | rfl := hmem <;> exact absurd hanswer (by simp)
  · have hnames : (oneFile d_name).readdir (lit "r") = some [d_name] := by simp only [oneFile, if_true]
    have hunder : Under (oneFile d_name) (lit "r") (lit "r" ++ lit "/" ++ d_name) :=
      .child (oneFile_root d_name) rfl hnames (List.mem_singleton.mpr rfl) hname.noDot hname.noDots (.self _)
    have hother : ¬ lit "r" ++ lit "/" ++ d_name = lit "r" := by
      intro heq
      have := congrArg List.length heq
      have hslash : (lit "/").length = 1 := by decide
      simp only [List.length_append, hslash] at this
      omega
    have hst : (oneFile d_name).lstat (lit "r" ++ lit "/" ++ d_name) = some ⟨1, 2, .reg⟩ := by
      simp only [oneFile, if_neg hother, if_true]
    have := hone _ _ hunder hst rfl
    simp [WalkState.reports, hcalls] at this

/-- When each walk does well on all file systems with names of some kind: these names have no percent sign, or they
are not taken for escaped. -/
theorem directoryWalk_iff (stupidfs : Bool) (allowed : Bytes → Prop) :
    (∀ (σ : Type) (fs : Fs) (h : FileHandler σ) (bFilterDoubleDirVisit bFollowSymlinks : Bool) (sRoot : Bytes)
        (handler : σ), fs.Finite → fs.Names allowed →
        WalksWell fs h ⟨stupidfs, bFilterDoubleDirVisit, bFollowSymlinks⟩ sRoot handler) ↔
      (stupidfs = true → ∀ d_name, FileName d_name → allowed d_name → 37 ∉ d_name) := by
  constructor
  · rintro hall rfl d_name hname hallowed hpercent
    refine oneFile_missed hname hpercent (hall Unit (oneFile d_name) goOn false false (lit "r") ()
      (oneFile_finite d_name) (fun p names h d_name' hmem _ _ => ?_))
    rw [oneFile_names h, List.mem_singleton] at hmem
    exact hmem ▸ ⟨hname, hallowed⟩
  · intro hkept σ fs h bFilterDoubleDirVisit bFollowSymlinks sRoot handler hfinite hnames
    refine walksWell hfinite h _ sRoot handler (fun hstupid p names hp d_name hmem hdot hdots => ?_)
    obtain ⟨hname, hallowed⟩ := hnames p names hp d_name hmem hdot hdots
    exact hkept hstupid d_name hname hallowed

/-- A file that is named as it is written in this mode. -/
theorem directoryWalk_escaped :
    ¬ WalksWell (oneFile (lit "a%41")) goOn ⟨true, false, false⟩ (lit "r") () ∧
      (directoryWalk (oneFile (lit "a%41")) goOn ⟨true, false, false⟩ 9 (lit "r") ()).map (fun r => r.2.calls) =
        some [⟨.processDirBefore, lit "r", true⟩, ⟨.processDirAfter, lit "r", true⟩] := by
  refine ⟨oneFile_missed ⟨?_, ?_, ?_, ?_, ?_⟩ ?_, ?_⟩ <;> decide

end Acng
