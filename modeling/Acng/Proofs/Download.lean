import Acng.Download
import Acng.Proofs.Inject

namespace Acng
open Lib

/-- The flags that decide if an error is counted are the same. -/
def SameErrorFlags (cache cache' : CacheState) : Prop :=
  ∀ path, (cache'.flags path).forgiveDlErrors = (cache.flags path).forgiveDlErrors ∧
    (cache'.flags path).hideDlErrors = (cache.flags path).hideDlErrors

namespace SameErrorFlags

theorem refl (cache : CacheState) : SameErrorFlags cache cache := fun _ => ⟨rfl, rfl⟩

theorem trans {a b c : CacheState} (h : SameErrorFlags a b) (h' : SameErrorFlags b c) :
    SameErrorFlags a c := fun path =>
  ⟨(h' path).1.trans (h path).1, (h' path).2.trans (h path).2⟩

theorem setFlags (cache : CacheState) (sPathRel : Bytes) (change : IfileAttribs → IfileAttribs)
    (h : ∀ atts, (change atts).forgiveDlErrors = atts.forgiveDlErrors ∧
      (change atts).hideDlErrors = atts.hideDlErrors) :
    SameErrorFlags cache (cache.setFlags sPathRel change) := by
  intro path
  obtain hsame | hchange := CacheState.setFlags_flags cache sPathRel change path
  · rw [hsame]
    exact ⟨rfl, rfl⟩
  · rw [hchange]
    exact h _

end SameErrorFlags

/-- How far `Download` may still call itself. -/
def DlArgs.depth (args : DlArgs) : Nat :=
  (if args.pForcedURL.isNone then 1 else 0) + (if args.guessReplacement then 1 else 0)

/-- What the body of a download may come to. -/
def DlNext.Sane (args : DlArgs) (cache : CacheState) : DlNext → Prop
  | .answer a st => SameErrorFlags cache st.cache ∧ a.result ≠ some .gone ∧
      (a.ending.isFailure = true → a.result = some .failLocal ∨ a.result = some .failRemote)
  | .again args' st => SameErrorFlags cache st.cache ∧ args'.depth < args.depth
  | .replace args' st => SameErrorFlags cache st.cache ∧ args'.depth < args.depth
  | .lastLine _ st => SameErrorFlags cache st.cache

/-- A retry is made with less depth. -/
def Retry.Smaller (args : DlArgs) : Retry → Prop
  | .again args' | .replace args' => args'.depth < args.depth
  | _ => True

theorem guessFromRelease_smaller {cache : CacheState} {args : DlArgs}
    (h : args.pForcedURL.isNone = true) : (guessFromRelease cache args).Smaller args := by
  have hdepth : 0 < args.depth := by
    unfold DlArgs.depth
    rw [if_pos h]
    omega
  unfold guessFromRelease
  simp only
  generalize List.flatMap _ _ = places
  cases hfound : places.findSome? (guessAt cache args) with
  | none => trivial
  | some found =>
    obtain ⟨⟨pos, sfx⟩, -, hat⟩ := List.exists_of_findSome?_eq_some hfound
    unfold guessAt at hat
    simp only at hat
    split at hat
    · split at hat
      · cases hat
      · split at hat
        · cases hat
          trivial
        · obtain ⟨tu, -, rfl⟩ := Option.map_eq_some_iff.mp hat
          exact hdepth
    · cases hat

theorem guessReplacement_smaller {args : DlArgs} (h : args.guessReplacement = true)
    (direct : Option HttpUrl) (origin : Bytes) :
    (guessReplacement args direct origin).Smaller args := by
  have hdepth : 0 < args.depth := by
    unfold DlArgs.depth
    rw [if_pos h]
    omega
  unfold guessReplacement
  split
  · trivial
  · split
    · trivial
    · split
      · trivial
      · exact hdepth

theorem retry_smaller (cache : CacheState) (args : DlArgs) (src : Resolved) (dl : Transfer) :
    (retry cache args src dl).Smaller args := by
  unfold retry
  split
  · next h =>
    rw [Bool.and_eq_true] at h
    exact guessFromRelease_smaller h.2
  · split
    · next h =>
      rw [Bool.and_eq_true] at h
      exact guessReplacement_smaller h.1 src.direct dl.origin
    · trivial

/-- Only a file whose source is searched for has an alternative one. -/
theorem resolveUrl_fallback {cfg : CachemanCfg} {cache : CacheState} {args : DlArgs}
    {src : Resolved} {u : HttpUrl} (h : resolveUrl cfg cache args = some src)
    (hu : src.fallbackUrl = some u) : args.pForcedURL = none := by
  cases hforced : args.pForcedURL with
  | none => rfl
  | some url =>
    unfold resolveUrl at h
    simp only [hforced] at h
    obtain rfl := Option.some.inj h
    unfold Resolved.preferRepo at hu
    simp only at hu
    split at hu <;> cases hu

theorem repDlResult_sane {args : DlArgs} {src : Resolved} {dl : Transfer} {ret : DlResult}
    {ending : DlEnd} {st : DownloadState} {cache : CacheState} (h : SameErrorFlags cache st.cache) :
    (repDlResult args src dl ret ending st).Sane args cache := by
  have hset : SameErrorFlags cache (st.cache.setFlags args.sFilePathRel
      (fun atts => { atts with uptodate := true })) := h.trans (.setFlags _ _ _ fun _ => ⟨rfl, rfl⟩)
  unfold repDlResult
  by_cases hok : ret = .ok
  · subst hok
    simp only [if_true]
    split
    · exact hset
    · exact h
  · simp only [hok, decide_false, Bool.false_and, Bool.false_eq_true, if_false]
    have hsmaller := retry_smaller st.cache args src dl
    generalize retry st.cache args src dl = again at hsmaller ⊢
    cases again with
    | nothing => exact h
    | again args' => exact ⟨h, hsmaller⟩
    | replace args' => exact ⟨h, hsmaller⟩
    | throws => exact ⟨h, nofun, nofun⟩

theorem formatError_sane {cfg : CachemanCfg} {args : DlArgs} {src : Resolved} {dl : Transfer}
    {st : DownloadState} {cache : CacheState} (h : SameErrorFlags cache st.cache) :
    (formatError cfg args src dl st).Sane args cache := by
  unfold formatError
  split
  · exact repDlResult_sane h
  · split
    · exact repDlResult_sane h
    · exact repDlResult_sane h

theorem downloadNext_sane (cfg : CachemanCfg) (io : DownloadIo) (args : DlArgs)
    (st : DownloadState) : (downloadNext cfg io args st).Sane args st.cache := by
  have hrefl := SameErrorFlags.refl st.cache
  unfold downloadNext
  simp only
  split
  · exact ⟨hrefl, nofun, fun _ => .inl rfl⟩
  · split
    · exact ⟨hrefl, nofun, nofun⟩
    · split
      · exact repDlResult_sane hrefl
      · split
        · exact ⟨hrefl, nofun, nofun⟩
        · split
          · exact repDlResult_sane hrefl
          · split
            · split
              · exact formatError_sane hrefl
              · exact ⟨hrefl, nofun, nofun⟩
            · split
              · exact ⟨hrefl, nofun, fun _ => .inl rfl⟩
              · split
                · exact ⟨hrefl, nofun, fun _ => .inr rfl⟩
                · next src hsrc =>
                  split
                  · exact repDlResult_sane hrefl
                  · split
                    · next url hfallback =>
                      refine ⟨hrefl, ?_⟩
                      unfold DlArgs.depth
                      rw [resolveUrl_fallback hsrc hfallback]
                      simp
                    · exact formatError_sane hrefl

/-- The body only calls itself with smaller depth. -/
theorem downloadBody_calls (cfg : CachemanCfg) (ios : Nat → DownloadIo)
    (f g : DlArgs × DownloadState → DlAnswer × DownloadState) (call : DlArgs × DownloadState)
    (h : ∀ call', call'.1.depth < call.1.depth → f call' = g call') :
    downloadBody cfg ios f call = downloadBody cfg ios g call := by
  have hsane := downloadNext_sane cfg (ios call.2.calls) call.1 call.2
  unfold downloadBody
  generalize downloadNext cfg (ios call.2.calls) call.1 call.2 = next at hsane ⊢
  cases next with
  | answer a st => rfl
  | again args st => exact h (args, st) hsane.2
  | replace args st => simp only [h (args, st) hsane.2]
  | lastLine ending st => rfl

/-- The download is what the source says: a function that calls itself. -/
theorem download_eq (cfg : CachemanCfg) (ios : Nat → DownloadIo) (args : DlArgs)
    (st : DownloadState) :
    download cfg ios args st =
      downloadBody cfg ios (fun call => download cfg ios call.1 call.2) (args, st) := by
  have hfixed := iterate_fixed (fun call : DlArgs × DownloadState => call.1.depth)
    (downloadBody_calls cfg ios) (fun call => (⟨none, .thrown⟩, call.2)) (n := 3) (fun call => by
      unfold DlArgs.depth
      split_ifs <;> omega)
  exact (congrFun hfixed (args, st)).symm

/-- What every download leaves alone and may answer. -/
def DlAnswer.Sane (cache : CacheState) (r : DlAnswer × DownloadState) : Prop :=
  SameErrorFlags cache r.2.cache ∧ r.1.result ≠ some .gone ∧
    (r.1.ending.isFailure = true → r.1.result ≠ none)

theorem download_sane (cfg : CachemanCfg) (ios : Nat → DownloadIo) (args : DlArgs)
    (st : DownloadState) : DlAnswer.Sane st.cache (download cfg ios args st) := by
  refine iterate_keep (p := fun f => ∀ call : DlArgs × DownloadState,
    DlAnswer.Sane call.2.cache (f call)) ?_ ?_ 3 (args, st)
  · exact fun call => ⟨.refl _, nofun, nofun⟩
  · intro self hself call
    have hsane := downloadNext_sane cfg (ios call.2.calls) call.1 call.2
    unfold downloadBody
    generalize downloadNext cfg (ios call.2.calls) call.1 call.2 = next at hsane ⊢
    cases next with
    | answer a st =>
      obtain ⟨hflags, hgone, hfail⟩ := hsane
      refine ⟨hflags, hgone, fun h => ?_⟩
      obtain h | h := hfail h <;> rw [h] <;> nofun
    | again args st =>
      obtain ⟨hflags, hgone, hfail⟩ := hself (args, st)
      exact ⟨hsane.1.trans hflags, hgone, hfail⟩
    | replace args st =>
      obtain ⟨hflags, hgone, hfail⟩ := hself (args, st)
      have hkept := hsane.1.trans hflags
      simp only
      split
      · exact ⟨hkept, hgone, hfail⟩
      · exact ⟨hkept, nofun, nofun⟩
      · exact ⟨hkept, nofun, nofun⟩
    | lastLine ending st => exact ⟨hsane, nofun, nofun⟩

/-- A failed attempt is not forgiven, and nothing else is tried for it. -/
def Abandoned (cfg : CachemanCfg) (cache : CacheState) (args : DlArgs) (src : Resolved)
    (dl : Transfer) : Prop :=
  (goneForGood cfg cache args dl = true ∨ forgiven cache args dl = false) ∧
    retry cache args src dl = .nothing

/-- How an attempt fails: there is no item, the item had an error before, it is complete with another
status, or the transfer from the only source fails. -/
inductive Fails (cfg : CachemanCfg) (io : DownloadIo) (args : DlArgs) (st : DownloadState) : Prop
  | noItem (hcreate : io.create (args.mode cfg) (st.cache.disk args.sFilePathRel) = none)
  | item {fi} (hcreate : io.create (args.mode cfg) (st.cache.disk args.sFilePathRel) = some fi)
      (hskip : (args.bIsVolatileFile && cfg.bSkipIxUpdate) = false)
      (hstatus : .complete < fi.setup.status)
  | stored {fi} (hcreate : io.create (args.mode cfg) (st.cache.disk args.sFilePathRel) = some fi)
      (hskip : (args.bIsVolatileFile && cfg.bSkipIxUpdate) = false)
      (hstatus : fi.setup.status = .complete) (hcode : fi.setup.responseStatus.code ≠ 200)
      (habandoned : Abandoned cfg st.cache args {} {})
  | transfer {fi src}
      (hcreate : io.create (args.mode cfg) (st.cache.disk args.sFilePathRel) = some fi)
      (hskip : (args.bIsVolatileFile && cfg.bSkipIxUpdate) = false)
      (hstatus : fi.setup.status < .complete) (hregistry : io.itemRegistry = true)
      (hurl : resolveUrl cfg st.cache args = some src)
      (hended : ¬ ((io.transfer src.target).status = .complete ∧
        (io.transfer src.target).response.code = 200))
      (hfallback : src.fallbackUrl = none)
      (habandoned : Abandoned cfg
        { st.cache with disk := (io.transfer src.target).disk st.cache.disk } args src
        (io.transfer src.target))

/-- An attempt is made, and it fails for good. -/
structure Lost (cfg : CachemanCfg) (io : DownloadIo) (args : DlArgs) (st : DownloadState) : Prop where
  downloader : io.downloader = true
  outdated : (st.cache.flags args.sFilePathRel).uptodate = false
  fails : Fails cfg io args st

/-- The last line is reached with a failure. -/
def DlNext.Loses : DlNext → Prop
  | .lastLine ending _ => ending.isFailure = true
  | _ => False

theorem repDlResult_ok {args : DlArgs} {src : Resolved} {dl : Transfer} {ending : DlEnd}
    {st : DownloadState} (h : ending.isFailure = false) :
    ¬ (repDlResult args src dl .ok ending st).Loses := by
  unfold repDlResult
  rw [if_pos rfl]
  exact fun hfail => Bool.false_ne_true (h.symm.trans hfail)

theorem repDlResult_fail_iff {args : DlArgs} {src : Resolved} {dl : Transfer} {ret : DlResult}
    {ending : DlEnd} {st : DownloadState} (hret : ret ≠ .ok) (h : ending.isFailure = true) :
    (repDlResult args src dl ret ending st).Loses ↔ retry st.cache args src dl = .nothing := by
  unfold repDlResult
  simp only [hret, decide_false, Bool.false_and, Bool.false_eq_true, if_false]
  cases retry st.cache args src dl with
  | nothing => exact iff_of_true h rfl
  | again args' => exact iff_of_false id nofun
  | replace args' => exact iff_of_false id nofun
  | throws => exact iff_of_false id nofun

theorem formatError_loses_iff {cfg : CachemanCfg} {args : DlArgs} {src : Resolved} {dl : Transfer}
    {st : DownloadState} :
    (formatError cfg args src dl st).Loses ↔ Abandoned cfg st.cache args src dl := by
  unfold formatError Abandoned
  cases goneForGood cfg st.cache args dl with
  | true =>
    rw [if_pos rfl, and_iff_right (.inl rfl)]
    exact repDlResult_fail_iff (by decide) (by decide)
  | false =>
    rw [if_neg Bool.false_ne_true]
    cases forgiven st.cache args dl with
    | true =>
      rw [if_pos rfl]
      exact iff_of_false (repDlResult_ok rfl) (by simp)
    | false =>
      rw [if_neg Bool.false_ne_true, and_iff_right (.inr rfl)]
      exact repDlResult_fail_iff (by decide) (by decide)

/-- Without a source and a transfer nothing is tried again. -/
theorem retry_default (cache : CacheState) (args : DlArgs) : retry cache args {} {} = .nothing := by
  simp [retry]

theorem downloadNext_loses_iff (cfg : CachemanCfg) (io : DownloadIo) (args : DlArgs)
    (st : DownloadState) : (downloadNext cfg io args st).Loses ↔ Lost cfg io args st := by
  constructor
  · intro h
    unfold downloadNext at h
    simp only at h
    split at h
    · exact h.elim
    · next hdownloader =>
      split at h
      · exact h.elim
      · next houtdated =>
        refine ⟨by simpa using hdownloader, by simpa using houtdated, ?_⟩
        split at h
        · next hcreate => exact .noItem hcreate
        · next fi hcreate =>
          split at h
          · exact h.elim
          · next hskip =>
            rw [Bool.not_eq_true] at hskip
            split at h
            · next hstatus => exact .item hcreate hskip hstatus
            · next hnoError =>
              split at h
              · next hstatus =>
                split at h
                · next hcode =>
                  have habandoned := formatError_loses_iff.mp h
                  exact .stored hcreate hskip hstatus hcode habandoned
                · exact h.elim
              · next hopen =>
                split at h
                · exact h.elim
                · next hregistry =>
                  split at h
                  · exact h.elim
                  · next src hurl =>
                    split at h
                    · exact absurd h (repDlResult_ok rfl)
                    · next hended =>
                      split at h
                      · exact h.elim
                      · next hfallback =>
                        have habandoned := formatError_loses_iff.mp h
                        exact .transfer hcreate hskip (lt_of_le_of_ne (not_lt.mp hnoError) hopen)
                          (by simpa using hregistry) hurl (by simpa using hended) hfallback
                          habandoned
  · rintro ⟨hdownloader, houtdated, hfails⟩
    unfold downloadNext
    simp only [hdownloader, houtdated, Bool.not_true, Bool.false_eq_true, if_false]
    cases hfails with
    | noItem hcreate =>
      simp only [hcreate]
      exact (repDlResult_fail_iff (by decide) (by decide)).mpr (retry_default _ _)
    | item hcreate hskip hstatus =>
      simp only [hcreate, hskip, hstatus, Bool.false_eq_true, if_false, if_true]
      exact (repDlResult_fail_iff (by decide) (by decide)).mpr (retry_default _ _)
    | stored hcreate hskip hstatus hcode habandoned =>
      simp only [hcreate, hskip, hstatus, lt_irrefl, Bool.false_eq_true, if_false, if_true]
      rw [if_pos hcode]
      exact formatError_loses_iff.mpr habandoned
    | transfer hcreate hskip hstatus hregistry hurl hended hfallback habandoned =>
      simp only [hcreate, hskip, hurl, hregistry, hfallback, not_lt_of_gt hstatus, ne_of_lt hstatus,
        Bool.not_true, Bool.false_eq_true, if_false]
      rw [if_neg (by simpa using hended)]
      exact formatError_loses_iff.mpr habandoned

/-- The file is lost in this call, or in the one that is made in its place. -/
inductive Swallowed (cfg : CachemanCfg) (ios : Nat → DownloadIo) : DlArgs → DownloadState → Prop
  | lost {args st} (h : Lost cfg (ios st.calls) args st) : Swallowed cfg ios args st
  | again {args st args' st'} (h : downloadNext cfg (ios st.calls) args st = .again args' st')
      (hs : Swallowed cfg ios args' st') : Swallowed cfg ios args st
  | replace {args st args' st'} (h : downloadNext cfg (ios st.calls) args st = .replace args' st')
      (hs : Swallowed cfg ios args' st') : Swallowed cfg ios args st

/-- A failure is answered with OK exactly if it is swallowed. -/
theorem download_swallowed_iff (cfg : CachemanCfg) (ios : Nat → DownloadIo) (args : DlArgs)
    (st : DownloadState) :
    ((download cfg ios args st).1.result = some .ok ∧
        (download cfg ios args st).1.ending.isFailure = true) ↔ Swallowed cfg ios args st := by
  constructor
  · refine iterate_keep (p := fun f : DlArgs × DownloadState → DlAnswer × DownloadState => ∀ call,
      (f call).1.result = some .ok ∧ (f call).1.ending.isFailure = true →
        Swallowed cfg ios call.1 call.2) ?_ ?_ 3 (args, st)
    · rintro call ⟨hok, -⟩
      cases hok
    · rintro self hself ⟨args, st⟩ ⟨hok, hfail⟩
      have hsane := downloadNext_sane cfg (ios st.calls) args st
      unfold downloadBody at hok hfail
      cases hnext : downloadNext cfg (ios st.calls) args st with
      | answer a st' =>
        rw [hnext] at hsane hok hfail
        obtain hlocal | hremote := hsane.2.2 hfail
        · exact absurd (hok.symm.trans hlocal) (by decide)
        · exact absurd (hok.symm.trans hremote) (by decide)
      | again args' st' =>
        rw [hnext] at hok hfail
        exact .again hnext (hself (args', st') ⟨hok, hfail⟩)
      | replace args' st' =>
        rw [hnext] at hok hfail
        simp only at hok hfail
        refine .replace hnext (hself (args', st') ?_)
        split at hok
        · next hnone =>
          rw [hnone] at hok
          cases hok
        · next hinner =>
          rw [hinner] at hfail
          refine ⟨hinner, ?_⟩
          simp only at hfail
          split at hfail
          · next h => exact h
          · cases hfail
        · cases hok
      | lastLine ending st' =>
        rw [hnext] at hfail
        refine .lost ((downloadNext_loses_iff cfg (ios st.calls) args st).mp ?_)
        rw [hnext]
        exact hfail
  · intro h
    induction h with
    | @lost args st h =>
      have hloses := (downloadNext_loses_iff cfg (ios st.calls) args st).mpr h
      rw [download_eq]
      unfold downloadBody
      simp only
      generalize downloadNext cfg (ios st.calls) args st = next at hloses ⊢
      cases next with
      | lastLine ending st' => exact ⟨rfl, hloses⟩
      | _ => exact hloses.elim
    | again h _ ih =>
      rw [download_eq]
      simp only [downloadBody, h]
      exact ih
    | replace h _ ih =>
      rw [download_eq]
      simp only [downloadBody, h, ih.1, ih.2, if_true]
      exact ⟨trivial, rfl⟩

end Acng
