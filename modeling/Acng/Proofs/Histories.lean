import Acng.Proofs.Resume

namespace Acng
open Lib

/-- The state of an item between two steps of its lifetime. -/
def FileItem.Held {lib : DateLib} (o : Origin lib) (fi : FileItem) : Prop :=
  fi.AtRest o ∨ fi.Doomed o ∨ ∃ v, fi.Begun o v ∨ fi.Writing o v

/-- The body that is going to be delivered fits the head that was accepted. -/
def FileItem.Awaits {lib : DateLib} (o : Origin lib) (body : Bytes) (fi : FileItem) : Prop :=
  (fi.Doomed o ∧ body ≠ []) ∨
    ∃ v, (fi.Begun o v ∨ fi.Writing o v) ∧ body = v.drop fi.nSizeChecked.toNat

section
variable {lib : DateLib} (o : Origin lib)

/-- The range that a request asks for fits the item. -/
structure Pending (fi : FileItem) (job : DlJob) (rq : Request) : Prop where
  allow : job.bAllowStoreData = true
  range : ∀ start limit, rq.range = some (start, limit) → job.nUsedRangeStartPos = start ∧ 0 < start ∧
    (start = (if 0 ≤ fi.nSizeChecked then fi.nSizeChecked else fi.nSizeCachedInitial) ∨
      start = (if 0 ≤ fi.nSizeChecked then fi.nSizeChecked else fi.nSizeCachedInitial) - 1)
  known : ∀ date, rq.ifRange = some date → date = fi.responseModDate ∧ date.isSet = true

structure SessionOk (s : Session) : Prop where
  keep : s.fi.eDestroy = .keep
  store : s.fi.spattr.bNoStore = false
  get : s.job.fiAttr.bHeadOnly = false
  pending : ∀ rq, s.request = some rq → Pending s.fi s.job rq
  busy : s.rest ≠ none → s.request = none
  item : (s.fi.AtRest o ∧ (s.rest ≠ none → s.job.bAllowStoreData = false ∧
      s.fi.status = .complete ∧ 0 ≤ s.fi.nContentLength)) ∨
    (s.fi.Doomed o ∧ ∀ r, s.rest = some r → s.job.bAllowStoreData = true ∧ r ≠ []) ∨
    ∃ v, (s.fi.Begun o v ∨ s.fi.Writing o v) ∧
      ∀ r, s.rest = some r → s.job.bAllowStoreData = true ∧ s.fi.status < .complete ∧
        r = v.drop s.fi.nSizeChecked.toNat

end

theorem rangeStart_cases (cfg : Cfg) (j : DlJob) (fi : FileItem) (h : 0 < j.rangeStart cfg fi) :
    j.rangeStart cfg fi = (if 0 ≤ fi.nSizeChecked then fi.nSizeChecked else fi.nSizeCachedInitial) ∨
      j.rangeStart cfg fi =
        (if 0 ≤ fi.nSizeChecked then fi.nSizeChecked else fi.nSizeCachedInitial) - 1 := by
  unfold DlJob.rangeStart at h ⊢
  generalize (if 0 ≤ fi.nSizeChecked then fi.nSizeChecked else fi.nSizeCachedInitial) = p at h ⊢
  simp only at h ⊢
  by_cases hp : p < -1
  · rw [if_pos hp] at h ⊢
    split_ifs at h ⊢ <;> simp_all
  · rw [if_neg hp] at h ⊢
    split_ifs at h ⊢ <;> simp_all

/-- The request asks for what follows the bytes that are there. -/
theorem appendRequest_pending (cfg : Cfg) (j : DlJob) (fi : FileItem)
    (hget : j.fiAttr.bHeadOnly = false) :
    Pending fi (j.appendRequest cfg fi).2 (j.appendRequest cfg fi).1 := by
  refine ⟨by simp [DlJob.appendRequest, hget], ?_, ?_⟩
  · intro start limit hr
    simp only [DlJob.appendRequest] at hr ⊢
    split at hr
    · rename_i h0
      simp only [Option.some.injEq, Prod.mk.injEq] at hr
      obtain ⟨rfl, -⟩ := hr
      exact ⟨rfl, h0, rangeStart_cases cfg j fi h0⟩
    · cases hr
  · intro date hd
    simp only [DlJob.appendRequest] at hd
    split at hd
    · rename_i h0
      simp only [Bool.and_eq_true] at h0
      obtain rfl := Option.some.inj hd
      exact ⟨rfl, h0.2⟩
    · cases hd

namespace FileItem
variable {lib : DateLib} {o : Origin lib} {fi fi' : FileItem}

theorem Held.spared (hs : Spared fi fi') (h : fi.Held o) : fi'.Held o := by
  rcases h with hr | hd | ⟨v, hb | hw⟩
  · exact .inl (hr.spared hs)
  · exact .inr (.inl (hd.spared hs))
  · exact .inr (.inr ⟨v, .inl (hb.spared hs)⟩)
  · exact .inr (.inr ⟨v, .inr (hw.spared hs)⟩)

theorem Held.intact (h : fi.Held o) : fi.Intact o := by
  rcases h with hr | hd | ⟨v, hb | hw⟩
  · exact hr.intact
  · exact fun hc => absurd hc hd.never
  · exact hb.intact
  · exact hw.intact

/-- The answer 200 to an item. -/
theorem Held.full (h : fi.Held o) (hlt : fi.status < .complete) (v : Bytes) (raw : Nat)
    (modDate : HttpDate) (origin : Bytes) (status : RemoteStatus) (announced : Int)
    (hv : modDate.isSet = true → v = o.content modDate)
    (hlen : announced = -1 ∨ announced = v.length) :
    (∃ fi', fi.dlStarted lib raw modDate origin status 0 announced = (false, fi') ∧
      Spared fi fi') ∨
    (fi.dlStarted lib raw modDate origin status 0 announced =
        (true, fi.startedAt raw modDate origin status 0 announced) ∧
      Begun o v (fi.startedAt raw modDate origin status 0 announced)) := by
  rcases h with hr | hd | ⟨v₀, hb | hw⟩
  · exact .inr (hr.full hlt v raw modDate origin status announced hv hlen)
  · exact .inl (hd.full hlt raw modDate origin status announced)
  · exact hb.full hlt v raw modDate origin status announced hv hlen
  · exact .inl (hw.full hlt raw modDate origin status announced)

/-- The answer 206 to an item. -/
theorem Held.part (h : fi.Held o) (hlt : fi.status < .complete) (start raw : Nat)
    (modDate : HttpDate) (origin : Bytes) (status : RemoteStatus)
    (hset : fi.responseModDate.isSet = true) (hpos : 0 < start)
    (hin : start < (o.content fi.responseModDate).length)
    (hstart : (start : Int) =
        (if 0 ≤ fi.nSizeChecked then fi.nSizeChecked else fi.nSizeCachedInitial) ∨
      (start : Int) = (if 0 ≤ fi.nSizeChecked then fi.nSizeChecked else fi.nSizeCachedInitial) - 1)
    (hle : fi.nSizeCachedInitial ≤ start)
    (hsame : modDate.isSet = true → fi.responseModDate.eq lib modDate = true) :
    (∃ fi', fi.dlStarted lib raw modDate origin status start
        (o.content fi.responseModDate).length = (false, fi') ∧ Spared fi fi') ∨
    (fi.dlStarted lib raw modDate origin status start (o.content fi.responseModDate).length =
        (true, fi.startedAt raw modDate origin status start (o.content fi.responseModDate).length) ∧
      (Begun o (o.content fi.responseModDate)
          (fi.startedAt raw modDate origin status start (o.content fi.responseModDate).length) ∨
        Writing o (o.content fi.responseModDate)
          (fi.startedAt raw modDate origin status start (o.content fi.responseModDate).length))) := by
  rcases h with hr | hd | ⟨v, hb | hw⟩
  · rw [if_neg (by have := (hr.cold hlt).2; omega)] at hstart
    obtain ⟨hyes, hb⟩ :=
      hr.part hlt start raw modDate origin status hset hpos hin hstart hle hsame
    exact .inr ⟨hyes, .inl hb⟩
  · exact .inl (dlStarted_refuses fi raw modDate origin status start _ hd.status
      (by have := hd.length; omega) (by have := hd.length; omega))
  · obtain rfl := hb.version hset
    exact (hb.part hlt start raw modDate origin status hpos).imp id (And.imp id .inl)
  · obtain rfl := hw.version hset
    exact (hw.part hlt start raw modDate origin status).imp id (And.imp id .inr)

/-- The answer 206 without a total. -/
theorem Held.open_total (h : fi.Held o) (hlt : fi.status < .complete) (start raw : Nat)
    (modDate : HttpDate) (origin : Bytes) (status : RemoteStatus)
    (hset : fi.responseModDate.isSet = true) (hpos : 0 < start)
    (hin : start < (o.content fi.responseModDate).length)
    (hstart : (start : Int) =
        (if 0 ≤ fi.nSizeChecked then fi.nSizeChecked else fi.nSizeCachedInitial) ∨
      (start : Int) = (if 0 ≤ fi.nSizeChecked then fi.nSizeChecked else fi.nSizeCachedInitial) - 1)
    (hle : fi.nSizeCachedInitial ≤ start) (hknown : 0 ≤ fi.nSizeChecked → fi.nContentLength ≠ -1) :
    (∃ fi', fi.dlStarted lib raw modDate origin status start 0 = (false, fi') ∧ Spared fi fi') ∨
    (fi.dlStarted lib raw modDate origin status start 0 =
        (true, fi.startedAt raw modDate origin status start 0) ∧
      Doomed o (fi.startedAt raw modDate origin status start 0)) := by
  have hne : o.content fi.responseModDate ≠ [] := List.length_pos_iff.mp (by omega)
  rcases h with hr | hd | ⟨v, hb | hw⟩
  · rw [if_neg (by have := (hr.cold hlt).2; omega)] at hstart
    exact .inr (hr.open_total hlt start raw modDate origin status hpos hstart hle)
  · exact hd.open_total hlt start raw modDate origin status hpos
  · obtain rfl := hb.version hset
    have hlen := hb.length.resolve_left (hknown hb.nonneg)
    exact .inl (hb.toFetching.open_total hne hlen start raw modDate origin status)
  · obtain rfl := hw.version hset
    obtain ⟨f, -, -, -, hl⟩ := hw.file
    have hlen := (hl.resolve_left (fun hl => hknown hw.nonneg hl.1)).1
    exact .inl (hw.toFetching.open_total hne hlen start raw modDate origin status)

end FileItem

namespace SessionOk
variable {lib : DateLib} {o : Origin lib} {s : Session}
open FileItem

theorem held (h : SessionOk o s) : s.fi.Held o := by
  rcases h.item with ⟨hr, -⟩ | ⟨hd, -⟩ | ⟨v, hv, -⟩
  · exact .inl hr
  · exact .inr (.inl hd)
  · exact .inr (.inr ⟨v, hv⟩)

/-- A session that waits for nothing from the server. -/
theorem of_held (hk : s.fi.eDestroy = .keep) (hns : s.fi.spattr.bNoStore = false)
    (hget : s.job.fiAttr.bHeadOnly = false) (hrest : s.rest = none) (h : s.fi.Held o)
    (hp : ∀ rq, s.request = some rq → Pending s.fi s.job rq) : SessionOk o s := by
  refine ⟨hk, hns, hget, hp, fun hne => absurd hrest hne, ?_⟩
  have hno : ∀ r, s.rest ≠ some r := fun r hr => absurd (hrest.symm.trans hr) (by simp)
  rcases h with hr | hd | ⟨v, hv⟩
  · exact .inl ⟨hr, fun hne => absurd hrest hne⟩
  · exact .inr (.inl ⟨hd, fun r hr => absurd hr (hno r)⟩)
  · exact .inr (.inr ⟨v, hv, fun r hr => absurd hr (hno r)⟩)

/-- The head was refused. -/
theorem refused (h : SessionOk o s) (fi' : FileItem) (job' : DlJob) (hs : Spared s.fi fi')
    (hget : job'.fiAttr = s.job.fiAttr) :
    SessionOk o { fi := fi', job := job', closed := true } := by
  have hd := hs.data
  refine of_held ?_ ?_ ?_ rfl (h.held.spared hs) (fun _ hq => nomatch hq)
  · rw [hd]
    exact h.keep
  · rw [hd]
    exact h.store
  · rw [hget]
    exact h.get

/-- The head was accepted, and the body follows. -/
theorem accepted (h : SessionOk o s) (fi : FileItem) (job' : DlJob) (raw : Nat) (modDate : HttpDate)
    (origin : Bytes) (status : RemoteStatus) (seek announced : Int) (body : Bytes)
    (hs : Spared s.fi fi) (hget : job'.fiAttr = s.job.fiAttr) (hallow : job'.bAllowStoreData = true)
    (hv : (fi.startedAt raw modDate origin status seek announced).Awaits o body) :
    SessionOk o { fi := fi.startedAt raw modDate origin status seek announced, job := job'
                  rest := some body } := by
  have hd := hs.data
  refine ⟨?_, ?_, ?_, (fun _ hq => nomatch hq), fun _ => rfl, .inr ?_⟩
  · change fi.eDestroy = .keep
    rw [hd]
    exact h.keep
  · change fi.spattr.bNoStore = false
    rw [hd]
    exact h.store
  · rw [hget]
    exact h.get
  · rcases hv with ⟨hdoom, hne⟩ | ⟨v, hv, hbody⟩
    · refine .inl ⟨hdoom, fun r hr => ⟨hallow, ?_⟩⟩
      rwa [← Option.some.inj hr]
    · refine .inr ⟨v, hv, fun r hr => ⟨hallow, ?_, ?_⟩⟩
      · change FiStatus.dlGotHead < .complete
        decide
      · rw [← Option.some.inj hr]
        exact hbody

/-- The files are confirmed, and the last byte that follows is dropped. -/
theorem probed (h : SessionOk o s) (fi' : FileItem) (job' : DlJob) (body : Bytes) (count : Nat)
    (time : Int) (hfi : fi' = s.fi.probed count time) (hset : s.fi.responseModDate.isSet = true)
    (hpos : 0 < s.fi.nSizeCachedInitial)
    (hlen : s.fi.nSizeCachedInitial = (o.content s.fi.responseModDate).length) (hr : s.fi.AtRest o)
    (hlt : s.fi.status < .complete) (hget : job'.fiAttr = s.job.fiAttr) (hallow : job'.bAllowStoreData = false) :
    SessionOk o { fi := fi', job := job', rest := some body } := by
  subst hfi
  refine ⟨h.keep, h.store, ?_, (fun _ hq => nomatch hq), fun _ => rfl, .inl ⟨?_, fun _ => ?_⟩⟩
  · rw [hget]
    exact h.get
  · exact hr.probed hlt hset hpos hlen count time
  · exact ⟨hallow, rfl, hpos.le⟩

theorem request (h : SessionOk o s) (cfg : Cfg) (job : DlJob)
    (hget : job.fiAttr = s.job.fiAttr) :
    SessionOk o { s with
      job := (job.appendRequest cfg s.fi).2, request := some (job.appendRequest cfg s.fi).1
      rest := none } := by
  have hg : job.fiAttr.bHeadOnly = false := by
    rw [hget]
    exact h.get
  refine of_held h.keep h.store hg rfl h.held (fun rq hq => ?_)
  obtain rfl := Option.some.inj hq
  exact appendRequest_pending cfg job s.fi hg

theorem data (h : SessionOk o s) (chunk rest : Bytes) (hne : chunk ≠ [])
    (hrest : s.rest = some (chunk ++ rest)) : SessionOk o (s.data chunk rest) := by
  have hsome : s.rest ≠ none := by simp [hrest]
  have hq := h.busy hsome
  rcases h.item with ⟨hr, hskip⟩ | ⟨hd, hgo⟩ | ⟨v, hv, hgo⟩
  · obtain ⟨hallow, hst, hlen⟩ := hskip hsome
    have heq : s.data chunk rest = { s with rest := some rest } := by
      simp [Session.data, hallow]
    rw [heq]
    exact ⟨h.keep, h.store, h.get, h.pending, fun _ => hq, .inl ⟨hr, fun _ => ⟨hallow, hst, hlen⟩⟩⟩
  · obtain ⟨hallow, -⟩ := hgo _ hrest
    obtain ⟨fi', hadd, hr, hk, hattr⟩ := hd.write h.store h.keep chunk
    have heq : s.data chunk rest = { s with fi := fi', rest := none, closed := true } := by
      simp [Session.data, hallow, hadd]
    rw [heq]
    refine of_held hk ?_ h.get rfl (.inl hr) (fun rq hrq => ?_)
    · change fi'.spattr.bNoStore = false
      rw [hattr]
      exact h.store
    · exact absurd (hq.symm.trans hrq) (by simp)
  · obtain ⟨hallow, hlt, hdrop⟩ := hgo _ hrest
    have hadd : ∃ fi', s.fi.dlAddData chunk = (true, fi') ∧ Writing o v fi' ∧
        fi'.status < .complete ∧ rest = v.drop fi'.nSizeChecked.toNat ∧
        fi'.eDestroy = s.fi.eDestroy ∧ fi'.spattr = s.fi.spattr := by
      rcases hv with hb | hw
      · exact hb.write h.store hne hlt hdrop.symm
      · exact hw.write hne hlt hdrop.symm
    obtain ⟨fi', hadd, hw, hlt', hrest', hk, hattr⟩ := hadd
    have heq : s.data chunk rest = { s with fi := fi', rest := some rest } := by
      simp [Session.data, hallow, hadd]
    rw [heq]
    refine ⟨hk.trans h.keep, ?_, h.get, ?_, fun _ => hq, .inr (.inr ⟨v, .inr hw, ?_⟩)⟩
    · change fi'.spattr.bNoStore = false
      rw [hattr]
      exact h.store
    · exact fun rq hrq => absurd (hq.symm.trans hrq) (by simp)
    · intro r hr
      obtain rfl := Option.some.inj hr
      exact ⟨hallow, hlt', hrest'⟩

theorem finish (h : SessionOk o s) (hrest : s.rest = some []) : SessionOk o s.finish := by
  have hsome : s.rest ≠ none := by simp [hrest]
  have hq := h.busy hsome
  have hheld : (s.fi.dlFinish false).Held o := by
    rcases h.item with ⟨hr, hskip⟩ | ⟨-, hgo⟩ | ⟨v, hv, hgo⟩
    · obtain ⟨-, hst, hlen⟩ := hskip hsome
      have heq : s.fi.dlFinish false = s.fi := by
        rw [dlFinish_fetched s.fi h.store h.keep hst.le, if_neg (by omega)]
        rw [← hst]
      rw [heq]
      exact .inl hr
    · exact absurd rfl (hgo _ hrest).2
    · obtain ⟨-, hlt, hdrop⟩ := hgo _ hrest
      rcases hv with hb | hw
      · exact .inr (.inr ⟨v, .inl (hb.finish h.store h.keep hlt hdrop.symm)⟩)
      · exact .inr (.inr ⟨v, .inr (hw.finish h.store h.keep hlt hdrop.symm)⟩)
  obtain ⟨len, st, head, hframe⟩ := dlFinish_frame s.fi false .stored
  refine of_held ?_ ?_ h.get rfl hheld (fun rq hrq => ?_)
  · change (s.fi.dlFinish false).eDestroy = .keep
    rw [hframe]
    exact h.keep
  · change (s.fi.dlFinish false).spattr.bNoStore = false
    rw [hframe]
    exact h.store
  · have hrq' : s.request = some rq := hrq
    rw [hq] at hrq'
    cases hrq'

theorem lost (h : SessionOk o s) : SessionOk o { s with request := none, rest := none } :=
  of_held h.keep h.store h.get rfl h.held (fun _ hq => nomatch hq)

/-- What is left on the disk after a lifetime. -/
theorem destroy (h : SessionOk o s) (hl : s.LeavesNothing) :
    DiskOk o (PipeJob.release ⟨s.job, s.fi⟩).fi.destroy := by
  unfold PipeJob.release
  simp only
  obtain ⟨hdisk, hmode⟩ := dlRefCountDec_keep s.fi
    ⟨503, if s.job.sErrorMsg.isEmpty then lit "Download Expired" else s.job.sErrorMsg⟩ h.keep
  rw [destroy_keep _ hmode, hdisk]
  rcases h.held with hr | hd | ⟨v, hb | hw⟩
  · exact hr.disk
  · exact hd.disk
  · exact hb.disk
  · exact hw.diskOk (hl (by simp [hw.fd]))

/-- The session after a head was dealt with. -/
def taken (r : ResponseEval × Dl) (body : Bytes) : Session :=
  match r.1 with
  | .good => { fi := r.2.fi, job := r.2.job, rest := some body }
  | _ => { fi := r.2.fi, job := r.2.job, closed := true }

theorem reply_cases (env : Env) (s : Session) (now : Int) (raw : Nat) (r : Reply) :
    ∃ res, Dl.HeadCase { env with now := now } {} ⟨s.job, s.fi, []⟩ r.h raw r.contLen res ∧
      s.reply env now raw r = taken res r.body :=
  ⟨_, Dl.checkAndSaveHeader_cases _ _ _ _ _ _, rfl⟩

theorem startDownload (env : Env) {o : Origin env.dates} {s : Session} (h : SessionOk o s) (d : Dl)
    (head : Header) (raw : Nat) (loc : Bytes) (contLen : Int) (body : Bytes)
    (hs : Spared s.fi (d.markAssigned env).fi) (hget : d.job.fiAttr = s.job.fiAttr)
    (hallow : d.job.bAllowStoreData = true)
    (hres : (∃ fi', (d.markAssigned env).fi.dlStarted env.dates raw
          (HttpDate.ofCStr env.dates (head.h .lastModified)) (d.originOf loc) head.status
          d.job.nUsedRangeStartPos contLen = (false, fi') ∧ Spared (d.markAssigned env).fi fi') ∨
      ((d.markAssigned env).fi.dlStarted env.dates raw
          (HttpDate.ofCStr env.dates (head.h .lastModified)) (d.originOf loc) head.status
          d.job.nUsedRangeStartPos contLen = (true, (d.markAssigned env).fi.startedAt raw
            (HttpDate.ofCStr env.dates (head.h .lastModified)) (d.originOf loc) head.status
            d.job.nUsedRangeStartPos contLen) ∧
        ((d.markAssigned env).fi.startedAt raw
            (HttpDate.ofCStr env.dates (head.h .lastModified)) (d.originOf loc) head.status
            d.job.nUsedRangeStartPos contLen).Awaits o body)) :
    SessionOk o (taken (d.startDownload env {} head raw loc contLen) body) := by
  rcases hres with ⟨fi', hno, hsp⟩ | ⟨hyes, hv⟩
  · rw [Dl.startDownload_of env {} d head raw loc contLen false fi' hno]
    exact h.refused fi' _ (hs.trans hsp) hget
  · rw [Dl.startDownload_of env {} d head raw loc contLen true _ hyes]
    simp only [hallow, if_true]
    exact h.accepted _ _ raw _ _ _ _ contLen body hs hget hallow hv

theorem strtoll_star (s : Bytes) (h : s.head? = some 42) : strtoll s = 0 := by
  cases s with
  | nil => cases h
  | cons c t =>
    obtain rfl := Option.some.inj h
    simp [strtoll, cstr, sign, isspace, isdigit, decimal]

/-- The total that a partial response of the origin gives is the size of the file, or it
is left open, which reads as zero. -/
theorem part_total {env : Env} {o : Origin env.dates} {s : Session} {rq : Request} {r : Reply}
    {known : HttpDate} {start : Nat} {first total value first' total' : Bytes}
    (hpart : r.Part o rq known start first total)
    (ok : r.h.status.code = 206 → ∀ first total, r.range = some (first, total) →
      s.AcceptsPart first total)
    (range : r.h.h .contentRange = some value) (found : rangeSearch value = some (first', total')) :
    strtoll first' = start ∧ s.AcceptsPart first' total' ∧
      (strtoll total' = (o.content known).length ∨
        (strtoll total' = 0 ∧ total'.head? = some 42)) := by
  have hr : r.range = some (first', total') := by simp [Reply.range, range, found]
  have heq := hpart.range.symm.trans hr
  simp only [Option.some.injEq, Prod.mk.injEq] at heq
  obtain ⟨rfl, rfl⟩ := heq
  exact ⟨hpart.first, ok hpart.code first total hr,
    hpart.total.imp id (fun hstar => ⟨strtoll_star total hstar, hstar⟩)⟩

theorem reply_full {env : Env} {o : Origin env.dates} {s : Session} (h : SessionOk o s)
    {rq : Request} (now : Int) (raw : Nat) (r : Reply) (hrq : s.request = some rq)
    (hf : r.Full o) :
    SessionOk o (s.reply env now raw r) := by
  have hp := h.pending rq hrq
  obtain ⟨res, hc, hreply⟩ := reply_cases env s now raw r
  rw [hreply]
  have hcount : Spared s.fi { s.fi with
      nIncommingCount := s.fi.nIncommingCount + raw, nTimeDlStarted := now } :=
    Spared.count s.fi _ now
  cases hc with
  | busy hb => exact h.refused _ _ (Spared.count s.fi _ s.fi.nTimeDlStarted) rfl
  | error hfree msg k => exact h.refused _ _ (hcount.trans (Spared.error _ _ k h.keep)) rfl
  | restart hfree code hn =>
    rw [hf.code] at code
    cases code
  | probe hfree code =>
    rw [hf.code] at code
    cases code
  | part hfree code =>
    rw [hf.code] at code
    cases code
  | other hfree code => exact absurd hf.code code.1
  | full hfree code =>
    refine startDownload { env with now := now } h _ r.h raw [] r.contLen r.body hcount rfl
      hp.allow ?_
    exact ((h.held.spared hcount).full hfree.1 r.body raw _ _ _ r.contLen hf.body
      hf.length).imp id (And.imp id (fun hb => .inr ⟨r.body, .inl hb, rfl⟩))

theorem reply_part {env : Env} {o : Origin env.dates} {s : Session} (h : SessionOk o s)
    {rq : Request} (now : Int) (raw : Nat) (r : Reply) (hrq : s.request = some rq)
    {known : HttpDate} {start : Nat} {first total : Bytes} (hpart : r.Part o rq known start first total)
    (ok : r.h.status.code = 206 → ∀ first total, r.range = some (first, total) →
      s.AcceptsPart first total) :
    SessionOk o (s.reply env now raw r) := by
  have hp := h.pending rq hrq
  obtain ⟨res, hc, hreply⟩ := reply_cases env s now raw r
  rw [hreply]
  have hcount : Spared s.fi { s.fi with
      nIncommingCount := s.fi.nIncommingCount + raw, nTimeDlStarted := now } :=
    Spared.count s.fi _ now
  cases hc with
  | busy hb => exact h.refused _ _ (Spared.count s.fi _ s.fi.nTimeDlStarted) rfl
  | error hfree msg k => exact h.refused _ _ (hcount.trans (Spared.error _ _ k h.keep)) rfl
  | restart hfree code hn =>
    rw [hpart.code] at code
    cases code
  | full hfree code =>
    rw [hpart.code] at code
    cases code
  | other hfree code => exact absurd hpart.code code.2
  | probe hfree code value first' total' range found hprobe =>
    obtain ⟨-, hacc, htotal⟩ := part_total hpart ok range found
    obtain ⟨hvol, hpos, htot, hfst, -⟩ := hprobe
    obtain ⟨rfl, hset⟩ := hp.known known hpart.ifRange
    have hlen : s.fi.nSizeCachedInitial = (o.content s.fi.responseModDate).length :=
      htot.symm.trans (htotal.resolve_right (fun hz => by have := hz.1; omega))
    have hneg : ¬ 0 ≤ s.fi.nSizeChecked := fun h0 => (hacc h0).2 ⟨hvol, hfst.symm, htot⟩
    have hrest : s.fi.AtRest o := by
      rcases h.held with hr | hd | ⟨v, hb | hw⟩
      · exact hr
      · exact absurd hd.pos.le hneg
      · exact absurd hb.nonneg hneg
      · exact absurd hw.nonneg hneg
    have hfin := dlFinish_probed s.fi (s.fi.nIncommingCount + raw) now hfree.1 h.store h.keep hpos
    exact h.probed _ _ r.body _ now hfin hset hpos hlen hrest hfree.1 rfl rfl
  | part hfree code value first' total' range found hno hstart hneg hle =>
    obtain ⟨hfirst, hacc, htotal⟩ := part_total hpart ok range found
    obtain ⟨rfl, hset⟩ := hp.known known hpart.ifRange
    obtain ⟨limit, hasked⟩ := hpart.asked
    obtain ⟨hused, hpos, hfits⟩ := hp.range start limit hasked
    rw [hfirst] at hstart hle
    rw [hpart.body]
    have hseek : (Dl.counted ⟨s.job, s.fi, []⟩ raw).job.nUsedRangeStartPos = start := hused
    have hd := startDownload { env with now := now } h (Dl.counted ⟨s.job, s.fi, []⟩ raw)
      (r.h.setStatus 200 (lit "OK")) raw [] (strtoll total')
      ((o.content s.fi.responseModDate).drop start) hcount rfl hp.allow
    rw [hseek] at hd
    apply hd
    rcases htotal with htotal | ⟨htotal, hstar⟩
    · rw [htotal]
      exact ((h.held.spared hcount).part hfree.1 start raw _ _ _ hset (by omega) hpart.inside
        hfits hle hpart.same).imp id (And.imp id (fun hv => .inr ⟨_, hv, rfl⟩))
    · rw [htotal]
      refine ((h.held.spared hcount).open_total hfree.1 start raw _ _ _ hset (by omega) hpart.inside
        hfits hle ?_).imp id (And.imp id (fun hv => .inl ⟨hv, ?_⟩))
      · exact fun h0 hl => (hacc h0).1 hl hstar
      · have hin := hpart.inside
        exact List.length_pos_iff.mp (by rw [List.length_drop]; omega)

theorem reply {env : Env} {o : Origin env.dates} {s : Session} (h : SessionOk o s) {rq : Request}
    (now : Int) (raw : Nat) (r : Reply) (hrq : s.request = some rq) (honest : r.Honest o rq)
    (ok : r.h.status.code = 206 → ∀ first total, r.range = some (first, total) →
      s.AcceptsPart first total) : SessionOk o (s.reply env now raw r) := by
  cases honest with
  | full hf => exact h.reply_full now raw r hrq hf
  | part known start first total hpart => exact h.reply_part now raw r hrq hpart ok

theorem setup {env : Env} {o : Origin env.dates} (path : Bytes) (disk : Disk)
    (attr : SpecialPurposeAttr) (job : DlJob) (hdisk : DiskOk o disk) (get : attr.bHeadOnly = false)
    (store : attr.bNoStore = false)
    (hjob : job.fiAttr =
      (FileItem.setup { sPathRel := path, disk := disk, spattr := attr }).spattr) :
    SessionOk o
      { fi := (FileItem.setup { sPathRel := path, disk := disk, spattr := attr }).dlRefCountAdd
        job := job } := by
  obtain ⟨hrest, hk⟩ := setup_atRest (o := o) path disk attr hdisk get
  obtain ⟨hho, hns⟩ := setup_attr { sPathRel := path, disk := disk, spattr := attr }
  refine of_held hk (hns.trans store) ?_ rfl (.inl ?_) (fun _ hq => nomatch hq)
  · rw [hjob]
    exact hho.trans get
  · exact ⟨hrest.disk, hrest.status, hrest.fd, hrest.checked, hrest.cached, hrest.must, hrest.known,
      hrest.intact⟩

end SessionOk

/-- Between lifetimes the files are those of one version, and during a lifetime the item
is too. -/
def Moment.Ok {lib : DateLib} (o : Origin lib) : Moment → Prop
  | .idle disk => DiskOk o disk
  | .alive s => SessionOk o s

theorem history_ok (env : Env) (o : Origin env.dates) (m : Moment) (h : History env o true m) :
    m.Ok o := by
  induction h with
  | empty => exact fun _ _ _ hhead => nomatch hhead
  | setup path attr job _ get store new ih =>
    refine SessionOk.setup path _ attr job ih get store ?_
    rcases new with ⟨src, rfl⟩ | ⟨repo, rest, rfl⟩ <;> rfl
  | request backend _ _ ih => exact SessionOk.request ih env.cfg _ rfl
  | reply now raw r _ hrq honest ok ih => exact SessionOk.reply ih now raw r hrq honest (ok rfl)
  | data chunk rest _ hne hrest ih => exact SessionOk.data ih chunk rest hne hrest
  | finish _ hrest ih => exact SessionOk.finish ih hrest
  | lost _ ih => exact SessionOk.lost ih
  | destroy _ ok ih => exact SessionOk.destroy ih (ok rfl)

/-- A complete item holds one version of the file, whatever happened before to its path. -/
theorem resumed_intact (env : Env) (o : Origin env.dates) (s : Session)
    (h : History env o true (.alive s)) : s.fi.Intact o :=
  (history_ok env o (.alive s) h).held.intact

/-- A file that was changed once, and a date library that knows its two dates. -/
def oldDate : Bytes := lit "Sat, 01 Jan 2022 00:00:00 GMT"

def newDate : Bytes := lit "Sun, 02 Jan 2022 00:00:00 GMT"

def datedEnv : Env where
  dates :=
    { parseDate := fun s =>
        if s = oldDate then some 1640995200 else if s = newDate then some 1641081600 else none
      formatNorm := id }

def twoVersions : Origin datedEnv.dates where
  content d :=
    if d.buf = oldDate then lit "aaaaaaaaaa" else if d.buf = newDate then lit "bbbbbbbbbbbb" else []
  fixed := by
    intro a b ha h
    unfold HttpDate.eq at h
    split at h
    · cases h
    · split at h
      · rename_i hb
        rw [eq_of_beq hb]
      · rename_i hset _
        have hb : b.isSet = true := by simpa [ha] using hset
        simp only [HttpDate.value, ha, hb, if_true, datedEnv] at h
        split_ifs at h ⊢ <;> simp_all

/-- A response of that server. -/
def answer (code : Int) (date : Bytes) (range : Option Bytes) (body : Bytes) : Reply where
  h := (Header.set { type := .answer, status := ⟨code, lit "OK"⟩ } .lastModified (some date)).set
    .contentRange range
  contLen := body.length
  body := body

/-- A lifetime of a volatile item at its first request. -/
def lifetime (disk : Disk) : Session :=
  let fi := FileItem.setup { sPathRel := lit "m/a", disk := disk, spattr := { bVolatile := true } }
  let r := DlJob.appendRequest datedEnv.cfg
    { (DlJob.new datedEnv.cfg fi {}).resetStreamState with pCurBackend := none } fi.dlRefCountAdd
  { fi := fi.dlRefCountAdd, job := r.2, request := some r.1 }

/-- The answer 200 is cut off after some bytes. -/
def interrupted (disk : Disk) (date body : Bytes) (n : Nat) : Session :=
  { ((lifetime disk).reply datedEnv 0 0 (answer 200 date none body)).data
      (body.take n) (body.drop n) with request := none, rest := none }

/-- The rest of the file comes with an answer 206. -/
def completed (disk : Disk) (date range body : Bytes) : Session :=
  (((lifetime disk).reply datedEnv 0 0 (answer 206 date (some range) body)).data body []).finish

def diskAfter (s : Session) : Disk := (PipeJob.release ⟨s.job, s.fi⟩).fi.destroy

theorem lifetime_history (strict : Bool) (disk : Disk)
    (h : History datedEnv twoVersions strict (.idle disk)) :
    History datedEnv twoVersions strict (.alive (lifetime disk)) :=
  .request none (.setup (lit "m/a") { bVolatile := true } _ h rfl rfl (.inl ⟨{}, rfl⟩)) rfl

theorem interrupted_history (strict : Bool) (disk : Disk) (date body : Bytes) (n : Nat)
    (h : History datedEnv twoVersions strict (.idle disk)) (hne : body.take n ≠ [])
    (hbody : body = twoVersions.content ((answer 200 date none body).date datedEnv.dates))
    (hrest : ((lifetime disk).reply datedEnv 0 0 (answer 200 date none body)).rest =
      some (body.take n ++ body.drop n)) :
    History datedEnv twoVersions strict (.alive (interrupted disk date body n)) :=
  .lost (.data _ _ (.reply 0 0 _ (lifetime_history strict disk h) rfl
    (.full ⟨rfl, fun _ => hbody, .inr rfl⟩) (fun _ hc => nomatch hc)) hne hrest)

theorem completed_history (strict : Bool) (disk : Disk) (date range body : Bytes) (known : HttpDate)
    (start : Nat) (first total : Bytes) (h : History datedEnv twoVersions strict (.idle disk))
    (hne : body ≠ [])
    (hpart : ∀ rq, (lifetime disk).request = some rq →
      (answer 206 date (some range) body).Part twoVersions rq known start first total)
    (hcold : (lifetime disk).fi.nSizeChecked < 0)
    (hrest : ((lifetime disk).reply datedEnv 0 0 (answer 206 date (some range) body)).rest =
      some (body ++ []))
    (hrest' : (((lifetime disk).reply datedEnv 0 0 (answer 206 date (some range) body)).data
      body []).rest = some []) :
    History datedEnv twoVersions strict (.alive (completed disk date range body)) :=
  .finish (.data _ _ (.reply 0 0 _ (lifetime_history strict disk h) rfl
    (.part known start first total (hpart _ rfl))
    (fun _ _ _ _ _ h0 => absurd hcold (not_lt.mpr h0))) hne hrest) hrest'

/-- Four bytes are kept and six are added. -/
theorem resumed_intact_ten :
    (completed (diskAfter (interrupted {} oldDate (lit "aaaaaaaaaa") 4)) oldDate
        (lit "bytes 4-9/10") (lit "aaaaaa")).fi.status = .complete ∧
      (completed (diskAfter (interrupted {} oldDate (lit "aaaaaaaaaa") 4)) oldDate
        (lit "bytes 4-9/10") (lit "aaaaaa")).fi.Intact twoVersions := by
  refine ⟨by decide +kernel, ?_⟩
  refine resumed_intact datedEnv twoVersions _ (completed_history true _ oldDate _ _ ⟨oldDate⟩ 4
    (lit "4-9/10") (lit "10") ?_ (by decide) ?_ (by decide +kernel) (by decide +kernel)
    (by decide +kernel))
  · exact .destroy (interrupted_history true {} oldDate _ 4 .empty (by decide) (by decide +kernel)
      (by decide +kernel)) (fun _ _ => by decide +kernel)
  · intro rq hrq
    obtain rfl := Option.some.inj hrq
    exact ⟨rfl, by decide +kernel, fun _ => by decide +kernel, ⟨none, by decide +kernel⟩,
      by decide +kernel, by decide +kernel, .inl (by decide +kernel), by decide +kernel,
      by decide +kernel⟩

/-- The new version is written over the old one and cut off after five bytes. What is left
of the old one is taken for a part of the new one. -/
theorem old_bytes_survive :
    ∃ s, History datedEnv twoVersions false (.alive s) ∧ s.fi.status = .complete ∧
      s.fi.responseStatus.code = 200 ∧ s.fi.responseModDate = ⟨newDate⟩ ∧
      s.fi.disk.file = some (lit "bbbbbaaaaabb") ∧ s.fi.nContentLength = 12 ∧
      twoVersions.content s.fi.responseModDate = lit "bbbbbbbbbbbb" ∧ ¬ s.fi.Intact twoVersions := by
  have hold : History datedEnv twoVersions false
      (.idle (diskAfter (interrupted {} oldDate (lit "aaaaaaaaaa") 10))) :=
    .destroy (interrupted_history false {} oldDate _ 10 .empty (by decide) (by decide +kernel)
      (by decide +kernel)) (fun h => nomatch h)
  have hmixed := History.destroy (interrupted_history false _ newDate (lit "bbbbbbbbbbbb") 5 hold
    (by decide) (by decide +kernel) (by decide +kernel)) (fun h => nomatch h)
  refine ⟨_, completed_history false _ newDate (lit "bytes 10-11/12") (lit "bb") ⟨newDate⟩ 10
    (lit "10-11/12") (lit "12") hmixed (by decide) ?_ (by decide +kernel) (by decide +kernel)
    (by decide +kernel), by decide +kernel, by decide +kernel, by decide +kernel, by decide +kernel,
    by decide +kernel, by decide +kernel, ?_⟩
  · intro rq hrq
    obtain rfl := Option.some.inj hrq
    exact ⟨rfl, by decide +kernel, fun _ => by decide +kernel, ⟨none, by decide +kernel⟩,
      by decide +kernel, by decide +kernel, .inl (by decide +kernel), by decide +kernel,
      by decide +kernel⟩
  · intro hi
    exact absurd (hi (by decide +kernel) (by decide +kernel) (by decide +kernel)).2
      (by decide +kernel)

end Acng
