import Acng.Lifetime
import Acng.Proofs.DestroyMode
import Acng.Proofs.Storage

namespace Acng
open Lib

section
variable {lib : DateLib} (o : Origin lib)

/-- The file is a part of what its head file tells, as far as that has any bytes. -/
def DiskOk (disk : Disk) : Prop :=
  ∀ len date origSrc, disk.head = some (.fields len (some date) origSrc) → date.isSet = true →
    (disk.file.getD [] <+: o.content date ∨ o.content date = []) ∧
      ∀ n, len = some n → n = (o.content date).length

namespace FileItem

/-- No response was accepted in this lifetime, the files were found complete, or nothing
more is going to happen. -/
structure AtRest (fi : FileItem) : Prop where
  disk : DiskOk o fi.disk
  status : fi.status = .inited ∨ .complete ≤ fi.status
  fd : fi.status = .inited → fi.filefd = none
  checked : fi.status = .inited → fi.nSizeChecked < 0
  cached : fi.status = .inited →
    fi.nSizeCachedInitial = fileSize fi.disk ∨ fi.nSizeCachedInitial = -1
  must : fi.bWriterMustReplaceFile = true → fi.nSizeCachedInitial = -1
  known : fi.responseModDate.isSet = true →
    fi.disk.file.getD [] <+: o.content fi.responseModDate ∨ o.content fi.responseModDate = []
  intact : fi.Intact o

/-- A version of the file is being fetched. -/
structure Fetching (v : Bytes) (fi : FileItem) : Prop where
  status : .dlGotHead ≤ fi.status
  nonneg : 0 ≤ fi.nSizeChecked
  le : fi.nSizeChecked ≤ v.length
  version : fi.responseModDate.isSet = true → v = o.content fi.responseModDate
  done : fi.status = .complete → fi.nSizeChecked = v.length ∧ fi.nContentLength = v.length

/-- Its head was accepted, and the files are those of the last lifetime. -/
structure Begun (v : Bytes) (fi : FileItem) : Prop extends Fetching o v fi where
  disk : DiskOk o fi.disk
  fd : fi.filefd = none
  length : fi.nContentLength = -1 ∨ fi.nContentLength = v.length
  kept : fi.nSizeChecked = 0 ∨ (fi.bWriterMustReplaceFile = false ∧ fi.nContentLength = v.length ∧
    fi.disk.file = some (v.take fi.nSizeChecked.toNat))

/-- Its data is written over the old file, which ends before it or is gone. -/
structure Writing (v : Bytes) (fi : FileItem) : Prop extends Fetching o v fi where
  fd : fi.filefd = some fi.nSizeChecked.toNat
  pos : 0 < fi.nSizeChecked
  file : ∃ f, fi.disk.file = some f ∧
    f.take fi.nSizeChecked.toNat = v.take fi.nSizeChecked.toNat ∧
    fi.nSizeChecked ≤ f.length ∧
    ((fi.nContentLength = -1 ∧ (f.length : Int) = fi.nSizeChecked) ∨
      (fi.nContentLength = v.length ∧ f.length ≤ v.length))
  head : ∃ len date origSrc, fi.disk.head = some (.fields len date origSrc) ∧
    (∀ d, date = some d → d.isSet = true → o.content d = v) ∧ ∀ n, len = some n → n = v.length

/-- A partial response without a total was accepted: the length is taken as zero, and the
first data will find the file too long. -/
structure Doomed (fi : FileItem) : Prop where
  disk : DiskOk o fi.disk
  fd : fi.filefd = none
  status : .dlGotHead ≤ fi.status
  never : fi.status ≠ .complete
  length : fi.nContentLength = 0
  pos : 0 < fi.nSizeChecked
  must : fi.bWriterMustReplaceFile = false
  file : ∃ f, fi.disk.file = some f ∧ f ≠ []

end FileItem

end

namespace FileItem
variable {lib : DateLib} {o : Origin lib}

/-- Only statistics and the status change, and no item becomes complete that way. -/
structure Spared (fi fi' : FileItem) : Prop where
  data : fi' = { fi with
    nIncommingCount := fi'.nIncommingCount, status := fi'.status
    responseStatus := fi'.responseStatus, nTimeDlStarted := fi'.nTimeDlStarted }
  complete : fi'.status = .complete → fi.status = .complete ∧ fi'.responseStatus = fi.responseStatus
  floor : .dlGotHead ≤ fi.status → .dlGotHead ≤ fi'.status
  rest : fi.status = .inited ∨ .complete ≤ fi.status →
    (fi'.status = .inited ∧ fi.status = .inited) ∨ .complete ≤ fi'.status

theorem Spared.intact {fi fi' : FileItem} (h : Spared fi fi') (hi : fi.Intact o) : fi'.Intact o := by
  intro hst hcode hset
  obtain ⟨hst', hresp⟩ := h.complete hst
  rw [hresp] at hcode
  rw [h.data] at hset ⊢
  exact hi hst' hcode hset

theorem AtRest.spared {fi fi' : FileItem} (h : Spared fi fi') (hr : AtRest o fi) : AtRest o fi' := by
  have hi := h.intact hr.intact
  have hst := h.rest hr.status
  have hd := h.data
  have hin : fi'.status = .inited → fi.status = .inited := by
    intro he
    rcases hst with ⟨-, hi⟩ | hc
    · exact hi
    · exact absurd (he ▸ hc) (by decide)
  refine ⟨?_, hst.imp And.left id, ?_, ?_, ?_, ?_, ?_, hi⟩
  · rw [hd]
    exact hr.disk
  · intro he
    rw [hd]
    exact hr.fd (hin he)
  · intro he
    rw [hd]
    exact hr.checked (hin he)
  · intro he
    rw [hd]
    exact hr.cached (hin he)
  · rw [hd]
    exact hr.must
  · rw [hd]
    exact hr.known

theorem Doomed.spared {fi fi' : FileItem} (h : Spared fi fi') (hd : Doomed o fi) : Doomed o fi' := by
  have hdata := h.data
  refine ⟨?_, ?_, h.floor hd.status, fun hc => hd.never (h.complete hc).1, ?_, ?_, ?_, ?_⟩
  · rw [hdata]
    exact hd.disk
  · rw [hdata]
    exact hd.fd
  · rw [hdata]
    exact hd.length
  · rw [hdata]
    exact hd.pos
  · rw [hdata]
    exact hd.must
  · rw [hdata]
    exact hd.file

theorem Fetching.spared {fi fi' : FileItem} {v : Bytes} (h : Spared fi fi') (hf : Fetching o v fi) :
    Fetching o v fi' := by
  have hd := h.data
  refine ⟨h.floor hf.status, ?_, ?_, ?_, ?_⟩
  · rw [hd]
    exact hf.nonneg
  · rw [hd]
    exact hf.le
  · rw [hd]
    exact hf.version
  · intro hst
    have := hf.done (h.complete hst).1
    rw [hd]
    exact this

theorem Begun.spared {fi fi' : FileItem} {v : Bytes} (h : Spared fi fi') (hb : Begun o v fi) :
    Begun o v fi' := by
  have hd := h.data
  refine ⟨hb.toFetching.spared h, ?_, ?_, ?_, ?_⟩
  · rw [hd]
    exact hb.disk
  · rw [hd]
    exact hb.fd
  · rw [hd]
    exact hb.length
  · rw [hd]
    exact hb.kept

theorem Writing.spared {fi fi' : FileItem} {v : Bytes} (h : Spared fi fi') (hw : Writing o v fi) :
    Writing o v fi' := by
  have hd := h.data
  refine ⟨hw.toFetching.spared h, ?_, ?_, ?_, ?_⟩
  · rw [hd]
    exact hw.fd
  · rw [hd]
    exact hw.pos
  · rw [hd]
    exact hw.file
  · rw [hd]
    exact hw.head

theorem Begun.intact {fi : FileItem} {v : Bytes} (h : Begun o v fi) : fi.Intact o := by
  intro hst _ hset
  obtain ⟨hchk, hlen⟩ := h.done hst
  refine ⟨by omega, ?_⟩
  rw [← h.version hset, hlen, Int.toNat_natCast]
  rcases h.kept with h0 | ⟨-, -, hfile⟩
  · have hv : v.length = 0 := by omega
    rw [hv, List.take_zero]
    exact (List.length_eq_zero_iff.mp hv).symm
  · rw [hfile, hchk, Int.toNat_natCast, List.take_length, Option.getD_some, List.take_length]

theorem Writing.intact {fi : FileItem} {v : Bytes} (h : Writing o v fi) : fi.Intact o := by
  intro hst _ hset
  obtain ⟨hchk, hlen⟩ := h.done hst
  obtain ⟨f, hf, htake, -, -⟩ := h.file
  refine ⟨by omega, ?_⟩
  rw [← h.version hset, hlen, hf, Option.getD_some]
  rw [hchk] at htake
  rw [htake, Int.toNat_natCast, List.take_length]

/-- What `Setup` reads from the head file. -/
theorem parseHeadFromStorage_ok (fi fi' : FileItem) (h : fi.parseHeadFromStorage = (true, fi'))
    (hdisk : DiskOk o fi.disk) (hdate : fi.responseModDate = {}) (hlen : fi.nContentLength = -1) :
    (fi'.responseModDate.isSet = true →
      (fi.disk.file.getD [] <+: o.content fi'.responseModDate ∨ o.content fi'.responseModDate = []) ∧
        (0 ≤ fi'.nContentLength → fi'.nContentLength = (o.content fi'.responseModDate).length)) ∧
      fi' = { fi with
        nContentLength := fi'.nContentLength, responseModDate := fi'.responseModDate
        responseOrigin := fi'.responseOrigin } := by
  unfold parseHeadFromStorage at h
  cases hh : fi.disk.head with
  | none =>
    simp only [hh, Prod.mk.injEq, true_and] at h
    subst h
    exact ⟨fun hset => by simp [hdate, HttpDate.isSet] at hset, rfl⟩
  | some head =>
    cases head with
    | garbled => simp [hh] at h
    | fields len date origSrc =>
      simp only [hh, Prod.mk.injEq, true_and] at h
      subst h
      refine ⟨fun hset => ?_, rfl⟩
      cases date with
      | none => simp [hdate, HttpDate.isSet] at hset
      | some date =>
        obtain ⟨hpre, hl⟩ := hdisk len date origSrc hh hset
        refine ⟨hpre, fun h0 => ?_⟩
        cases len with
        | none =>
          simp only [hlen, Option.getD_none] at h0
          omega
        | some n => exact hl n rfl

theorem AtRest.of_inited (fi : FileItem) (hdisk : DiskOk o fi.disk) (hfd : fi.filefd = none)
    (hst : fi.status = .inited) (hchk : fi.nSizeChecked = -1)
    (hcached : fi.nSizeCachedInitial = fileSize fi.disk ∧ fi.bWriterMustReplaceFile = false ∨
      fi.nSizeCachedInitial = -1)
    (hknown : fi.responseModDate.isSet = true →
      fi.disk.file.getD [] <+: o.content fi.responseModDate ∨ o.content fi.responseModDate = []) :
    AtRest o fi := by
  refine ⟨hdisk, .inl hst, fun _ => hfd, fun _ => by omega, fun _ => hcached.imp And.left id, ?_,
    hknown, ?_⟩
  · intro hm
    rcases hcached with ⟨-, hf⟩ | hc
    · rw [hm] at hf
      cases hf
    · exact hc
  · intro hc
    rw [hst] at hc
    cases hc

/-- A file as long as the content that it is a part of has all of it. -/
theorem full_file {disk : Disk} {content : Bytes} (hsize : fileSize disk = content.length)
    (hpre : disk.file.getD [] <+: content ∨ content = []) :
    (disk.file.getD []).take content.length = content := by
  obtain hpre | rfl := hpre
  · have hfile : ((disk.file.getD []).length : Int) = content.length := by
      rw [← hsize]
      cases hd : disk.file with
      | none =>
        simp only [fileSize, hd] at hsize
        omega
      | some f => simp [fileSize, hd]
    have hlen : (disk.file.getD []).length = content.length := by omega
    rw [← hlen, List.take_length]
    exact hpre.eq_of_length hlen
  · rfl

theorem setup_atRest (path : Bytes) (disk : Disk) (attr : SpecialPurposeAttr) (hdisk : DiskOk o disk)
    (get : attr.bHeadOnly = false) :
    AtRest o (setup { sPathRel := path, disk := disk, spattr := attr }) ∧
      (setup { sPathRel := path, disk := disk, spattr := attr }).eDestroy = .keep := by
  have hfresh : ¬ FiStatus.fresh > FiStatus.fresh := lt_irrefl _
  unfold setup
  simp only [hfresh, if_false]
  cases hp : parseHeadFromStorage
      { sPathRel := path, disk := disk, spattr := attr, status := .inited
        nSizeCachedInitial := fileSize disk, nSizeChecked := -1 } with
  | mk ok fi' =>
    cases ok with
    | false =>
      have hfi : fi' = { sPathRel := path, disk := disk, spattr := attr, status := .inited
                         nSizeCachedInitial := fileSize disk, nSizeChecked := -1 } := by
        unfold parseHeadFromStorage at hp
        cases hh : disk.head with
        | none => simp [hh] at hp
        | some head =>
          cases head with
          | garbled =>
            simp only [hh, Prod.mk.injEq, true_and] at hp
            exact hp.symm
          | fields len date origSrc => simp [hh] at hp
      subst hfi
      simp only [errorClean]
      exact ⟨AtRest.of_inited _ hdisk rfl rfl rfl (.inr rfl) (fun hset => by cases hset), trivial⟩
    | true =>
      obtain ⟨hknown, hfi⟩ := parseHeadFromStorage_ok _ fi' hp hdisk rfl rfl
      generalize fi'.nContentLength = len at hknown hfi
      generalize fi'.responseModDate = date at hknown hfi
      generalize fi'.responseOrigin = origin at hfi
      subst hfi
      have hpre := fun hset => (hknown hset).1
      simp only [isVolatile, get, Bool.false_eq_true, if_false]
      split
      · exact ⟨AtRest.of_inited _ hdisk rfl rfl rfl (.inl ⟨rfl, rfl⟩) hpre, rfl⟩
      · split
        · split
          · exact ⟨AtRest.of_inited _ hdisk rfl rfl rfl (.inr rfl) hpre, rfl⟩
          · split
            · rename_i hl0 _ heq
              refine ⟨⟨hdisk, .inr (le_refl _), (fun h => by cases h), (fun h => by cases h),
                (fun h => by cases h), (fun h => by cases h), hpre, ?_⟩, rfl⟩
              -- a file as long as its head tells
              intro _ _ hset
              obtain ⟨hp, hl⟩ := hknown hset
              have hlen := hl hl0
              simp only at heq ⊢
              refine ⟨hl0, ?_⟩
              rw [hlen, Int.toNat_natCast]
              exact full_file (heq.trans hlen) hp
            · exact ⟨AtRest.of_inited _ hdisk rfl rfl rfl (.inl ⟨rfl, rfl⟩) hpre, rfl⟩
        · exact ⟨AtRest.of_inited _ hdisk rfl rfl rfl (.inl ⟨rfl, rfl⟩) hpre, rfl⟩

theorem Spared.trans {a b c : FileItem} (h : Spared a b) (g : Spared b c) : Spared a c := by
  refine ⟨?_, ?_, g.floor ∘ h.floor, ?_⟩
  · rw [g.data, h.data]
  · intro hc
    obtain ⟨hb, hr⟩ := g.complete hc
    obtain ⟨ha, hr'⟩ := h.complete hb
    exact ⟨ha, hr.trans hr'⟩
  · intro ha
    rcases h.rest ha with ⟨hb, hi⟩ | hb
    · rcases g.rest (.inl hb) with ⟨hc, -⟩ | hc
      · exact .inl ⟨hc, hi⟩
      · exact .inr hc
    · rcases g.rest (.inr hb) with ⟨-, hi⟩ | hc
      · exact absurd (hi ▸ hb) (by decide)
      · exact .inr hc

/-- Statistics. -/
theorem Spared.count (fi : FileItem) (n : Nat) (t : Int) :
    Spared fi { fi with nIncommingCount := n, nTimeDlStarted := t } := by
  refine ⟨rfl, fun h => ⟨h, rfl⟩, id, ?_⟩
  rintro (h | h)
  · exact .inl ⟨h, h⟩
  · exact .inr h

theorem Spared.error (fi : FileItem) (errState : RemoteStatus) (kmode : EDestroyMode)
    (hk : fi.eDestroy = .keep) : Spared fi (fi.dlSetError errState kmode) := by
  have hmode : (fi.dlSetError errState kmode).eDestroy = fi.eDestroy := by
    rw [ErrorCall.dlSetError_mode, hk, min_eq_right (ErrorCall.keep_le kmode)]
  refine ⟨?_, (fun h => nomatch h), fun _ => ?_, fun _ => .inr ?_⟩
  · conv_rhs => rw [← hmode]
    rfl
  · change FiStatus.dlGotHead ≤ .dlError
    decide
  · change FiStatus.complete ≤ .dlError
    decide

/-- What `DlStarted` records when it knows where the data starts. -/
def startedAt (fi : FileItem) (raw : Nat) (modDate : HttpDate) (origin : Bytes) (status : RemoteStatus)
    (seek announced : Int) : FileItem :=
  { fi with
    nIncommingCount := fi.nIncommingCount + raw, status := .dlGotHead, nSizeChecked := seek
    responseStatus := status, responseOrigin := origin, responseModDate := modDate
    nContentLength := announced }

/-- A download begins. -/
theorem dlStarted_cold (fi : FileItem) (raw : Nat) (modDate : HttpDate) (origin : Bytes)
    (status : RemoteStatus) (seek announced : Int) (hst : fi.status ≤ .dlPending)
    (hchk : fi.nSizeChecked < 0) (hseek : 0 ≤ seek) :
    fi.dlStarted lib raw modDate origin status seek announced =
      (true, fi.startedAt raw modDate origin status seek announced) := by
  rw [dlStarted_free lib fi raw modDate origin status seek announced hst hchk.le]
  simp only [started, startedAt, hseek, if_true]

/-- A download goes on where it was, or not at all. -/
theorem dlStarted_hot (fi : FileItem) (raw : Nat) (modDate : HttpDate) (origin : Bytes)
    (status : RemoteStatus) (seek announced : Int) (hst : .dlGotHead ≤ fi.status)
    (hlt : fi.status < .complete) (hchk : 0 ≤ fi.nSizeChecked) (hseek : 0 ≤ seek) :
    (∃ fi', fi.dlStarted lib raw modDate origin status seek announced = (false, fi') ∧
      Spared fi fi') ∨
    (fi.dlStarted lib raw modDate origin status seek announced =
        (true, fi.startedAt raw modDate origin status seek announced) ∧
      seek = fi.nSizeChecked ∧ fi.responseModDate.eq lib modDate = true) := by
  have hni : ¬ (fi.status = .inited ∨ .complete ≤ fi.status) := by
    rintro (h | h)
    · exact absurd (h ▸ hst) (by decide)
    · exact absurd hlt (not_lt.mpr h)
  unfold dlStarted
  simp only [hst, decide_true, Bool.true_and, if_true]
  split
  · exact .inl ⟨_, rfl, Spared.count fi _ fi.nTimeDlStarted⟩
  · rename_i h1
    simp only [Bool.or_eq_true, not_or, Bool.not_eq_true', Bool.not_eq_false,
      decide_eq_true_eq] at h1
    simp only [hseek, hchk, decide_true, Bool.true_and, decide_eq_true_eq]
    split
    · exact .inl ⟨_, rfl, rfl, (fun h => nomatch h), fun _ => le_refl _, fun h => absurd h hni⟩
    · refine .inr ⟨rfl, ?_, ?_⟩
      · omega
      · simpa using h1.1.2

theorem Fetching.restart {fi : FileItem} {v : Bytes} (h : Fetching o v fi) (fi' : FileItem)
    (hst : fi'.status = .dlGotHead) (hchk : fi'.nSizeChecked = fi.nSizeChecked)
    (heq : fi.responseModDate.eq lib fi'.responseModDate = true) : Fetching o v fi' := by
  refine ⟨by rw [hst], by rw [hchk]; exact h.nonneg, by rw [hchk]; exact h.le, ?_, ?_⟩
  · intro hset
    have hold : fi.responseModDate.isSet = true := by
      unfold HttpDate.eq at heq
      split at heq
      · cases heq
      · rename_i hne
        simpa [hset] using hne
    rw [h.version hold]
    exact o.fixed _ _ hold heq
  · intro hc
    rw [hst] at hc
    cases hc

theorem AtRest.inited {fi : FileItem} (h : AtRest o fi) (hlt : fi.status < .complete) :
    fi.status = .inited := by
  rcases h.status with hs | hs
  · exact hs
  · exact absurd hlt (not_lt.mpr hs)

/-- An item that can still take a head takes it as the first one. -/
theorem AtRest.cold {fi : FileItem} (h : AtRest o fi) (hlt : fi.status < .complete) :
    fi.status ≤ .dlPending ∧ fi.nSizeChecked < 0 := by
  have hst := h.inited hlt
  refine ⟨?_, h.checked hst⟩
  rw [hst]
  decide

theorem Fetching.start (fi : FileItem) (v : Bytes) (raw : Nat) (modDate : HttpDate) (origin : Bytes)
    (status : RemoteStatus) (seek announced : Int) (h0 : 0 ≤ seek) (hle : seek ≤ v.length)
    (hv : modDate.isSet = true → v = o.content modDate) :
    Fetching o v (fi.startedAt raw modDate origin status seek announced) :=
  ⟨le_refl _, h0, hle, hv, fun h => nomatch h⟩

/-- The whole file is sent. -/
theorem AtRest.full {fi : FileItem} (h : AtRest o fi) (hlt : fi.status < .complete) (v : Bytes)
    (raw : Nat) (modDate : HttpDate) (origin : Bytes) (status : RemoteStatus) (announced : Int)
    (hv : modDate.isSet = true → v = o.content modDate)
    (hlen : announced = -1 ∨ announced = v.length) :
    fi.dlStarted lib raw modDate origin status 0 announced =
        (true, fi.startedAt raw modDate origin status 0 announced) ∧
      Begun o v (fi.startedAt raw modDate origin status 0 announced) := by
  obtain ⟨hst, hchk⟩ := h.cold hlt
  refine ⟨dlStarted_cold fi raw modDate origin status 0 announced hst hchk (le_refl _), ?_⟩
  exact ⟨Fetching.start fi v raw modDate origin status 0 announced (le_refl _) (by omega) hv,
    h.disk, h.fd (h.inited hlt), hlen, .inl rfl⟩

theorem file_of_size {d : Disk} (h : 0 < fileSize d) :
    ∃ f, d.file = some f ∧ (f.length : Int) = fileSize d := by
  unfold fileSize at h ⊢
  cases hf : d.file with
  | none =>
    rw [hf] at h
    exact absurd h (by decide)
  | some f => exact ⟨f, rfl, rfl⟩

/-- The range that was asked for starts at the end of the file. -/
theorem AtRest.resumes {fi : FileItem} (h : AtRest o fi) (hlt : fi.status < .complete) (start : Nat)
    (hpos : 0 < start)
    (hstart : (start : Int) = fi.nSizeCachedInitial ∨ (start : Int) = fi.nSizeCachedInitial - 1)
    (hle : fi.nSizeCachedInitial ≤ start) :
    fi.bWriterMustReplaceFile = false ∧ ∃ f, fi.disk.file = some f ∧ f.length = start := by
  constructor
  · cases hm : fi.bWriterMustReplaceFile with
    | false => rfl
    | true =>
      have := h.must hm
      omega
  · have hsize : fileSize fi.disk = start := by
      rcases h.cached (h.inited hlt) with hc | hc <;> omega
    obtain ⟨f, hf, hlen⟩ := file_of_size (d := fi.disk) (by omega)
    exact ⟨f, hf, by omega⟩

/-- The rest of the file is sent, and the file that is there is the part before it. -/
theorem AtRest.part {fi : FileItem} (h : AtRest o fi) (hlt : fi.status < .complete) (start raw : Nat)
    (modDate : HttpDate) (origin : Bytes) (status : RemoteStatus)
    (hset : fi.responseModDate.isSet = true) (hpos : 0 < start)
    (hin : start < (o.content fi.responseModDate).length)
    (hstart : (start : Int) = fi.nSizeCachedInitial ∨ (start : Int) = fi.nSizeCachedInitial - 1)
    (hle : fi.nSizeCachedInitial ≤ start)
    (hsame : modDate.isSet = true → fi.responseModDate.eq lib modDate = true) :
    fi.dlStarted lib raw modDate origin status start (o.content fi.responseModDate).length =
        (true, fi.startedAt raw modDate origin status start (o.content fi.responseModDate).length) ∧
      Begun o (o.content fi.responseModDate)
        (fi.startedAt raw modDate origin status start (o.content fi.responseModDate).length) := by
  obtain ⟨hst, hchk⟩ := h.cold hlt
  obtain ⟨hmust, f, hf, hfl⟩ := h.resumes hlt start hpos hstart hle
  refine ⟨dlStarted_cold fi raw modDate origin status start _ hst hchk (by omega), ?_⟩
  have hver : modDate.isSet = true → o.content fi.responseModDate = o.content modDate :=
    fun hm => o.fixed _ _ hset (hsame hm)
  refine ⟨Fetching.start fi _ raw modDate origin status start _ (by omega) (by omega) hver,
    h.disk, h.fd (h.inited hlt), .inr rfl, .inr ⟨hmust, rfl, ?_⟩⟩
  change fi.disk.file = some ((o.content fi.responseModDate).take (start : Int).toNat)
  rw [Int.toNat_natCast, hf]
  rcases h.known hset with hp | hnil
  · rw [hf, Option.getD_some] at hp
    rw [← hfl, ← List.prefix_iff_eq_take.mp hp]
  · rw [hnil, List.length_nil] at hin
    omega

theorem AtRest.open_total {fi : FileItem} (h : AtRest o fi) (hlt : fi.status < .complete)
    (start raw : Nat) (modDate : HttpDate) (origin : Bytes) (status : RemoteStatus) (hpos : 0 < start)
    (hstart : (start : Int) = fi.nSizeCachedInitial ∨ (start : Int) = fi.nSizeCachedInitial - 1)
    (hle : fi.nSizeCachedInitial ≤ start) :
    fi.dlStarted lib raw modDate origin status start 0 =
        (true, fi.startedAt raw modDate origin status start 0) ∧
      Doomed o (fi.startedAt raw modDate origin status start 0) := by
  obtain ⟨hst, hchk⟩ := h.cold hlt
  obtain ⟨hmust, f, hf, hfl⟩ := h.resumes hlt start hpos hstart hle
  refine ⟨dlStarted_cold fi raw modDate origin status start 0 hst hchk (by omega), ?_⟩
  refine ⟨h.disk, h.fd (h.inited hlt), le_refl _, (fun hc => nomatch hc), rfl, ?_, hmust, f, hf,
    List.length_pos_iff.mp (by omega)⟩
  change 0 < (start : Int)
  omega

/-- The file that a probe answer confirms is the whole content. -/
theorem AtRest.confirmed {fi : FileItem} (h : AtRest o fi) (hlt : fi.status < .complete)
    (hset : fi.responseModDate.isSet = true)
    (hpos : 0 < fi.nSizeCachedInitial)
    (hlen : fi.nSizeCachedInitial = (o.content fi.responseModDate).length) :
    fi.disk.file = some (o.content fi.responseModDate) := by
  have hsize : fileSize fi.disk = (o.content fi.responseModDate).length := by
    rcases h.cached (h.inited hlt) with hc | hc <;> omega
  obtain ⟨f, hf, hfile⟩ := file_of_size (d := fi.disk) (by omega)
  rcases h.known hset with hp | hnil
  · rw [hf, Option.getD_some] at hp
    rw [hf, hp.eq_of_length (by omega)]
  · rw [hnil, List.length_nil] at hlen
    omega

/-- What a probe answer makes of an item. -/
def probed (fi : FileItem) (count : Nat) (time : Int) : FileItem :=
  { fi with
    nIncommingCount := count, nTimeDlStarted := time, nSizeChecked := fi.nSizeCachedInitial
    nContentLength := fi.nSizeCachedInitial, status := .complete
    disk := { fi.disk with head := some (.fields (some fi.nSizeCachedInitial)
      ((some fi.responseModDate).filter HttpDate.isSet)
      (if fi.responseOrigin.isEmpty then none else some fi.responseOrigin)) } }

theorem dlFinish_probed (fi : FileItem) (count : Nat) (time : Int) (hlt : fi.status < .complete)
    (hns : fi.spattr.bNoStore = false) (hk : fi.eDestroy = .keep)
    (hpos : 0 < fi.nSizeCachedInitial) :
    dlFinish { fi with
      nIncommingCount := count, nTimeDlStarted := time, nSizeChecked := fi.nSizeCachedInitial
      nContentLength := fi.nSizeCachedInitial } true = fi.probed count time := by
  have h1 : ¬ FiStatus.complete < fi.status := not_lt.mpr hlt.le
  have h2 : ¬ fi.nSizeCachedInitial < 0 := by omega
  have h3 : 0 ≤ fi.nSizeCachedInitial := hpos.le
  unfold dlFinish probed
  simp only [hns, h1, h2, h3, hk, fixLength, saveHeader, storeHead, Bool.false_eq_true, if_false,
    if_true, Bool.or_true]

theorem AtRest.probed {fi : FileItem} (h : AtRest o fi) (hlt : fi.status < .complete)
    (hset : fi.responseModDate.isSet = true) (hpos : 0 < fi.nSizeCachedInitial)
    (hlen : fi.nSizeCachedInitial = (o.content fi.responseModDate).length) (count : Nat)
    (time : Int) : AtRest o (fi.probed count time) := by
  have hfile := h.confirmed hlt hset hpos hlen
  refine ⟨?_, .inr (le_refl _), (fun he => nomatch he), (fun he => nomatch he),
    (fun he => nomatch he), h.must, h.known, ?_⟩
  · intro len date origSrc hhead hd
    simp only [FileItem.probed, Option.some.injEq, HeadFile.fields.injEq] at hhead
    obtain ⟨hl, hdate, -⟩ := hhead
    rw [Option.filter_eq_some_iff, Option.some.injEq] at hdate
    obtain rfl := hdate.1
    refine ⟨h.known hset, fun m hm => ?_⟩
    rw [hm] at hl
    rw [← Option.some.inj hl, hlen]
  · intro _ _ _
    refine ⟨hpos.le, ?_⟩
    simp only [FileItem.probed, hfile, hlen, Option.getD_some, Int.toNat_natCast, List.take_length]

/-- A second head for a download that has no data yet. -/
theorem Begun.full {fi : FileItem} {v₀ : Bytes} (h : Begun o v₀ fi) (hlt : fi.status < .complete)
    (v : Bytes) (raw : Nat) (modDate : HttpDate) (origin : Bytes) (status : RemoteStatus)
    (announced : Int) (hv : modDate.isSet = true → v = o.content modDate)
    (hlen : announced = -1 ∨ announced = v.length) :
    (∃ fi', fi.dlStarted lib raw modDate origin status 0 announced = (false, fi') ∧
      Spared fi fi') ∨
    (fi.dlStarted lib raw modDate origin status 0 announced =
        (true, fi.startedAt raw modDate origin status 0 announced) ∧
      Begun o v (fi.startedAt raw modDate origin status 0 announced)) := by
  rcases dlStarted_hot fi raw modDate origin status 0 announced h.status hlt h.nonneg (le_refl _)
    with hno | ⟨hyes, -, -⟩
  · exact .inl hno
  · refine .inr ⟨hyes, ?_, h.disk, h.fd, hlen, .inl rfl⟩
    exact Fetching.start fi v raw modDate origin status 0 announced (le_refl _) (by omega) hv

/-- Data that was received is never received a second time from the start. -/
theorem Writing.full {fi : FileItem} {v₀ : Bytes} (h : Writing o v₀ fi) (hlt : fi.status < .complete)
    (raw : Nat) (modDate : HttpDate) (origin : Bytes) (status : RemoteStatus) (announced : Int) :
    ∃ fi', fi.dlStarted lib raw modDate origin status 0 announced = (false, fi') ∧
      Spared fi fi' := by
  rcases dlStarted_hot fi raw modDate origin status 0 announced h.status hlt h.nonneg (le_refl _)
    with hno | ⟨-, hz, -⟩
  · exact hno
  · have := h.pos
    omega

theorem Begun.part {fi : FileItem} {v : Bytes} (h : Begun o v fi) (hlt : fi.status < .complete)
    (start raw : Nat) (modDate : HttpDate) (origin : Bytes) (status : RemoteStatus)
    (hpos : 0 < start) :
    (∃ fi', fi.dlStarted lib raw modDate origin status start v.length = (false, fi') ∧
      Spared fi fi') ∨
    (fi.dlStarted lib raw modDate origin status start v.length =
        (true, fi.startedAt raw modDate origin status start v.length) ∧
      Begun o v (fi.startedAt raw modDate origin status start v.length)) := by
  rcases dlStarted_hot fi raw modDate origin status start v.length h.status hlt h.nonneg (by omega)
    with hno | ⟨hyes, hseek, heq⟩
  · exact .inl hno
  · refine .inr ⟨hyes, h.toFetching.restart _ rfl hseek heq, h.disk, h.fd, .inr rfl, .inr ?_⟩
    rcases h.kept with hz | ⟨hm, -, hf⟩
    · omega
    · refine ⟨hm, rfl, ?_⟩
      change fi.disk.file = some (v.take (start : Int).toNat)
      rw [hseek]
      exact hf

theorem Writing.part {fi : FileItem} {v : Bytes} (h : Writing o v fi) (hlt : fi.status < .complete)
    (start raw : Nat) (modDate : HttpDate) (origin : Bytes) (status : RemoteStatus) :
    (∃ fi', fi.dlStarted lib raw modDate origin status start v.length = (false, fi') ∧
      Spared fi fi') ∨
    (fi.dlStarted lib raw modDate origin status start v.length =
        (true, fi.startedAt raw modDate origin status start v.length) ∧
      Writing o v (fi.startedAt raw modDate origin status start v.length)) := by
  rcases dlStarted_hot fi raw modDate origin status start v.length h.status hlt h.nonneg (by omega)
    with hno | ⟨hyes, hseek, heq⟩
  · exact .inl hno
  · refine .inr ⟨hyes, h.toFetching.restart _ rfl hseek heq, ?_, ?_, ?_, h.head⟩
    · change fi.filefd = some (start : Int).toNat
      rw [hseek]
      exact h.fd
    · change 0 < (start : Int)
      rw [hseek]
      exact h.pos
    · obtain ⟨f, hf, htake, hle, hlen⟩ := h.file
      rw [← hseek] at htake hle hlen
      refine ⟨f, hf, htake, hle, .inr ⟨rfl, ?_⟩⟩
      have := h.le
      rcases hlen with ⟨-, hl⟩ | ⟨-, hl⟩ <;> omega

/-- A second head with another length is refused. -/
theorem dlStarted_refuses (fi : FileItem) (raw : Nat) (modDate : HttpDate) (origin : Bytes)
    (status : RemoteStatus) (seek announced : Int) (hst : .dlGotHead ≤ fi.status)
    (hlen : fi.nContentLength ≠ announced) (hknown : fi.nContentLength ≠ -1) :
    ∃ fi', fi.dlStarted lib raw modDate origin status seek announced = (false, fi') ∧
      Spared fi fi' := by
  refine ⟨_, ?_, Spared.count fi (fi.nIncommingCount + raw) fi.nTimeDlStarted⟩
  simp [dlStarted, hst, hlen, hknown]

theorem Doomed.full {fi : FileItem} (h : Doomed o fi) (hlt : fi.status < .complete) (raw : Nat)
    (modDate : HttpDate) (origin : Bytes) (status : RemoteStatus) (announced : Int) :
    ∃ fi', fi.dlStarted lib raw modDate origin status 0 announced = (false, fi') ∧
      Spared fi fi' := by
  have hpos := h.pos
  rcases dlStarted_hot fi raw modDate origin status 0 announced h.status hlt hpos.le (le_refl _)
    with hno | ⟨-, hz, -⟩
  · exact hno
  · omega

theorem Doomed.open_total {fi : FileItem} (h : Doomed o fi) (hlt : fi.status < .complete)
    (start raw : Nat) (modDate : HttpDate) (origin : Bytes) (status : RemoteStatus)
    (hpos : 0 < start) :
    (∃ fi', fi.dlStarted lib raw modDate origin status start 0 = (false, fi') ∧ Spared fi fi') ∨
    (fi.dlStarted lib raw modDate origin status start 0 =
        (true, fi.startedAt raw modDate origin status start 0) ∧
      Doomed o (fi.startedAt raw modDate origin status start 0)) := by
  rcases dlStarted_hot fi raw modDate origin status start 0 h.status hlt h.pos.le (by omega)
    with hno | ⟨hyes, -, -⟩
  · exact .inl hno
  · refine .inr ⟨hyes, h.disk, h.fd, le_refl _, (fun hc => nomatch hc), rfl, ?_, h.must, h.file⟩
    change 0 < (start : Int)
    omega

/-- A version in progress takes no partial response without a total once its length is
known. -/
theorem Fetching.open_total {fi : FileItem} {v : Bytes} (h : Fetching o v fi) (hv : v ≠ [])
    (hlen : fi.nContentLength = v.length) (seek : Int) (raw : Nat) (modDate : HttpDate)
    (origin : Bytes) (status : RemoteStatus) :
    ∃ fi', fi.dlStarted lib raw modDate origin status seek 0 = (false, fi') ∧ Spared fi fi' := by
  have hpos : 0 < v.length := List.length_pos_iff.mpr hv
  exact dlStarted_refuses fi raw modDate origin status seek 0 h.status (by omega) (by omega)

/-- An open file that is longer than the announced length is emptied, which is too short
for the position that was asked for. -/
theorem safeOpenOutFile_short (fi : FileItem) (f : Bytes) (hns : fi.spattr.bNoStore = false)
    (hk : fi.eDestroy = .keep) (hmust : fi.bWriterMustReplaceFile = false)
    (hlen : fi.nContentLength = 0) (hpos : 0 < fi.nSizeChecked) (hf : fi.disk.file = some f)
    (hne : f ≠ []) :
    fi.safeOpenOutFile {} = (false, { fi with
      disk := { fi.disk with file := some [] }, filefd := some fi.nSizeChecked.toNat
      status := .dlError, responseStatus := ⟨500, lit "Cache Error, check apt-cacher.err"⟩ }) := by
  have hneg : ¬ fi.nSizeChecked < 0 := by omega
  simp [safeOpenOutFile, obtainFd, openFile, replaceFile, startWriting, fileSize, withError,
    dlSetError, hns, hk, hmust, hlen, hf, hne, hneg, hpos]

/-- The data of a response without a total is not stored. -/
theorem Doomed.write {fi : FileItem} (h : Doomed o fi) (hns : fi.spattr.bNoStore = false)
    (hk : fi.eDestroy = .keep) (chunk : Bytes) :
    ∃ fi', fi.dlAddData chunk = (false, fi') ∧ AtRest o fi' ∧ fi'.eDestroy = .keep ∧
      fi'.spattr = fi.spattr := by
  obtain ⟨f, hf, hne⟩ := h.file
  have hopen := safeOpenOutFile_short
    { fi with nIncommingCount := fi.nIncommingCount + chunk.length } f hns hk h.must h.length h.pos
    hf hne
  have hfd : fi.filefd.isNone = true := by simp [h.fd]
  refine ⟨{ fi with
    nIncommingCount := fi.nIncommingCount + chunk.length
    disk := { fi.disk with file := some [] }, filefd := some fi.nSizeChecked.toNat
    status := .dlError, responseStatus := ⟨500, lit "Cache Error, check apt-cacher.err"⟩ },
    ?_, ?_, hk, rfl⟩
  · unfold dlAddData
    simp only [hfd, if_true]
    rw [hopen]
    rfl
  · refine ⟨?_, .inr ?_, (fun he => nomatch he), (fun he => nomatch he), (fun he => nomatch he), ?_,
      fun _ => .inl List.nil_prefix, (fun hc => nomatch hc)⟩
    · intro len date origSrc hhead hset
      exact ⟨.inl List.nil_prefix, (h.disk len date origSrc hhead hset).2⟩
    · change FiStatus.complete ≤ .dlError
      decide
    · intro hm
      exact absurd (hm.symm.trans h.must) (by decide)

/-- A piece of a version is written behind the part of it that is there. -/
theorem writeAt_version (v f chunk rest : Bytes) (n : Nat) (hn : n ≤ f.length)
    (hf : f.take n = v.take n) (hv : v.drop n = chunk ++ rest) :
    (writeAt f n chunk).take (n + chunk.length) = v.take (n + chunk.length) ∧
      (writeAt f n chunk).length = max f.length (n + chunk.length) ∧
      rest = v.drop (n + chunk.length) := by
  have hlen : (f.take n ++ chunk).length = n + chunk.length := by simp [hn]
  refine ⟨?_, ?_, ?_⟩
  · rw [writeAt, ← hlen, List.take_left, hlen, List.take_add, hv, hf, List.take_left]
  · simp only [writeAt, List.length_append, List.length_take, List.length_drop]
    omega
  · rw [← List.drop_drop, hv, List.drop_left]

theorem Writing.of_write (fi fi' : FileItem) (v chunk rest f : Bytes) (n : Nat)
    (h : Fetching o v fi) (hne : chunk ≠ []) (hlt : fi.status < .complete)
    (hv : v.drop n = chunk ++ rest) (hle : n ≤ f.length)
    (hf : f.take n = v.take n)
    (hlen : (fi.nContentLength = -1 ∧ f.length = n) ∨
      (fi.nContentLength = v.length ∧ f.length ≤ v.length))
    (hfile : fi'.disk.file = some (writeAt f n chunk)) (hfd : fi'.filefd = some (n + chunk.length))
    (hchk : fi'.nSizeChecked = n + chunk.length) (hcl : fi'.nContentLength = fi.nContentLength)
    (hdate : fi'.responseModDate = fi.responseModDate)
    (hst : fi'.status = .dlReceiving ∨ fi'.status = fi.status)
    (hhead : ∃ len date origSrc, fi'.disk.head = some (.fields len date origSrc) ∧
      (∀ d, date = some d → d.isSet = true → o.content d = v) ∧ ∀ m, len = some m → m = v.length) :
    Writing o v fi' ∧ fi'.status < .complete ∧ rest = v.drop fi'.nSizeChecked.toNat := by
  obtain ⟨htake, hl, hrest⟩ := writeAt_version v f chunk rest n hle hf hv
  have hpos : 0 < chunk.length := List.length_pos_iff.mpr hne
  have hvlen : n + chunk.length ≤ v.length := by
    have := congrArg List.length hv
    simp only [List.length_drop, List.length_append] at this
    omega
  have hnat : fi'.nSizeChecked.toNat = n + chunk.length := by omega
  have hst' : .dlGotHead ≤ fi'.status ∧ fi'.status < .complete := by
    rcases hst with hst | hst
    · rw [hst]
      decide
    · rw [hst]
      exact ⟨h.status, hlt⟩
  refine ⟨⟨⟨hst'.1, by omega, by omega, ?_, ?_⟩, ?_, by omega, ?_, hhead⟩, hst'.2, ?_⟩
  · rw [hdate]
    exact h.version
  · intro hc
    exact absurd (hc ▸ hst'.2) (lt_irrefl _)
  · rw [hfd, hnat]
  · refine ⟨_, hfile, by rw [hnat]; exact htake, by omega, ?_⟩
    rw [hcl, hl]
    rcases hlen with ⟨h1, h2⟩ | ⟨h1, h2⟩
    · exact .inl ⟨h1, by omega⟩
    · exact .inr ⟨h1, by omega⟩
  · rw [hnat]
    exact hrest

/-- What the file keeps when the first chunk is written: the front of the version, and nothing behind
its end. -/
theorem Begun.keptFile_take {fi : FileItem} {v : Bytes} (h : Begun o v fi) :
    fi.keptFile.take fi.nSizeChecked.toNat = v.take fi.nSizeChecked.toNat ∧
      fi.nSizeChecked.toNat ≤ fi.keptFile.length ∧
      ((fi.nContentLength = -1 ∧ fi.keptFile.length = fi.nSizeChecked.toNat) ∨
        (fi.nContentLength = v.length ∧ fi.keptFile.length ≤ v.length)) := by
  have h0 := h.nonneg
  rcases h.kept with hz | ⟨hm, hl, hfile⟩
  · have hz' : fi.nSizeChecked.toNat = 0 := by omega
    rw [hz']
    refine ⟨rfl, Nat.zero_le _, ?_⟩
    rcases h.length with hl | hl
    · exact .inl ⟨hl, by simp [keptFile, hl]⟩
    · right
      refine ⟨hl, ?_⟩
      unfold keptFile
      split
      · exact Nat.zero_le _
      · rename_i hno
        simp only [Bool.or_eq_true, decide_eq_true_eq, not_or, not_lt] at hno
        omega
  · have hle := h.le
    have hk : fi.keptFile = v.take fi.nSizeChecked.toNat := by
      have : ¬ ((v.length : Int) < 0) := by omega
      have : ¬ ((v.length : Int) < (v.take fi.nSizeChecked.toNat).length) := by
        simp only [List.length_take]
        omega
      simp [keptFile, hm, hl, hfile]
    rw [hk]
    refine ⟨by rw [List.take_take, Nat.min_self], ?_, .inr ⟨hl, ?_⟩⟩
    · simp only [List.length_take]
      omega
    · simp only [List.length_take]
      omega

/-- The head that is written with it belongs to the version. -/
theorem Begun.opened_head {fi : FileItem} {v : Bytes} (h : Begun o v fi) :
    ∃ len date origSrc, fi.opened.disk.head = some (.fields len date origSrc) ∧
      (∀ d, date = some d → d.isSet = true → o.content d = v) ∧
      ∀ m, len = some m → m = v.length := by
  refine ⟨_, _, _, rfl, ?_, ?_⟩
  · intro d hd hset
    rw [Option.filter_eq_some_iff, Option.some.injEq] at hd
    rw [← hd.1] at hset ⊢
    exact (h.version hset).symm
  · intro m hm
    split at hm
    · rcases h.length with hl | hl
      · omega
      · rw [← Option.some.inj hm]
        exact hl
    · cases hm

theorem Begun.write {fi : FileItem} {v chunk rest : Bytes} (h : Begun o v fi)
    (hns : fi.spattr.bNoStore = false) (hne : chunk ≠ []) (hlt : fi.status < .complete)
    (hv : v.drop fi.nSizeChecked.toNat = chunk ++ rest) :
    ∃ fi', fi.dlAddData chunk = (true, fi') ∧ Writing o v fi' ∧ fi'.status < .complete ∧
      rest = v.drop fi'.nSizeChecked.toNat ∧ fi'.eDestroy = fi.eDestroy ∧ fi'.spattr = fi.spattr := by
  have h0 := h.nonneg
  obtain ⟨htake, hle, hlen⟩ := h.keptFile_take
  have hready : fi.Ready := by
    refine ⟨h.status, hlt.le, ?_⟩
    rw [h.fd]
    exact ⟨hns, by omega⟩
  have hopen : fi.ensureOpen = fi.opened := by simp [ensureOpen, h.fd]
  have hadd := dlAddData_ready fi chunk hready fi.nSizeChecked.toNat (by rw [hopen]; rfl)
  refine ⟨_, hadd, ?_⟩
  rw [hopen]
  obtain ⟨hw, hst, hrest⟩ := Writing.of_write fi
    { fi.opened.writeChunk fi.nSizeChecked.toNat chunk with
      nIncommingCount := fi.nIncommingCount + chunk.length }
    v chunk rest fi.keptFile fi.nSizeChecked.toNat h.toFetching hne hlt hv hle htake hlen rfl rfl
    (by simp only [writeChunk, opened]; omega) rfl rfl (.inl rfl) h.opened_head
  exact ⟨hw, hst, hrest, rfl, rfl⟩

theorem Writing.write {fi : FileItem} {v chunk rest : Bytes} (h : Writing o v fi) (hne : chunk ≠ [])
    (hlt : fi.status < .complete) (hv : v.drop fi.nSizeChecked.toNat = chunk ++ rest) :
    ∃ fi', fi.dlAddData chunk = (true, fi') ∧ Writing o v fi' ∧ fi'.status < .complete ∧
      rest = v.drop fi'.nSizeChecked.toNat ∧ fi'.eDestroy = fi.eDestroy ∧ fi'.spattr = fi.spattr := by
  have h0 := h.nonneg
  obtain ⟨f, hf, htake, hle, hlen⟩ := h.file
  have hready : fi.Ready := by
    refine ⟨h.status, hlt.le, ?_⟩
    rw [h.fd]
    exact ⟨f, hf, by omega⟩
  have hopen : fi.ensureOpen = fi := by simp [ensureOpen, h.fd]
  have hadd := dlAddData_ready fi chunk hready fi.nSizeChecked.toNat (by rw [hopen, h.fd])
  refine ⟨_, hadd, ?_⟩
  rw [hopen]
  have hlen' : (fi.nContentLength = -1 ∧ f.length = fi.nSizeChecked.toNat) ∨
      (fi.nContentLength = v.length ∧ f.length ≤ v.length) := by
    rcases hlen with ⟨h1, h2⟩ | h1
    · exact .inl ⟨h1, by omega⟩
    · exact .inr h1
  obtain ⟨hw, hst, hrest⟩ := Writing.of_write fi
    { fi.writeChunk fi.nSizeChecked.toNat chunk with
      nIncommingCount := fi.nIncommingCount + chunk.length }
    v chunk rest f fi.nSizeChecked.toNat h.toFetching hne hlt hv (by omega) htake hlen'
    (by simp only [writeChunk, hf, Option.map_some]) rfl
    (by simp only [writeChunk]; omega) rfl rfl (.inr rfl) h.head
  exact ⟨hw, hst, hrest, rfl, rfl⟩

/-- What `DlFinish` does to an item that is fetched. -/
theorem dlFinish_fetched (fi : FileItem) (hns : fi.spattr.bNoStore = false)
    (hk : fi.eDestroy = .keep) (hle : fi.status ≤ .complete) :
    fi.dlFinish false = if fi.nContentLength < 0 then
      { fi with
        status := .complete, nContentLength := fi.nSizeChecked
        disk := { fi.disk with head := some (.fields
          (if 0 ≤ fi.nSizeChecked then some fi.nSizeChecked else none)
          ((some fi.responseModDate).filter HttpDate.isSet)
          (if fi.responseOrigin.isEmpty then none else some fi.responseOrigin)) } }
      else { fi with status := .complete } := by
  have h1 : ¬ FiStatus.complete < fi.status := not_lt.mpr hle
  unfold dlFinish
  simp only [hns, h1, hk, Bool.false_eq_true, if_false, if_true, Bool.or_false, decide_eq_true_eq]
  by_cases hneg : fi.nContentLength < 0
  · simp only [fixLength, saveHeader, storeHead, hneg, Bool.false_eq_true, if_false, if_true]
  · simp only [hneg, if_false]

theorem Fetching.finish {fi : FileItem} {v : Bytes} (h : Fetching o v fi)
    (hv : v.drop fi.nSizeChecked.toNat = []) : fi.nSizeChecked = v.length := by
  have h0 := h.nonneg
  have hle := h.le
  have := congrArg List.length hv
  simp only [List.length_drop, List.length_nil] at this
  omega

theorem Begun.finish {fi : FileItem} {v : Bytes} (h : Begun o v fi)
    (hns : fi.spattr.bNoStore = false) (hk : fi.eDestroy = .keep) (hlt : fi.status < .complete)
    (hv : v.drop fi.nSizeChecked.toNat = []) : Begun o v (fi.dlFinish false) := by
  have hchk := h.toFetching.finish hv
  have hcst : FiStatus.dlGotHead ≤ .complete := by decide
  rw [dlFinish_fetched fi hns hk hlt.le]
  split
  · rename_i hneg
    -- the transfer was chunked and had no data
    have hz : fi.nSizeChecked = 0 := by
      rcases h.kept with hz | ⟨-, hl, -⟩
      · exact hz
      · omega
    have hnil : v = [] := List.length_eq_zero_iff.mp (by omega)
    refine ⟨⟨hcst, h.nonneg, h.le, h.version, fun _ => ⟨hchk, hchk⟩⟩, ?_, h.fd, .inr hchk, .inl hz⟩
    intro len date origSrc hhead hset
    simp only [Option.some.injEq, HeadFile.fields.injEq] at hhead
    obtain ⟨hlen, hdate, -⟩ := hhead
    rw [Option.filter_eq_some_iff, Option.some.injEq] at hdate
    have hcont : o.content date = [] := by
      rw [← hdate.1] at hset ⊢
      rw [← h.version hset, hnil]
    refine ⟨.inr hcont, ?_⟩
    intro n hn
    rw [if_pos h.nonneg, hn] at hlen
    rw [hcont, ← Option.some.inj hlen, hz]
    rfl
  · rename_i hneg
    have hlen : fi.nContentLength = v.length := by
      rcases h.length with hl | hl
      · omega
      · exact hl
    exact ⟨⟨hcst, h.nonneg, h.le, h.version, fun _ => ⟨hchk, hlen⟩⟩, h.disk, h.fd, .inr hlen, h.kept⟩

theorem Writing.finish {fi : FileItem} {v : Bytes} (h : Writing o v fi)
    (hns : fi.spattr.bNoStore = false) (hk : fi.eDestroy = .keep) (hlt : fi.status < .complete)
    (hv : v.drop fi.nSizeChecked.toNat = []) : Writing o v (fi.dlFinish false) := by
  have hchk := h.toFetching.finish hv
  have hcst : FiStatus.dlGotHead ≤ .complete := by decide
  obtain ⟨f, hf, htake, hle, hlen⟩ := h.file
  rw [dlFinish_fetched fi hns hk hlt.le]
  split
  · rename_i hneg
    refine ⟨⟨hcst, h.nonneg, h.le, h.version, fun _ => ⟨hchk, hchk⟩⟩, h.fd, h.pos, ?_, ?_⟩
    · refine ⟨f, hf, htake, hle, .inr ⟨hchk, ?_⟩⟩
      rcases hlen with ⟨-, h2⟩ | ⟨h1, -⟩ <;> omega
    · refine ⟨_, _, _, rfl, ?_, ?_⟩
      · intro d hd hset
        rw [Option.filter_eq_some_iff, Option.some.injEq] at hd
        rw [← hd.1] at hset ⊢
        exact (h.version hset).symm
      · intro n hn
        rw [if_pos h.nonneg] at hn
        rw [← Option.some.inj hn, hchk]
  · rename_i hneg
    have hl : fi.nContentLength = v.length := by
      rcases hlen with ⟨h1, -⟩ | ⟨h1, -⟩
      · omega
      · exact h1
    exact ⟨⟨hcst, h.nonneg, h.le, h.version, fun _ => ⟨hchk, hl⟩⟩, h.fd, h.pos,
      ⟨f, hf, htake, hle, hlen⟩, h.head⟩

/-- Nothing of an older version is left in the file of an item that leaves nothing. -/
theorem Writing.diskOk {fi : FileItem} {v : Bytes} (h : Writing o v fi)
    (hl : ((fi.disk.file.getD []).length : Int) ≤ fi.nSizeChecked) : DiskOk o fi.disk := by
  obtain ⟨f, hf, htake, hle, -⟩ := h.file
  obtain ⟨len, date, origSrc, hhead, hcont, hlen⟩ := h.head
  intro len' date' origSrc' hh hset
  rw [hhead] at hh
  simp only [Option.some.injEq, HeadFile.fields.injEq] at hh
  obtain ⟨rfl, hdate, -⟩ := hh
  have hv := hcont date' hdate hset
  rw [hv]
  refine ⟨.inl ?_, hlen⟩
  rw [hf, Option.getD_some] at hl ⊢
  have hfull : f.take fi.nSizeChecked.toNat = f := List.take_of_length_le (by omega)
  rw [← hfull, htake]
  exact List.take_prefix _ _

theorem dlRefCountDec_keep (fi : FileItem) (reason : RemoteStatus) (hk : fi.eDestroy = .keep) :
    (fi.dlRefCountDec reason).disk = fi.disk ∧ (fi.dlRefCountDec reason).eDestroy = .keep := by
  have hmode := ErrorCall.apply_mode fi (.dlRefCountDec reason)
  rw [ErrorCall.request, Option.elim_none, hk] at hmode
  refine ⟨?_, hmode⟩
  unfold dlRefCountDec
  simp only
  split
  · rfl
  · split <;> rfl

/-- A lifetime that ends in the mode KEEP leaves the files alone. -/
theorem destroy_keep (fi : FileItem) (hk : fi.eDestroy = .keep) : fi.destroy = fi.disk := by
  unfold destroy
  rw [hk]
  simp only [ite_self]

end FileItem

end Acng
