import Acng.Proofs.ItemFrame
import Acng.Response

namespace Acng
open Lib

/-- What the server says about the lengths of its response: the size of the whole
file, where the body starts in it, and the size of the body as it is framed. -/
structure Sent where
  announced : Int := -1
  offset : Int := 0
  framed : Nat := 0
deriving DecidableEq, Repr

namespace Sent

/-- A Content-Length counts for the file and for the body, a Content-Range for the
file only, and chunks are counted as they come. -/
def ofHead (h : Header) : Sent :=
  let length := Dl.fieldNum h .contentLength (-1)
  let framed := if Dl.isChunked h then 0 else length.toNat
  match if h.status.code = 206 then (h.h .contentRange).bind rangeSearch else none with
  | some (first, total) => ⟨strtoll total, strtoll first, framed⟩
  | none => ⟨length, 0, framed⟩

/-- The size in the chunk head at the start of a buffer. -/
def chunkAt (buf : Bytes) : Nat :=
  let line := buf.dropWhile (fun c => c == 13 || c == 10)
  if (find crlf (cstr line)).isSome then (scanHex line).getD 0 else 0

def after (g : Sent) (d : Dl) : Sent :=
  match d.job.dlState with
  | .getHeader => if 0 < (Header.load d.buf).1 then ofHead (Header.load d.buf).2.hd else g
  | .getChunkHead => { g with framed := g.framed + chunkAt d.buf }
  | _ => g

/-- The lengths fit together, or none is announced. -/
def Agrees (g : Sent) : Prop := g.announced < 0 ∨ g.announced = g.offset + g.framed

instance (g : Sent) : Decidable g.Agrees := inferInstanceAs (Decidable (_ ∨ _))

end Sent

/-- The runs of a storing GET job from the item that `Setup` found, with what the
server sent: reads, passes of the loop, lost connections and new ones. -/
inductive Trace (env : Env) : Dl → Phase → Sent → Prop
  | start (fi : FileItem) (job : DlJob) (fresh : fi.status = .fresh)
      (get : fi.spattr.bHeadOnly = false) (store : fi.spattr.bNoStore = false)
      (new : (∃ src, job = .new env.cfg fi.setup src) ∨
        ∃ repo path, job = .newForRepo env.cfg fi.setup repo path) :
      Trace env ⟨(job.appendRequest env.cfg fi.setup).2, fi.setup, []⟩ .running {}
  | read {d g} (r : Bytes) (h : Trace env d .running g) :
      Trace env { d with buf := d.buf ++ r } .running g
  | pass {d g d' res} (io : Io) (now : Int) (h : Trace env d .running g)
      (hs : d.procStep { env with now := now } io false = (d', res)) :
      Trace env d' (.after env.cfg false d'.job res) (g.after d)
  | lose {d g} (h : Trace env d .running g) : Trace env d .lost g
  | reconnect {d phase g} (backend : Option HttpUrl) (h : Trace env d phase g)
      (hp : phase ≠ .closed) :
      Trace env ⟨(DlJob.appendRequest env.cfg
        { d.job.resetStreamState with pCurBackend := backend } d.fi).2, d.fi, []⟩ .running g

namespace FileItem

/-- The sizes that `SafeOpenOutFile` works with. -/
structure SameSizes (fi fi' : FileItem) : Prop where
  length : fi'.nContentLength = fi.nContentLength
  checked : 0 ≤ fi.nSizeChecked → fi'.nSizeChecked = fi.nSizeChecked

theorem sameSizes_open : OpenRel SameSizes where
  refl _ := ⟨rfl, fun _ => rfl⟩
  trans h g := ⟨g.length.trans h.length, fun h0 =>
    (g.checked (by rw [h.checked h0]; exact h0)).trans (h.checked h0)⟩
  files _ _ _ _ := ⟨rfl, fun _ => rfl⟩
  zero _ h := ⟨rfl, fun h0 => absurd h (not_lt.mpr h0)⟩
  receiving _ := ⟨rfl, fun _ => rfl⟩
  error _ _ _ := ⟨rfl, fun _ => rfl⟩

theorem dlAddData_sizes (fi : FileItem) (chunk : Bytes) (io : StoreIo)
    (hok : (fi.dlAddData chunk io).1 = true) (h0 : 0 ≤ fi.nSizeChecked) :
    (fi.dlAddData chunk io).2.nSizeChecked = fi.nSizeChecked + chunk.length ∧
      (fi.dlAddData chunk io).2.nContentLength = fi.nContentLength := by
  have h1 : SameSizes fi (if fi.filefd.isNone = true then
      safeOpenOutFile { fi with nIncommingCount := fi.nIncommingCount + chunk.length } io
      else (true, { fi with nIncommingCount := fi.nIncommingCount + chunk.length })).2 := by
    have hcount : SameSizes fi { fi with nIncommingCount := fi.nIncommingCount + chunk.length } :=
      ⟨rfl, fun _ => rfl⟩
    split
    · exact sameSizes_open.trans hcount (safeOpenOutFile_rel sameSizes_open _ io)
    · exact hcount
  unfold dlAddData at hok ⊢
  simp only at hok ⊢
  generalize (if fi.filefd.isNone = true then
      safeOpenOutFile { fi with nIncommingCount := fi.nIncommingCount + chunk.length } io
      else (true, { fi with nIncommingCount := fi.nIncommingCount + chunk.length })) = r at h1 hok ⊢
  obtain ⟨ok, f⟩ := r
  cases ok with
  | false => simp at hok
  | true =>
    simp only [Bool.not_true, Bool.false_eq_true, if_false] at hok ⊢
    cases hfd : f.filefd with
    | none => simp [hfd] at hok
    | some pos =>
      simp only [hfd] at hok ⊢
      by_cases hs1 : f.status < .dlGotHead
      · simp [hs1] at hok
      · by_cases hs2 : .complete < f.status
        · simp [hs1, hs2] at hok
        · simp only [hs1, hs2, if_false] at hok ⊢
          cases hw : io.written with
          | some n => simp [hw] at hok
          | none =>
            simp only [writeChunk]
            exact ⟨by rw [h1.checked h0], h1.length⟩

theorem dlStarted_sizes (lib : DateLib) (fi : FileItem) (raw : Nat) (modDate : HttpDate)
    (origin : Bytes) (status : RemoteStatus) (seek announced : Int)
    (hok : (fi.dlStarted lib raw modDate origin status seek announced).1 = true) :
    (0 ≤ seek → (fi.dlStarted lib raw modDate origin status seek announced).2.nSizeChecked = seek) ∧
      (fi.dlStarted lib raw modDate origin status seek announced).2.nContentLength = announced ∧
      (fi.dlStarted lib raw modDate origin status seek announced).2.responseStatus = status := by
  unfold dlStarted at hok ⊢
  simp only at hok ⊢
  split at hok
  · cases hok
  · rename_i h1
    rw [if_neg h1]
    by_cases hg : .dlGotHead ≤ fi.status
    · simp only [hg, if_true] at hok ⊢
      split at hok
      · cases hok
      · rename_i h2
        rw [if_neg h2]
        exact ⟨fun h0 => if_pos h0, rfl, rfl⟩
    · simp only [hg, if_false] at hok ⊢
      split at hok
      · cases hok
      · rename_i h2
        rw [if_neg h2]
        exact ⟨fun h0 => if_pos h0, rfl, rfl⟩

theorem dlFinish_sizes (fi : FileItem) (force : Bool) (io : HeadIo) :
    (fi.dlFinish force io).nSizeChecked = fi.nSizeChecked ∧
      (fi.dlFinish force io).responseStatus = fi.responseStatus ∧
      ((fi.dlFinish force io).nContentLength = fi.nContentLength ∨
        (fi.nContentLength < 0 ∧ (fi.dlFinish force io).nContentLength = fi.nSizeChecked)) ∧
      (fi.spattr.bNoStore = false → (fi.dlFinish force io).status = .complete →
        fi.nContentLength < 0 → (fi.dlFinish force io).nContentLength = fi.nSizeChecked) := by
  unfold dlFinish
  split
  · rename_i hns
    exact ⟨rfl, rfl, .inl rfl, fun h => absurd hns (by simp [h])⟩
  · split
    · rename_i hst
      exact ⟨rfl, rfl, .inl rfl, fun _ he => absurd (he ▸ hst) (by decide)⟩
    · simp only
      have hfix : (fixLength { fi with status := .complete }).nContentLength =
          if fi.nContentLength < 0 then fi.nSizeChecked else fi.nContentLength := rfl
      by_cases hlt : fi.nContentLength < 0
      · rw [if_pos hlt] at hfix
        rw [if_pos (by simp [hlt])]
        split
        · obtain ⟨head, hh⟩ := saveHeader_frame (fixLength { fi with status := .complete }) false io
          rw [hh]
          exact ⟨rfl, rfl, .inr ⟨hlt, hfix⟩, fun _ _ _ => hfix⟩
        · exact ⟨rfl, rfl, .inr ⟨hlt, hfix⟩, fun _ _ _ => hfix⟩
      · rw [if_neg hlt] at hfix
        split
        · split
          · obtain ⟨head, hh⟩ := saveHeader_frame (fixLength { fi with status := .complete }) false io
            rw [hh]
            exact ⟨rfl, rfl, .inl hfix, fun _ _ h => absurd h hlt⟩
          · exact ⟨rfl, rfl, .inl hfix, fun _ _ h => absurd h hlt⟩
        · exact ⟨rfl, rfl, .inl rfl, fun _ _ h => absurd h hlt⟩

end FileItem

theorem strtoll_digit (s : Bytes) (h : s.head?.any isdigit = true) : 0 ≤ strtoll s := by
  cases s with
  | nil => simp at h
  | cons c t =>
    obtain ⟨hsp, hm, hp, hz, -⟩ := isdigit_graph c (by simpa using h)
    have hc : (cstr (c :: t)).dropWhile isspace = c :: cstr t := by
      simp [cstr, hz, hsp]
    unfold strtoll
    simp only [hc, sign, hm, hp, Bool.false_eq_true, if_false]
    have : (0 : Int) ≤ decimal ((c :: cstr t).takeWhile isdigit) := Int.natCast_nonneg _
    omega

theorem rangeBody_digit (r first total : Bytes) (h : rangeBody r = some (first, total)) :
    first.head?.any isdigit = true := by
  unfold rangeBody at h
  split at h
  · cases h
  · rename_i hd
    have hr : r.head?.any isdigit = true := by simpa using hd
    have hfirst : first = r := by
      revert h
      split
      · simp only
        split
        · split
          · intro h
            exact (Prod.mk.inj (Option.some.inj h)).1.symm
          · simp
        · simp
      · simp
    rw [hfirst]
    exact hr

/-- The first position of a range is a number. -/
theorem rangeSearch_first (s first total : Bytes) (h : rangeSearch s = some (first, total)) :
    0 ≤ strtoll first := by
  unfold rangeSearch at h
  obtain ⟨t, -, ht⟩ := List.exists_of_findSome?_eq_some h
  apply strtoll_digit
  unfold rangeAt at ht
  split at ht
  · rcases Option.or_eq_some_iff.mp ht with hb | ⟨-, hb⟩
    · exact rangeBody_digit _ first total hb
    · split at hb
      · exact rangeBody_digit _ first total hb
      · cases hb
  · cases ht

namespace Dl

/-- The sizes of the item fit what the server said when its head was accepted. -/
structure Settled (g : Sent) (d : Dl) : Prop where
  storing : d.job.bAllowStoreData = true →
    d.fi.nSizeChecked = g.offset ∧ d.fi.nContentLength = g.announced ∧ 0 ≤ g.offset
  skipping : d.job.bAllowStoreData = false → d.fi.responseStatus.code = 200 →
    d.fi.nSizeChecked = d.fi.nContentLength

theorem startDownload_sizes (env : Env) (io : Io) (d : Dl) (h : Header) (raw : Nat) (loc : Bytes)
    (contLen : Int) (g : Sent)
    (hgood : (d.startDownload env io h raw loc contLen).1 = .good)
    (hstore : d.job.bAllowStoreData = true →
      0 ≤ d.job.nUsedRangeStartPos ∧ g.offset = d.job.nUsedRangeStartPos ∧ g.announced = contLen)
    (hskip : d.job.bAllowStoreData = false → h.status.code ≠ 200) :
    Settled g (d.startDownload env io h raw loc contLen).2 := by
  have hsz := FileItem.dlStarted_sizes env.dates (d.markAssigned env).fi raw
    (HttpDate.ofCStr env.dates (h.h .lastModified)) (d.originOf loc) h.status
    d.job.nUsedRangeStartPos contLen
  cases hr : (d.markAssigned env).fi.dlStarted env.dates raw
      (HttpDate.ofCStr env.dates (h.h .lastModified)) (d.originOf loc) h.status
      d.job.nUsedRangeStartPos contLen with
  | mk ok fi' =>
    rw [hr] at hsz
    rw [startDownload_of env io d h raw loc contLen ok fi' hr] at hgood ⊢
    cases ok with
    | false => simp at hgood
    | true =>
      obtain ⟨hseek, hlen, hst⟩ := hsz rfl
      refine ⟨fun ha => ?_, fun ha hcode => ?_⟩
      · have ha' : d.job.bAllowStoreData = true := ha
        obtain ⟨h0, hoff, hann⟩ := hstore ha'
        simp only [if_true, ha', hoff, hann]
        exact ⟨hseek h0, hlen, h0⟩
      · have ha' : d.job.bAllowStoreData = false := ha
        simp only [if_true, ha', Bool.false_eq_true, if_false,
          (FileItem.dlFinish_sizes fi' true io.head).2.1] at hcode
        rw [show fi'.responseStatus = h.status from hst] at hcode
        exact absurd hcode (hskip ha')

theorem checkAndSaveHeader_sizes (env : Env) (io : Io) (d : Dl) (h : Header) (raw : Nat)
    (contLen : Int) (g : Sent) (hallow : d.job.bAllowStoreData = true)
    (hfull : h.status.code = 200 → g.offset = 0 ∧ g.announced = contLen)
    (hpart : h.status.code = 206 → ∀ value first total, h.h .contentRange = some value →
      rangeSearch value = some (first, total) →
      g.offset = strtoll first ∧ g.announced = strtoll total)
    (hgood : (d.checkAndSaveHeader env io h raw contLen).1 = .good) :
    Settled g (d.checkAndSaveHeader env io h raw contLen).2 := by
  have hc := checkAndSaveHeader_cases env io d h raw contLen
  generalize d.checkAndSaveHeader env io h raw contLen = r at hc hgood ⊢
  cases hc with
  | busy hb => simp at hgood
  | error hf msg k => simp [headError] at hgood
  | restart hf code none => simp at hgood
  | probe hf code value first total range found hp =>
    refine ⟨fun ha => by simp [markAssigned] at ha, fun _ _ => ?_⟩
    obtain ⟨hchk, -, hlen, -⟩ := FileItem.dlFinish_sizes
      { (d.counted raw).fi with
        nTimeDlStarted := env.now, nSizeChecked := d.fi.nSizeCachedInitial
        nContentLength := d.fi.nSizeCachedInitial } true io.head
    have hpos : 0 < d.fi.nSizeCachedInitial := hp.2.1
    rcases hlen with hlen | ⟨hneg, -⟩
    · exact hchk.trans hlen.symm
    · exact absurd hneg (by simp only; omega)
  | full hf code =>
    obtain ⟨hoff, hann⟩ := hfull code
    refine startDownload_sizes env io _ h raw [] contLen g hgood ?_ ?_
    · exact fun _ => ⟨le_refl _, hoff, hann⟩
    · exact fun ha => absurd hallow (by simp [show d.job.bAllowStoreData = false from ha])
  | part hf code value first total range found hp start pos le =>
    obtain ⟨hoff, hann⟩ := hpart code value first total range found
    have h0 := rangeSearch_first value first total found
    refine startDownload_sizes env io _ _ raw [] _ g hgood ?_ ?_
    · intro _
      have hstart : (d.counted raw).job.nUsedRangeStartPos = strtoll first := start
      rw [hstart]
      exact ⟨h0, hoff, hann⟩
    · exact fun ha => absurd hallow (by simp [show d.job.bAllowStoreData = false from ha])
  | other hf code free loc =>
    refine startDownload_sizes env io _ h raw loc (-1) g hgood ?_ ?_
    · exact fun ha => by simp at ha
    · exact fun _ => code.1

/-- The item and the job against what the server sent, while the job reads. -/
structure Tracks (g : Sent) (d : Dl) : Prop where
  head : d.job.dlState = .getHeader → d.job.nRest = 0 ∧ d.job.bAllowStoreData = true
  storing : d.job.dlState ≠ .getHeader → d.job.bAllowStoreData = true →
    d.fi.nSizeChecked + d.job.nRest = g.offset + g.framed ∧ d.fi.nContentLength = g.announced ∧
      0 ≤ d.fi.nSizeChecked
  skipping : d.job.dlState ≠ .getHeader → d.job.bAllowStoreData = false →
    d.fi.responseStatus.code = 200 → d.fi.nSizeChecked = d.fi.nContentLength
  rest : d.job.dlState ≠ .processData → d.job.dlState ≠ .processChunkData → d.job.nRest = 0

/-- A GET job on an item with storage. -/
structure IsGet (d : Dl) : Prop where
  job : d.job.fiAttr.bHeadOnly = false
  item : d.fi.spattr.bHeadOnly = false
  store : d.fi.spattr.bNoStore = false

theorem ofHead_full (h : Header) (code : h.status.code = 200) :
    (Sent.ofHead h).offset = 0 ∧ (Sent.ofHead h).announced = fieldNum h .contentLength (-1) := by
  simp [Sent.ofHead, code]

theorem ofHead_part (h : Header) (code : h.status.code = 206) (value first total : Bytes)
    (hr : h.h .contentRange = some value) (hf : rangeSearch value = some (first, total)) :
    (Sent.ofHead h).offset = strtoll first ∧ (Sent.ofHead h).announced = strtoll total := by
  simp [Sent.ofHead, code, hr, hf]

theorem ofHead_framed (h : Header) : (Sent.ofHead h).framed =
    if isChunked h then 0 else (fieldNum h .contentLength (-1)).toNat := by
  unfold Sent.ofHead
  simp only
  split <;> rfl

/-- Without a head that is accepted the job waits for the next one as before. -/
theorem procHeader_waits (env : Env) (io : Io) (d : Dl) (cfg : Cfg) (hst : d.job.dlState = .getHeader)
    (hg : d.isGood env io false = false)
    (hrun : Phase.after cfg false (d.procHeader env io false).1.job (d.procHeader env io false).2 =
      .running) :
    (d.procHeader env io false).1.job.nRest = d.job.nRest ∧
      (d.procHeader env io false).1.job.bAllowStoreData = d.job.bAllowStoreData := by
  cases hh : d.headStep env false with
  | ret d' res =>
    have hr := headStep_returned env false d d' res hh
    have hp : (d.procHeader env io false).1 = d' := by simp [procHeader, hh]
    rw [hp, hr.job]
    exact ⟨rfl, rfl⟩
  | save d1 hd n contLen ret =>
    exfalso
    simp only [procHeader, hh] at hrun
    have hgood : ((d1.checkAndSaveHeader env io hd n contLen).1 == .good) = false := by
      simpa [isGood, hh, hst] using hg
    generalize d1.checkAndSaveHeader env io hd n contLen = r at hrun hgood
    obtain ⟨ev, d2⟩ := r
    cases ev with
    | good => simp at hgood
    | restartNeeded => exact after_restart cfg _ ret hrun
    | busyOrError => exact after_collision cfg _ ret hrun

/-- The framing leaves the body to be read as the head says. -/
theorem Saved.body {env : Env} {d d1 d2 : Dl} {hd : Header} {n : Nat} {contLen : Int}
    (hsv : Saved env false d d1 hd n contLen) (hget : d.job.fiAttr.bHeadOnly = false)
    (hrest : d.job.nRest = 0) (hfr : HeadFrame d1 d2) :
    d2.job.dlState ≠ .getHeader ∧
      (d2.job.nRest : Int) = (Sent.ofHead (Header.load d.buf).2.hd).framed ∧
      (d2.job.dlState ≠ .processData → d2.job.nRest = 0) := by
  have hj : d2.job.nRest = d1.job.nRest ∧ d2.job.dlState = d1.job.dlState := by
    rw [hfr.job]
    exact ⟨rfl, rfl⟩
  rw [hj.1, hj.2, ofHead_framed]
  have hch := hsv.chunked hget
  rcases hsv.framing with ⟨hho, -⟩ | ⟨-, he⟩ | ⟨-, -, he⟩
  · rw [hget] at hho
    cases hho
  · rw [he] at hch
    rw [if_pos (hch.mp rfl), he]
    exact ⟨by simp, by simp [hrest], fun _ => hrest⟩
  · rw [he] at hch
    rw [if_neg (fun hc => by simpa using hch.mpr hc), he, ← hsv.length]
    exact ⟨by simp, rfl, fun hne => absurd rfl hne⟩

/-- A head that is accepted sets the sizes of what the server sent. -/
theorem Saved.sizes {env : Env} {d d1 : Dl} {hd : Header} {n : Nat} {contLen : Int}
    (hsv : Saved env false d d1 hd n contLen) (io : Io) (hallow : d.job.bAllowStoreData = true)
    (hgood : (d1.checkAndSaveHeader env io hd n contLen).1 = .good) :
    Settled (Sent.ofHead (Header.load d.buf).2.hd) (d1.checkAndSaveHeader env io hd n contLen).2 := by
  have hcode : ∀ c, c ≠ 501 → hd.status.code = c → (Header.load d.buf).2.hd.status.code = c := by
    intro c hne hc
    rcases hsv.status with he | he
    · rw [← he, hc]
    · exact absurd (hc.symm.trans he) hne
  have hd1 : d1.job.bAllowStoreData = true := by
    rcases hsv.framing with ⟨-, he⟩ | ⟨-, he⟩ | ⟨-, -, he⟩ <;> rw [he] <;> exact hallow
  refine checkAndSaveHeader_sizes env io d1 hd n contLen _ hd1 ?_ ?_ hgood
  · intro hc
    obtain ⟨h1, h2⟩ := ofHead_full _ (hcode 200 (by decide) hc)
    exact ⟨h1, h2.trans hsv.length.symm⟩
  · intro hc value first total hr hf
    exact ofHead_part _ (hcode 206 (by decide) hc) value first total
      ((hsv.field .contentRange (by decide) (by decide)).symm.trans hr) hf

theorem procHeader_tracks (env : Env) (io : Io) (g : Sent) (d : Dl) (cfg : Cfg)
    (hst : d.job.dlState = .getHeader) (hget : IsGet d) (h : Tracks g d)
    (hrun : Phase.after cfg false (d.procHeader env io false).1.job (d.procHeader env io false).2 =
      .running) : Tracks (g.after d) (d.procHeader env io false).1 := by
  obtain ⟨hrest, hallow⟩ := h.head hst
  cases hg : d.isGood env io false with
  | false =>
    -- still waiting for a head, so the sizes are of no interest
    have hst' := procHeader_phase env io false d cfg hst (by simp) hg hrun
    obtain ⟨hr, ha⟩ := procHeader_waits env io d cfg hst hg hrun
    exact ⟨fun _ => ⟨hr.trans hrest, ha.trans hallow⟩, fun hne => absurd hst' hne,
      fun hne => absurd hst' hne, fun _ _ => hr.trans hrest⟩
  | true =>
    cases hh : d.headStep env false with
    | ret d' res => simp [isGood, hh] at hg
    | save d1 hd n contLen ret =>
      have hsv := headStep_saved env false d d1 hd n contLen ret hh
      have hgood : (d1.checkAndSaveHeader env io hd n contLen).1 = .good := by
        simpa [isGood, hh, hst] using hg
      have hg' : g.after d = Sent.ofHead (Header.load d.buf).2.hd := by
        have := hsv.pos
        simp only [Sent.after, hst]
        rw [if_pos (by rw [hsv.len]; omega)]
      have hset := hsv.sizes io hallow hgood
      have hbody := hsv.body hget.job hrest (checkAndSaveHeader_frame env io d1 hd n contLen)
      have hkf := (checkAndSaveHeader_takes env io d1 hd n contLen).1
      have hattr : (d1.checkAndSaveHeader env io hd n contLen).2.fi.spattr.bHeadOnly = false := by
        rw [hkf.attr, hsv.fi]
        exact hget.item
      have hout : d.procHeader env io false =
          ({ (d1.checkAndSaveHeader env io hd n contLen).2 with
            buf := (d1.checkAndSaveHeader env io hd n contLen).2.buf.drop n }, none) := by
        simp only [procHeader, hh]
        generalize d1.checkAndSaveHeader env io hd n contLen = r at hgood hattr
        obtain ⟨ev, d2⟩ := r
        simp only at hgood hattr
        rw [hgood]
        simp only [hattr, Bool.false_eq_true, if_false]
      rw [hout, hg']
      generalize (d1.checkAndSaveHeader env io hd n contLen).2 = d2 at hset hbody
      refine ⟨fun hs => absurd hs hbody.1, fun _ ha => ?_, fun _ ha hc => hset.skipping ha hc,
        fun hne _ => hbody.2.2 hne⟩
      obtain ⟨hchk, hlen, h0⟩ := hset.storing ha
      simp only
      rw [hchk, hbody.2.1]
      exact ⟨rfl, hlen, h0⟩

theorem handOver_sizes (io : Io) (d : Dl) (hok : (d.handOver io).1 = true) :
    (d.job.bAllowStoreData = true → 0 ≤ d.fi.nSizeChecked →
      (d.handOver io).2.nSizeChecked = d.fi.nSizeChecked + d.toStore.length ∧
        (d.handOver io).2.nContentLength = d.fi.nContentLength) ∧
      (d.job.bAllowStoreData = false → (d.handOver io).2 = d.fi) := by
  unfold handOver at hok ⊢
  split at hok
  · rename_i hnil
    rw [if_pos hnil]
    exact ⟨fun _ _ => ⟨by simp [hnil], rfl⟩, fun _ => rfl⟩
  · rename_i hnil
    rw [if_neg hnil]
    split at hok
    · rename_i ha
      rw [if_pos ha]
      exact ⟨fun _ h0 => FileItem.dlAddData_sizes _ _ _ hok h0, fun hf => absurd ha (by simp [hf])⟩
    · rename_i ha
      rw [if_neg ha]
      exact ⟨fun hf => absurd hf ha, fun _ => rfl⟩

theorem procData_tracks (io : Io) (g : Sent) (d : Dl) (cfg : Cfg)
    (hst : d.job.dlState = .processData ∨ d.job.dlState = .processChunkData) (h : Tracks g d)
    (hrun : Phase.after cfg false (d.procData io).1.job (d.procData io).2 = .running) :
    Tracks g (d.procData io).1 := by
  have hne : d.job.dlState ≠ .getHeader := by rcases hst with hst | hst <;> simp [hst]
  -- `d'` is the state with the same stream, some bytes later
  have hmain : ∀ d' : Dl, (d.handOver io).1 = true → d'.fi = (d.handOver io).2 →
      d'.job.bAllowStoreData = d.job.bAllowStoreData →
      d'.job.nRest + d.toStore.length = d.job.nRest → d'.job.dlState ≠ .getHeader →
      (d'.job.dlState ≠ .processData → d'.job.dlState ≠ .processChunkData → d'.job.nRest = 0) →
      Tracks g d' := by
    intro d' hok hfi hall hlen hne' hz
    obtain ⟨hstore, hskip⟩ := handOver_sizes io d hok
    refine ⟨fun hs => absurd hs hne', fun _ ha => ?_, fun _ ha hc => ?_, hz⟩
    · rw [hall] at ha
      obtain ⟨hsum, hcl, h0⟩ := h.storing hne ha
      obtain ⟨h1, h2⟩ := hstore ha h0
      rw [hfi, h1, h2]
      exact ⟨by omega, hcl, by omega⟩
    · rw [hall] at ha
      rw [hfi, hskip ha] at hc ⊢
      exact h.skipping hne ha hc
  rcases procData_cases io d with ⟨-, he⟩ | ⟨hok, hlt, he⟩ | ⟨hok, hle, he⟩
  · rw [he] at hrun
    exact absurd hrun (after_closed cfg _ _ (by decide))
  · rw [he]
    refine hmain _ hok rfl rfl ?_ hne ?_
    · simp only
      omega
    · intro h1 h2
      rcases hst with hst | hst
      · exact absurd hst h1
      · exact absurd hst h2
  · rw [he]
    refine hmain _ hok rfl rfl ?_ ?_ (fun _ _ => rfl)
    · simp only
      omega
    · simp only
      split <;> simp

theorem procChunkHead_tracks (g : Sent) (d : Dl) (cfg : Cfg) (hst : d.job.dlState = .getChunkHead)
    (h : Tracks g d)
    (hrun : Phase.after cfg false d.procChunkHead.1.job d.procChunkHead.2 = .running) :
    Tracks (g.after d) d.procChunkHead.1 := by
  have hne : d.job.dlState ≠ .getHeader := by simp [hst]
  have hrest := h.rest (by simp [hst]) (by simp [hst])
  have hg : g.after d = { g with framed := g.framed + Sent.chunkAt d.buf } := by
    simp only [Sent.after, hst]
  have hmain : ∀ d' : Dl, d'.fi = d.fi → d'.job.bAllowStoreData = d.job.bAllowStoreData →
      d'.job.nRest = Sent.chunkAt d.buf → d'.job.dlState ≠ .getHeader →
      (d'.job.dlState ≠ .processData → d'.job.dlState ≠ .processChunkData → d'.job.nRest = 0) →
      Tracks (g.after d) d' := by
    intro d' hfi hall hr hne' hz
    refine ⟨fun hs => absurd hs hne', fun _ ha => ?_, fun _ ha hc => ?_, hz⟩
    · rw [hall] at ha
      obtain ⟨hsum, hcl, h0⟩ := h.storing hne ha
      rw [hfi, hr, hg]
      rw [hrest] at hsum
      simp only at hsum ⊢
      exact ⟨by omega, hcl, h0⟩
    · rw [hall] at ha
      rw [hfi] at hc ⊢
      exact h.skipping hne ha hc
  unfold procChunkHead at hrun ⊢
  unfold Sent.chunkAt at hmain
  simp only at hrun hmain ⊢
  cases hf : find crlf (cstr (d.buf.dropWhile (fun c => c == 13 || c == 10))) with
  | none =>
    simp only [hf, Option.isSome_none, Bool.false_eq_true, if_false] at hmain ⊢
    exact hmain _ rfl rfl hrest hne (fun _ _ => hrest)
  | some p =>
    simp only [hf, Option.isSome_some, if_true] at hrun hmain ⊢
    cases hs : scanHex (d.buf.dropWhile (fun c => c == 13 || c == 10)) with
    | none =>
      simp only [hs] at hrun
      exact absurd hrun (after_closed cfg _ _ (by decide))
    | some len =>
      simp only [hs, Option.getD_some] at hmain ⊢
      split
      · exact hmain _ rfl rfl rfl (by simp) (fun _ hn => absurd rfl hn)
      · exact hmain _ rfl rfl (by simp only; omega) (by simp) (fun _ _ => hrest)

theorem procTrailer_tracks (g : Sent) (d : Dl) (hst : d.job.dlState = .getChunkTrailer)
    (h : Tracks g d) : Tracks (g.after d) d.procTrailer.1 := by
  have hne : d.job.dlState ≠ .getHeader := by simp [hst]
  have hrest := h.rest (by simp [hst]) (by simp [hst])
  have hg : g.after d = g := by simp only [Sent.after, hst]
  rw [hg]
  have hmain : ∀ d' : Dl, d'.fi = d.fi → d'.job.bAllowStoreData = d.job.bAllowStoreData →
      d'.job.nRest = d.job.nRest → d'.job.dlState ≠ .getHeader → Tracks g d' := by
    intro d' hfi hall hr hne'
    refine ⟨fun hs => absurd hs hne', fun _ ha => ?_, fun _ ha hc => ?_, fun _ _ => hr.trans hrest⟩
    · rw [hfi, hr]
      exact h.storing hne (hall ▸ ha)
    · rw [hfi] at hc ⊢
      exact h.skipping hne (hall ▸ ha) hc
  unfold procTrailer
  split
  · exact hmain _ rfl rfl rfl hne
  · split
    · exact hmain _ rfl rfl rfl hne
    · exact hmain _ rfl rfl rfl (by simp)
    · exact hmain _ rfl rfl rfl hne

theorem procStep_tracks (env : Env) (io : Io) (g : Sent) (d : Dl) (cfg : Cfg) (hget : IsGet d)
    (h : Tracks g d)
    (hrun : Phase.after cfg false (d.procStep env io false).1.job (d.procStep env io false).2 =
      .running) : Tracks (g.after d) (d.procStep env io false).1 := by
  cases hst : d.job.dlState with
  | getHeader =>
    simp only [procStep, hst] at hrun ⊢
    exact procHeader_tracks env io g d cfg hst hget h hrun
  | processData =>
    simp only [procStep, hst] at hrun ⊢
    simp only [Sent.after, hst]
    exact procData_tracks io g d cfg (.inl hst) h hrun
  | processChunkData =>
    simp only [procStep, hst] at hrun ⊢
    simp only [Sent.after, hst]
    exact procData_tracks io g d cfg (.inr hst) h hrun
  | getChunkHead =>
    simp only [procStep, hst] at hrun ⊢
    exact procChunkHead_tracks g d cfg hst h hrun
  | getChunkTrailer =>
    simp only [procStep, hst] at hrun ⊢
    exact procTrailer_tracks g d hst h
  | finishJob =>
    simp only [procStep, hst] at hrun
    exact absurd hrun (after_closed cfg _ _ (by decide))

/-- Neither the attributes of the item nor their snapshot change in a pass. -/
theorem procStep_fiAttr (env : Env) (io : Io) (bOnly : Bool) (d : Dl) :
    (d.procStep env io bOnly).1.job.fiAttr = d.job.fiAttr := by
  cases hst : d.job.dlState with
  | getHeader =>
    simp only [procStep, hst]
    cases hh : d.headStep env bOnly with
    | ret d' res =>
      have hp : (d.procHeader env io bOnly).1 = d' := by simp [procHeader, hh]
      rw [hp, (headStep_returned env bOnly d d' res hh).job]
    | save d1 hd n contLen ret =>
      have hd1 : d1.job.fiAttr = d.job.fiAttr := by
        rcases (headStep_saved env bOnly d d1 hd n contLen ret hh).framing with
          ⟨-, he⟩ | ⟨-, he⟩ | ⟨-, -, he⟩ <;> rw [he]
      have hfr := (checkAndSaveHeader_frame env io d1 hd n contLen).job
      simp only [procHeader, hh]
      generalize d1.checkAndSaveHeader env io hd n contLen = r at hfr
      obtain ⟨ev, d2⟩ := r
      have hd2 : d2.job.fiAttr = d.job.fiAttr := by
        rw [hfr]
        exact hd1
      cases ev <;> simp only <;> split <;> exact hd2
  | processData | processChunkData =>
    simp only [procStep, hst]
    rcases procData_cases io d with ⟨-, he⟩ | ⟨-, -, he⟩ | ⟨-, -, he⟩ <;> rw [he]
  | finishJob => simp only [procStep, hst]
  | getChunkHead =>
    simp only [procStep, hst, procChunkHead]
    split
    · rfl
    · split
      · rfl
      · split <;> rfl
  | getChunkTrailer =>
    simp only [procStep, hst, procTrailer]
    split
    · rfl
    · split <;> rfl

end Dl

open Dl

/-- A request starts the stream of a GET job anew. -/
theorem request_tracks (cfg : Cfg) (j : DlJob) (fi : FileItem) (g : Sent)
    (hget : j.fiAttr.bHeadOnly = false) (hst : j.dlState = .getHeader) (hrest : j.nRest = 0) :
    Tracks g ⟨(j.appendRequest cfg fi).2, fi, []⟩ := by
  refine ⟨fun _ => ⟨hrest, ?_⟩, fun hne => absurd hst hne, fun hne => absurd hst hne, fun _ _ => hrest⟩
  simp [DlJob.appendRequest, hget]

theorem trace_tracks (env : Env) (d : Dl) (phase : Phase) (g : Sent) (h : Trace env d phase g) :
    IsGet d ∧ (phase = .running → Tracks g d) := by
  induction h with
  | start fi job fresh get store new =>
    obtain ⟨hho, hns⟩ := fi.setup_attr
    have hjob : job.fiAttr = fi.setup.spattr ∧ job.dlState = .getHeader ∧ job.nRest = 0 := by
      rcases new with ⟨src, rfl⟩ | ⟨repo, path, rfl⟩ <;> exact ⟨rfl, rfl, rfl⟩
    have hget : job.fiAttr.bHeadOnly = false := by rw [hjob.1, hho, get]
    exact ⟨⟨hget, hho.trans get, hns.trans store⟩,
      fun _ => request_tracks env.cfg job fi.setup {} hget hjob.2.1 hjob.2.2⟩
  | read r _ ih =>
    obtain ⟨hget, htr⟩ := ih
    have ht := htr rfl
    exact ⟨⟨hget.job, hget.item, hget.store⟩, fun _ => ⟨ht.head, ht.storing, ht.skipping, ht.rest⟩⟩
  | @pass d g d' res io now _ hs ih =>
    obtain ⟨hget, htr⟩ := ih
    have hattr := procStep_fiAttr { env with now := now } io false d
    have hframe := (procStep_pass { env with now := now } io false d).framed.attr
    have hstep := procStep_tracks { env with now := now } io g d env.cfg hget (htr rfl)
    rw [hs] at hattr hframe hstep
    simp only at hattr hframe hstep
    exact ⟨⟨by rw [hattr]; exact hget.job, by rw [hframe]; exact hget.item,
      by rw [hframe]; exact hget.store⟩, hstep⟩
  | lose _ ih => exact ⟨ih.1, fun h => nomatch h⟩
  | reconnect backend _ _ ih =>
    exact ⟨⟨ih.1.job, ih.1.item, ih.1.store⟩,
      fun _ => request_tracks env.cfg _ _ _ ih.1.job rfl rfl⟩

/-- When a job ends with its item complete and the code 200, the two lengths of the
item are equal exactly when the lengths that the server sent fit together, or the
body was not stored at all. -/
theorem complete_length_iff (env : Env) (io : Io) (now : Int) (d d' : Dl) (g : Sent)
    (res : Option Nat) (h : Trace env d .running g) (hst : d.job.dlState = .finishJob)
    (hs : d.procStep { env with now := now } io false = (d', res))
    (hc : d'.fi.status = .complete) (hcode : d'.fi.responseStatus.code = 200) :
    d'.fi.nSizeChecked = d'.fi.nContentLength ↔ d.job.bAllowStoreData = false ∨ g.Agrees := by
  obtain ⟨hget, htr⟩ := trace_tracks env d .running g h
  have ht := htr rfl
  have hne : d.job.dlState ≠ .getHeader := by simp [hst]
  have hrest := ht.rest (by simp [hst]) (by simp [hst])
  have hd' : d'.fi = d.fi.dlFinish false io.head := by
    simp only [procStep, hst] at hs
    rw [← (Prod.mk.inj hs).1]
  obtain ⟨hchk, hresp, hlen, hfix⟩ := FileItem.dlFinish_sizes d.fi false io.head
  rw [hd'] at hc hcode ⊢
  rw [hresp] at hcode
  rw [hchk]
  cases ha : d.job.bAllowStoreData with
  | false =>
    have heq := ht.skipping hne ha hcode
    simp only [true_or, iff_true]
    rcases hlen with hlen | ⟨-, hlen⟩
    · rw [hlen, heq]
    · exact hlen.symm
  | true =>
    obtain ⟨hsum, hcl, h0⟩ := ht.storing hne ha
    rw [hrest] at hsum
    simp only [Bool.true_eq_false, false_or, Sent.Agrees]
    by_cases hneg : d.fi.nContentLength < 0
    · rw [hfix hget.store hc hneg]
      exact ⟨fun _ => .inl (by omega), fun _ => rfl⟩
    · rcases hlen with hlen | ⟨hn, -⟩
      · rw [hlen]
        constructor
        · intro he
          right
          omega
        · rintro (hlt | he)
          · omega
          · omega
      · exact absurd hn hneg

/-- A chunked response with a Content-Length of its own. -/
def twoLengths (length : Bytes) : Bytes :=
  lit "HTTP/1.1 200 OK\r\nTransfer-Encoding: chunked\r\nContent-Length: " ++ length ++
    lit "\r\n\r\n5\r\nhello\r\n0\r\n\r\n"

/-- The job on an empty cache path that gets a response in one read. -/
def getAll (buf : Bytes) : Dl × Phase × Sent :=
  let fi := FileItem.setup { sPathRel := lit "m/a" }
  (⟨((DlJob.new plainEnv.cfg fi {}).appendRequest plainEnv.cfg fi).2, fi, buf⟩, .running, {})

def nextPass (s : Dl × Phase × Sent) : Dl × Phase × Sent :=
  let r := s.1.procStep plainEnv {} false
  (r.1, .after plainEnv.cfg false r.1.job r.2, s.2.2.after s.1)

def afterPasses (buf : Bytes) : Nat → Dl × Phase × Sent
  | 0 => getAll buf
  | n + 1 => nextPass (afterPasses buf n)

theorem afterPasses_trace (buf : Bytes) (n : Nat)
    (hrun : ∀ k < n, (afterPasses buf k).2.1 = .running) :
    Trace plainEnv (afterPasses buf n).1 (afterPasses buf n).2.1 (afterPasses buf n).2.2 := by
  induction n with
  | zero => exact .read buf (.start { sPathRel := lit "m/a" } _ rfl rfl rfl (.inl ⟨{}, rfl⟩))
  | succ n ih =>
    have h := ih (fun k hk => hrun k (Nat.lt_succ_of_lt hk))
    rw [hrun n (Nat.lt_succ_self n)] at h
    exact .pass {} 0 h rfl

/-- Five passes lead to the end of the response: head, chunk, data, last chunk, trailer. -/
theorem twoLengths_trace (length : Bytes)
    (hrun : ∀ k < 6, (afterPasses (twoLengths length) k).2.1 = .running) :
    Trace plainEnv (afterPasses (twoLengths length) 5).1 .running
      (afterPasses (twoLengths length) 5).2.2 := by
  have h := afterPasses_trace (twoLengths length) 5 (fun k hk => hrun k (by omega))
  rw [hrun 5 (by omega)] at h
  exact h

theorem afterPasses_five :
    (∀ k < 6, (afterPasses (twoLengths (lit "5")) k).2.1 = .running) ∧
      (afterPasses (twoLengths (lit "5")) 5).1.job.dlState = .finishJob ∧
      (afterPasses (twoLengths (lit "5")) 6).1.fi.status = .complete ∧
      (afterPasses (twoLengths (lit "5")) 6).1.fi.responseStatus.code = 200 ∧
      (afterPasses (twoLengths (lit "5")) 5).2.2.Agrees := by
  simp only [twoLengths, lit]
  rw [String.toList_ofList, String.toList_ofList, String.toList_ofList]
  decide +kernel

/-- Lengths that agree. -/
theorem complete_length_five :
    (afterPasses (twoLengths (lit "5")) 6).1.fi.nSizeChecked =
      (afterPasses (twoLengths (lit "5")) 6).1.fi.nContentLength :=
  have ⟨hrun, hst, hc, hcode, hagrees⟩ := afterPasses_five
  (complete_length_iff plainEnv {} 0 _ _ _ _ (twoLengths_trace (lit "5") hrun) hst rfl hc hcode).mpr (.inr hagrees)

/-- Five bytes are stored and a hundred announced: the item is complete. -/
theorem complete_length_hundred :
    ∃ d d' g, Trace plainEnv d .running g ∧ d.job.dlState = .finishJob ∧
      d.procStep plainEnv {} false = (d', some HINT_DONE) ∧ d'.fi.status = .complete ∧
      d'.fi.responseStatus.code = 200 ∧ d'.fi.nSizeChecked = 5 ∧ d'.fi.nContentLength = 100 ∧
      d'.fi.disk.head = some (.fields (some 100) none (some (lit "http://"))) := by
  refine ⟨_, (afterPasses (twoLengths (lit "100")) 6).1, _, twoLengths_trace (lit "100") ?_, ?_⟩
  all_goals
    simp only [twoLengths, lit]
    rw [String.toList_ofList, String.toList_ofList, String.toList_ofList]
    decide +kernel

end Acng
