import Acng.Proofs.ItemFrame
import Acng.Proofs.Registry
import Acng.Response
import Acng.Sharing

namespace Acng
open Lib

/-- The attributes stay, and the time is kept or set to the current one. -/
structure FileItem.Timed (now : Int) (fi fi' : FileItem) : Prop where
  attr : fi'.spattr = fi.spattr
  started : fi'.nTimeDlStarted = fi.nTimeDlStarted ∨ fi'.nTimeDlStarted = now

namespace FileItem

/-- The handlers of the item leave the time alone. -/
def SameTime (fi fi' : FileItem) : Prop :=
  fi'.spattr = fi.spattr ∧ fi'.nTimeDlStarted = fi.nTimeDlStarted

theorem sameTime_open : OpenRel SameTime where
  refl _ := ⟨rfl, rfl⟩
  trans h g := ⟨g.1.trans h.1, g.2.trans h.2⟩
  files _ _ _ _ := ⟨rfl, rfl⟩
  zero _ _ := ⟨rfl, rfl⟩
  receiving _ := ⟨rfl, rfl⟩
  error _ _ _ := ⟨rfl, rfl⟩

theorem dlAddData_sameTime (fi : FileItem) (chunk : Bytes) (io : StoreIo) :
    SameTime fi (fi.dlAddData chunk io).2 :=
  dlAddData_rel sameTime_open (fun _ _ => ⟨rfl, rfl⟩) (fun _ _ _ => ⟨rfl, rfl⟩) fi chunk io

theorem dlFinish_sameTime (fi : FileItem) (force : Bool) (io : HeadIo) :
    SameTime fi (fi.dlFinish force io) := by
  obtain ⟨status, len, head, hf⟩ := dlFinish_frame fi force io
  rw [hf]
  exact ⟨rfl, rfl⟩

theorem dlStarted_sameTime (lib : DateLib) (fi : FileItem) (raw : Nat) (modDate : HttpDate)
    (origin : Bytes) (status : RemoteStatus) (seek announced : Int) :
    SameTime fi (fi.dlStarted lib raw modDate origin status seek announced).2 := by
  unfold dlStarted
  simp only
  split
  · exact ⟨rfl, rfl⟩
  · split <;> split <;> exact ⟨rfl, rfl⟩

theorem dlRefCountDec_sameTime (fi : FileItem) (reason : RemoteStatus) :
    SameTime fi (fi.dlRefCountDec reason) := by
  unfold dlRefCountDec
  simp only
  split
  · exact ⟨rfl, rfl⟩
  · split <;> exact ⟨rfl, rfl⟩

/-- A volatile item keeps its attributes when it is set up. -/
theorem setup_sameTime (fi : FileItem) :
    fi.setup.nTimeDlStarted = fi.nTimeDlStarted ∧
      (fi.spattr.bVolatile = true → fi.setup.spattr = fi.spattr) := by
  obtain ⟨-, ht, ha⟩ := setup_setUp fi
  refine ⟨ht, fun hv => ?_⟩
  obtain ha | ⟨hw, -⟩ := ha
  · exact ha
  · rw [hw] at hv
    cases hv

theorem SameTime.timed {fi fi' : FileItem} (h : SameTime fi fi') (now : Int) : Timed now fi fi' :=
  ⟨h.1, .inl h.2⟩

theorem Timed.then {now : Int} {a b c : FileItem} (h : Timed now a b) (g : SameTime b c) :
    Timed now a c :=
  ⟨g.1.trans h.attr, by rw [g.2]; exact h.started⟩

end FileItem

namespace Dl

open FileItem

theorem startDownload_timed (env : Env) (io : Io) (d : Dl) (h : Header) (raw : Nat) (loc : Bytes)
    (contLen : Int) {fi : FileItem} (hfi : SameTime fi d.fi) :
    Timed env.now fi (d.startDownload env io h raw loc contLen).2.fi := by
  have hk := dlStarted_sameTime env.dates (d.markAssigned env).fi raw
    (HttpDate.ofCStr env.dates (h.h .lastModified)) (d.originOf loc) h.status
    d.job.nUsedRangeStartPos contLen
  have hmark : Timed env.now fi (d.markAssigned env).fi := ⟨hfi.1, .inr rfl⟩
  cases hr : (d.markAssigned env).fi.dlStarted env.dates raw
      (HttpDate.ofCStr env.dates (h.h .lastModified)) (d.originOf loc) h.status
      d.job.nUsedRangeStartPos contLen with
  | mk ok fi' =>
    rw [hr] at hk
    rw [startDownload_of env io d h raw loc contLen ok fi' hr]
    cases ok with
    | false => exact hmark.then hk
    | true =>
      simp only [if_true]
      split
      · exact hmark.then hk
      · exact (hmark.then hk).then (dlFinish_sameTime _ _ _)

theorem checkAndSaveHeader_timed (env : Env) (io : Io) (d : Dl) (h : Header) (raw : Nat)
    (contLen : Int) : Timed env.now d.fi (d.checkAndSaveHeader env io h raw contLen).2.fi := by
  have hc := checkAndSaveHeader_cases env io d h raw contLen
  generalize d.checkAndSaveHeader env io h raw contLen = r at hc ⊢
  cases hc with
  | busy hb => exact ⟨rfl, .inl rfl⟩
  | error hf msg k => exact ⟨rfl, .inr rfl⟩
  | restart hf code none => exact ⟨rfl, .inl rfl⟩
  | probe hf code value first total range found hp =>
    refine Timed.then ?_ (dlFinish_sameTime _ _ _)
    exact ⟨rfl, .inr rfl⟩
  | full hf code => exact startDownload_timed env io _ h raw [] contLen ⟨rfl, rfl⟩
  | part hf code value first total range found hp start pos le =>
    exact startDownload_timed env io _ (h.setStatus 200 (lit "OK")) raw [] (strtoll total) ⟨rfl, rfl⟩
  | other hf code free loc => exact startDownload_timed env io _ h raw loc (-1) ⟨rfl, rfl⟩

theorem handOver_sameTime (io : Io) (d : Dl) : SameTime d.fi (d.handOver io).2 := by
  unfold handOver
  split
  · exact ⟨rfl, rfl⟩
  · split
    · exact dlAddData_sameTime _ _ _
    · exact ⟨rfl, rfl⟩

theorem procHeader_timed (env : Env) (io : Io) (bOnly : Bool) (d : Dl) :
    Timed env.now d.fi (d.procHeader env io bOnly).1.fi := by
  cases hh : d.headStep env bOnly with
  | ret d' res =>
    have hp : (d.procHeader env io bOnly).1 = d' := by simp [procHeader, hh]
    rw [hp, (headStep_returned env bOnly d d' res hh).fi]
    exact ⟨rfl, .inl rfl⟩
  | save d1 h n contLen ret =>
    have ht := checkAndSaveHeader_timed env io d1 h n contLen
    have hout : (d.procHeader env io bOnly).1.fi = (d1.checkAndSaveHeader env io h n contLen).2.fi := by
      simp only [procHeader, hh]
      generalize d1.checkAndSaveHeader env io h n contLen = r
      obtain ⟨ev, d2⟩ := r
      cases ev <;> simp only <;> split <;> rfl
    rw [hout, ← (headStep_saved env bOnly d d1 h n contLen ret hh).fi]
    exact ht

theorem procStep_timed (env : Env) (io : Io) (bOnly : Bool) (d : Dl) :
    Timed env.now d.fi (d.procStep env io bOnly).1.fi := by
  have hsame : Timed env.now d.fi d.fi := ⟨rfl, .inl rfl⟩
  have hdata : Timed env.now d.fi (d.procData io).1.fi := by
    have hk := (handOver_sameTime io d).timed env.now
    rcases procData_cases io d with ⟨-, he⟩ | ⟨-, -, he⟩ | ⟨-, -, he⟩ <;> rw [he] <;> exact hk
  unfold procStep
  split
  · exact procHeader_timed env io bOnly d
  · exact hdata
  · exact hdata
  · exact (dlFinish_sameTime _ _ _).timed _
  · unfold procChunkHead
    simp only
    split
    · exact hsame
    · split
      · exact hsame
      · split <;> exact hsame
  · unfold procTrailer
    split
    · exact hsame
    · split <;> exact hsame

end Dl

/-- The time of the download start is only ever set to the current time. -/
theorem Works.started {env : Env} {fi fi' : FileItem} (h : Works env fi fi') :
    fi'.nTimeDlStarted = fi.nTimeDlStarted ∨ fi'.nTimeDlStarted = env.now := by
  cases h with
  | setup => exact .inl (FileItem.setup_sameTime fi).1
  | dlRefCountAdd => exact .inl rfl
  | dlRefCountDec reason => exact .inl (FileItem.dlRefCountDec_sameTime fi reason).2
  | dlSetError errState kmode => exact .inl rfl
  | incomming job buf io bOnly => exact (Dl.procStep_timed env io bOnly ⟨job, fi, buf⟩).started

theorem Works.attr {env : Env} {fi fi' : FileItem} (h : Works env fi fi')
    (hv : fi.spattr.bVolatile = true) : fi'.spattr = fi.spattr := by
  cases h with
  | setup => exact (FileItem.setup_sameTime fi).2 hv
  | dlRefCountAdd => rfl
  | dlRefCountDec reason => exact (FileItem.dlRefCountDec_sameTime fi reason).1
  | dlSetError errState kmode => rfl
  | incomming job buf io bOnly => exact (Dl.procStep_timed env io bOnly ⟨job, fi, buf⟩).attr

/-- The steps of the download system do nothing else to an item with storage. -/
theorem World.Step.works {env : Env} {own : Nat → Bool} {w w' : World} (h : Step env own w w')
    {i : Nat} (hown : own i = false) :
    w'.items i = w.items i ∨ w'.items i = (w.items i).expire ∨
      ∃ now, Works { env with now := now } (w.items i) (w'.items i) := by
  have hset : ∀ (j : Nat) (fi : FileItem), (i = j → fi = (w.items i).expire ∨
      ∃ now, Works { env with now := now } (w.items i) fi) →
      (w.setItem j fi).items i = w.items i ∨ (w.setItem j fi).items i = (w.items i).expire ∨
        ∃ now, Works { env with now := now } (w.items i) ((w.setItem j fi).items i) := by
    intro j fi hj
    by_cases he : i = j
    · have : (w.setItem j fi).items i = fi := by simp [setItem, he]
      rw [this]
      exact .inr (hj he)
    · exact .inl (by simp [setItem, he])
  cases h with
  | create s j job hq hj =>
    exact hset j _ (fun he => .inr ⟨0, by rw [he]; exact .dlRefCountAdd⟩)
  | splice qs hq => exact .inl rfl
  | moveJob s j hq => exact .inl rfl
  | destroy s j hq =>
    simp only [release]
    split
    · exact .inl rfl
    · rename_i n hn
      refine hset n _ (fun he => .inr ⟨0, ?_⟩)
      rw [he]
      simp only [PipeJob.release]
      exact .dlRefCountDec _
  | incomming s j n buf io now bOnly hq hi hown' hp ho =>
    exact hset n _ (fun he => .inr ⟨now, by rw [he]; exact .incomming j.job buf io bOnly⟩)
  | connectionLost s j hq hp => exact .inl rfl
  | reconnect s j hq hp => exact .inl rfl
  | request s j n hq hi => exact .inl rfl
  | configure s j backend msg hq => exact .inl rfl
  | setup n hown' => exact hset n _ (fun he => .inr ⟨0, by rw [he]; exact .setup⟩)
  | setError n errState kmode =>
    exact hset n _ (fun he => .inr ⟨0, by rw [he]; exact .dlSetError errState kmode⟩)
  | expire n => exact hset n _ (fun he => .inl (by rw [he]))
  | foreign s j n job phase fi hq hi hown' hc =>
    have hne : i ≠ n := by
      rintro rfl
      rw [hown] at hown'
      cases hown'
    exact .inl (by simp [setItem, hne])

namespace Registry

/-- Nobody has touched what an item is about. -/
def SameItem (it it' : RegItem) : Prop :=
  it'.fi = it.fi ∧ it'.bCreateItemMustDisplace = it.bCreateItemMustDisplace

theorem SameItem.refl (it : RegItem) : SameItem it it := ⟨rfl, rfl⟩

theorem SameItem.trans {a b c : RegItem} (h : SameItem a b) (g : SameItem b c) : SameItem a c :=
  ⟨g.1.trans h.1, g.2.trans h.2⟩

theorem setItem_same (w : Registry) (i : Nat) (it : RegItem) (j : Nat) (hf : it.fi = (w.items i).fi)
    (hd : it.bCreateItemMustDisplace = (w.items i).bCreateItemMustDisplace) :
    SameItem (w.items j) ((w.setItem i it).items j) := by
  by_cases hj : j = i
  · rw [hj, setItem_self]
    exact ⟨hf, hd⟩
  · rw [setItem_other _ _ _ _ hj]
    exact .refl _

theorem use_same (w : Registry) (i j : Nat) : SameItem (w.items j) ((w.use i).items j) :=
  setItem_same w i _ j rfl rfl

theorem emplace_same (w : Registry) (i j : Nat) : SameItem (w.items j) ((w.emplace i).items j) :=
  setItem_same w i _ j rfl rfl

theorem make_same (w : Registry) (fi : FileItem) (j : Nat) (hj : j < w.next) :
    SameItem (w.items j) ((w.make fi).items j) := by
  have : (w.make fi).items j = w.items j := setItem_other w w.next j _ (by omega)
  rw [this]
  exact .refl _

theorem regnew_same (w : Registry) (k : Bytes) (spattr : SpecialPurposeAttr) (disk : Disk) (j : Nat)
    (hj : j < w.next) : SameItem (w.items j) ((w.regnew k spattr disk).1.items j) :=
  ((make_same w _ j hj).trans (use_same _ _ j)).trans (emplace_same _ _ j)

/-- Calls keep the data of an item unless they are meant for it or displace it. -/
theorem call_same (cfg : RegistryCfg) (w : Registry) (c : Call) {k : Bytes} {s : Slot}
    (hl : w.Linked) (hs : w.mapItems k = some s) (ha : (Op.call c).Aside cfg k s.item) :
    SameItem (w.items s.item) ((w.call cfg c).items s.item) := by
  have hlt := hl.known k s hs
  cases c with
  | make fi => exact make_same w fi s.item hlt
  | createFor path how spattr now io =>
    have hc := createFor_cases cfg w path how spattr now io
    simp only [call, handOut]
    generalize w.createFor cfg path how spattr now io = r at hc ⊢
    cases hc with
    | new hn => exact regnew_same w _ _ _ _ hlt
    | shared s' hs' hv => exact use_same w _ _
    | side s' hs' hv => exact (make_same w _ _ hlt).trans (use_same _ _ _)
    | failed s' hs' hv hm => exact .refl _
    | displaced s' hs' hv hp hm =>
      have hne : s.item ≠ s'.item := by
        intro he
        have hk := hl.once hs' hs he
        have hhow := ha hk.symm
        simp [RegItem.verdict, hhow] at hv
      refine SameItem.trans ?_ (regnew_same (w.abandon cfg _ s'.item now) _ _ _ _ hlt)
      have : (w.abandon cfg (cfg.normalizePath path) s'.item now).items s.item = w.items s.item :=
        setItem_other w s'.item s.item _ hne
      rw [this]
      exact .refl _
  | createCustom i isShareable =>
    have hc := createCustom_cases w i isShareable
    simp only [call, handOut]
    generalize w.createCustom i isShareable = r at hc ⊢
    cases hc with
    | null _ => exact .refl _
    | conflict _ _ _ _ => exact .refl _
    | installed _ _ _ => exact (emplace_same w i _).trans (use_same _ i _)
  | moveConstruct src =>
    simp only [call, moveConstruct]
    split <;> exact .refl _
  | moveAssign dst src =>
    simp only [call, moveAssign]
    split <;> exact .refl _
  | touch i fi =>
    have : (w.touch i fi).items s.item = w.items s.item := setItem_other w i s.item _ (Ne.symm ha)
    simp only [call, this]
    exact .refl _

/-- A destructor keeps the data of an item that has users left. -/
theorem drop_same (cfg : RegistryCfg) (w : Registry) (i j : Nat) (manger : Bool) (rel : Release)
    (hu : 1 ≤ ((w.drop cfg i manger rel).items j).usercount) :
    SameItem (w.items j) ((w.drop cfg i manger rel).items j) := by
  have hc := drop_cases cfg w i manger rel
  generalize w.drop cfg i manger rel = w' at hc hu ⊢
  cases hc with
  | used _ => exact setItem_same w i _ j rfl rfl
  | ready _ _ => exact .refl _
  | last h1 _ _ =>
    rw [setItem_usercount] at hu
    split at hu
    · simp only at hu
      omega
    · rename_i hj
      rw [setItem_other _ _ _ _ hj]
      exact .refl _
  | unreg h1 _ _ =>
    rw [unreg_items] at hu ⊢
    by_cases hj : j = i
    · rw [hj, Function.update_self, setItem_self] at hu
      simp only at hu
      omega
    · rw [Function.update_of_ne hj, setItem_other _ _ _ _ hj]
      exact .refl _

theorem dropAll_same (cfg : RegistryCfg) (j : Nat) : ∀ (is : List Nat) (rel : Nat → Release)
    (w : Registry), 1 ≤ ((dropAll cfg is rel w).items j).usercount →
    SameItem (w.items j) ((dropAll cfg is rel w).items j)
  | [], _, _, _ => .refl _
  | i :: is, rel, w, hu =>
    have hle := dropAll_usercount_le cfg j is (fun n => rel (n + 1)) (w.dropRef cfg i (rel 0))
    (drop_same cfg w i j _ (rel 0) (hu.trans hle)).trans
      (dropAll_same cfg j is (fun n => rel (n + 1)) _ hu)

theorem apply_same (cfg : RegistryCfg) (w : Registry) (op : Op) {k : Bytes} {s : Slot}
    (hl : w.Linked) (hs : w.mapItems k = some s) (ha : op.Aside cfg k s.item)
    (hu : 1 ≤ ((w.apply cfg op).items s.item).usercount) :
    SameItem (w.items s.item) ((w.apply cfg op).items s.item) := by
  cases op with
  | call c => exact call_same cfg w c hl hs ha
  | destroy n rel =>
    simp only [apply, destroy] at hu ⊢
    split at hu
    · rename_i i hp
      exact drop_same cfg _ i s.item _ rel hu
    · exact .refl _
  | backgroundCleanup now rel => exact dropAll_same cfg s.item _ rel _ hu

/-- For a client with the same attributes only the time counts. -/
theorem verdict_same_attr (cfg : RegistryCfg) (it : RegItem) (now : Int)
    (hd : it.bCreateItemMustDisplace = false) :
    it.verdict cfg .autoMoveOutOfTheWay it.fi.spattr now =
      if it.fi.nTimeDlStarted + cfg.stucksecs < now then .displace else .share := by
  unfold RegItem.verdict FileItem.isVolatile
  by_cases h : it.fi.nTimeDlStarted + cfg.stucksecs < now
  · simp [hd, h]
  · cases hh : it.fi.spattr.bHeadOnly <;> simp [hd, h]

theorem regnew_item (w : Registry) (k : Bytes) (spattr : SpecialPurposeAttr) (disk : Disk) :
    (w.regnew k spattr disk).1.items w.next =
      { fi := { sPathRel := k, spattr := spattr, disk := disk }
        usercount := 1
        globRef := some ⟨k, w.nextNode⟩
        owner := true } := by
  simp [regnew, emplace, use, make, setItem]

/-- The item is registered and as its clients asked for it. -/
structure Serving (k : Bytes) (spattr : SpecialPurposeAttr) (t0 : Int) (i : Nat) (t : Int)
    (w : Registry) : Prop where
  inv : w.Inv
  entry : ∃ s, w.mapItems k = some s ∧ s.item = i
  attr : (w.items i).fi.spattr = spattr
  plain : (w.items i).bCreateItemMustDisplace = false
  started : (w.items i).fi.nTimeDlStarted = 0 ∨ t0 ≤ (w.items i).fi.nTimeDlStarted
  volatile : spattr.bVolatile = true
  clock : 0 ≤ t0 ∧ t0 ≤ t

/-- Such a client gets the item exactly if its download is known to be recent. -/
theorem Serving.returned_iff {cfg : RegistryCfg} {k : Bytes} {spattr : SpecialPurposeAttr}
    {t0 t : Int} {i : Nat} {w : Registry} (h : Serving k spattr t0 i t w) {path : Bytes}
    (hk : cfg.normalizePath path = k) (io : CreateIo) (hr : Recent cfg t0 (w.items i).fi t) :
    (w.createFor cfg path .autoMoveOutOfTheWay spattr t io).2 = some i ↔
      HeadTaken cfg (w.items i).fi t := by
  obtain ⟨s, hs, hi⟩ := h.entry
  have hlt := h.inv.known k s hs
  have hcond : ¬ (w.items i).fi.nTimeDlStarted + cfg.stucksecs < t ↔
      HeadTaken cfg (w.items i).fi t := by
    have := h.started
    have := h.clock
    unfold HeadTaken
    rcases hr with hr | hr <;> omega
  have hv := verdict_same_attr cfg (w.items i) t h.plain
  rw [h.attr] at hv
  rw [← hcond]
  by_cases hd : (w.items i).fi.nTimeDlStarted + cfg.stucksecs < t
  · rw [if_pos hd] at hv
    simp only [createFor, hk, hs, hi, hv, hd, not_true_eq_false, iff_false]
    split
    · simp
    · simp only [abandon, regnew, Option.some.injEq, setItem]
      omega
  · rw [if_neg hd] at hv
    simp only [createFor, hk, hs, hi, hv, hd, not_false_eq_true, share]

namespace Serving

variable {cfg : RegistryCfg} {env : Env} {k : Bytes} {spattr : SpecialPurposeAttr} {t0 t : Int}
  {i : Nat} {w : Registry}

theorem same {w' : Registry} (h : Serving k spattr t0 i t w) (hw : w'.Inv)
    (he : ∃ s, w'.mapItems k = some s ∧ s.item = i) (hs : SameItem (w.items i) (w'.items i)) :
    Serving k spattr t0 i t w' where
  inv := hw
  entry := he
  attr := by rw [hs.1]; exact h.attr
  plain := by rw [hs.2]; exact h.plain
  started := by rw [hs.1]; exact h.started
  volatile := h.volatile
  clock := h.clock

theorem request (h : Serving k spattr t0 i t w) {path : Bytes} (hk : cfg.normalizePath path = k)
    (io : CreateIo) (hr : Recent cfg t0 (w.items i).fi t) (ok : HeadTaken cfg (w.items i).fi t) :
    Serving k spattr t0 i t (w.call cfg (.createFor path .autoMoveOutOfTheWay spattr t io)) := by
  have hret := (h.returned_iff hk io hr).mpr ok
  have hinv := h.inv.call cfg (.createFor path .autoMoveOutOfTheWay spattr t io) trivial
  obtain ⟨s, hs, hi⟩ := h.entry
  have hlt := h.inv.known k s hs
  have hc := createFor_cases cfg w path .autoMoveOutOfTheWay spattr t io
  simp only [call] at hinv ⊢
  generalize w.createFor cfg path .autoMoveOutOfTheWay spattr t io = r at hc hret hinv ⊢
  cases hc with
  | new hn =>
    rw [hk, hs] at hn
    cases hn
  | shared s' hs' hv => exact h.same hinv ⟨s, hs, hi⟩ (use_same w _ i)
  | side s' hs' hv =>
    simp only [sideTrack, Option.some.injEq] at hret
    omega
  | failed s' hs' hv hm => cases hret
  | displaced s' hs' hv hp hm =>
    simp only [abandon, regnew, setItem, Option.some.injEq] at hret
    omega

theorem works (h : Serving k spattr t0 i t w) (fi : FileItem)
    (hw : Works { env with now := t } (w.items i).fi fi) :
    Serving k spattr t0 i t (w.call cfg (.touch i fi)) := by
  have hv : (w.items i).fi.spattr.bVolatile = true := by rw [h.attr]; exact h.volatile
  have hitem : (w.touch i fi).items i =
      { w.items i with fi := { fi with sPathRel := (w.items i).fi.sPathRel } } := setItem_self _ _ _
  refine ⟨h.inv.touch i fi, h.entry, ?_, ?_, ?_, h.volatile, h.clock⟩
  · simp only [call, hitem, hw.attr hv]
    exact h.attr
  · simp only [call, hitem]
    exact h.plain
  · simp only [call, hitem]
    have := h.clock
    rcases hw.started with he | he
    · rw [he]
      exact h.started
    · simp only at he
      omega

theorem aside (h : Serving k spattr t0 i t w) (op : Op) (ha : op.Aside cfg k i)
    (hc : op.ConflictFree w) (hu : 1 ≤ (w.apply cfg op).users i) :
    Serving k spattr t0 i t (w.apply cfg op) := by
  have hinv := h.inv.apply cfg op hc
  have hcount := hinv.count i
  simp only [List.count_nil, Nat.add_zero] at hcount
  obtain ⟨s, hs, rfl⟩ := h.entry
  have hd : ¬ w.Displaces cfg k op := by
    cases op with
    | call c =>
      cases c with
      | createFor path how spattr' now io =>
        rintro ⟨hk, -, -, s', hs', hv⟩
        simp [RegItem.verdict, ha hk] at hv
      | _ => exact id
    | _ => exact id
  have hkept : (w.apply cfg op).mapItems k = some s := by
    by_contra hlost
    have := apply_lost h.inv op hs hd hlost
    omega
  exact h.same hinv ⟨s, hkept, rfl⟩
    (apply_same cfg w op h.inv.toLinked hs ha (by omega))

end Serving

/-- The run lemma: as long as the clients come after the first head they share the item. -/
theorem Requests.serving {cfg : RegistryCfg} {env : Env} {k : Bytes} {spattr : SpecialPurposeAttr}
    {t0 t : Int} {i : Nat} {w : Registry} (h : Requests cfg env true k spattr t0 i t w) :
    Serving k spattr t0 i t w := by
  induction h with
  | first ops path io hops ht hk hnone hv hi =>
    subst hi hk
    have hw := Inv.run cfg ops Inv.empty hops
    have hinv := hw.call cfg (.createFor path .autoMoveOutOfTheWay spattr t0 io) trivial
    have hnew : (run cfg {} ops).createFor cfg path .autoMoveOutOfTheWay spattr t0 io =
        (run cfg {} ops).regnew (cfg.normalizePath path) spattr io.disk := by
      simp only [createFor, hnone]
    simp only [call, hnew] at hinv ⊢
    have hitem := regnew_item (run cfg {} ops) (cfg.normalizePath path) spattr io.disk
    refine ⟨hinv, ⟨⟨(run cfg {} ops).nextNode, (run cfg {} ops).next⟩, ?_, rfl⟩, ?_, ?_, ?_, hv, ht,
      le_refl _⟩
    · simp only [handOut, regnew_mapItems, if_true]
    · simp only [handOut, hitem]
    · simp only [handOut, hitem]
    · simp [handOut, hitem]
  | wait t' h ht ih => exact { ih with clock := ⟨ih.clock.1, ih.clock.2.trans ht⟩ }
  | request path io h hk hr ok ih => exact ih.request hk io hr (ok rfl)
  | works fi h hw ih => exact ih.works fi hw
  | aside op h ha hc hu ih => exact ih.aside op ha hc hu

/-- In every such run the next client gets the same item exactly if its first response head
has been taken, however the requests and the work of the downloader are interleaved. -/
theorem same_item_iff {cfg : RegistryCfg} {env : Env} {k : Bytes} {spattr : SpecialPurposeAttr}
    {t0 t : Int} {i : Nat} {w : Registry} (h : Requests cfg env true k spattr t0 i t w)
    (path : Bytes) (hk : cfg.normalizePath path = k) (io : CreateIo)
    (hr : Recent cfg t0 (w.items i).fi t) :
    (w.createFor cfg path .autoMoveOutOfTheWay spattr t io).2 = some i ↔
      HeadTaken cfg (w.items i).fi t :=
  h.serving.returned_iff hk io hr

def volatileAttr : SpecialPurposeAttr := { bVolatile := true }

/-- One client has asked for a volatile file. -/
def oneClient : Registry :=
  (run {} {} []).call {} (.createFor (lit "d/InRelease") .autoMoveOutOfTheWay volatileAttr 1000 {})

theorem oneClient_requests (strict : Bool) :
    Requests {} plainEnv strict (lit "d/InRelease") volatileAttr 1000 0 1000 oneClient :=
  .first [] (lit "d/InRelease") {} trivial (by decide) rfl rfl rfl rfl

/-- The item behind the first response head. -/
def headReceived : FileItem :=
  ((⟨.new plainEnv.cfg (oneClient.items 0).fi {}, (oneClient.items 0).fi, plainHead⟩ : Dl).procStep
    { plainEnv with now := 1001 } {} false).1.fi

/-- The second client comes after the head. -/
theorem same_item_after_head :
    ((oneClient.call {} (.touch 0 headReceived)).createFor {} (lit "d/InRelease")
      .autoMoveOutOfTheWay volatileAttr 1002 {}).2 = some 0 := by
  have hrun : Requests {} plainEnv true (lit "d/InRelease") volatileAttr 1000 0 1002
      (oneClient.call {} (.touch 0 headReceived)) :=
    .wait 1002 (.works headReceived (.wait 1001 (oneClient_requests true) (by decide))
      (.incomming _ _ _ _)) (by decide)
  exact (same_item_iff hrun (lit "d/InRelease") rfl {} (.inl (by decide))).mpr
    (.inl (by decide))

/-- The second client comes one second after the first and before any head. -/
theorem waiting_item_displaced :
    Requests {} plainEnv false (lit "d/InRelease") volatileAttr 1000 0 1001 oneClient ∧
      Recent {} 1000 (oneClient.items 0).fi 1001 ∧
      (oneClient.createFor {} (lit "d/InRelease") .autoMoveOutOfTheWay volatileAttr 1001 {}).2 =
        some 1 :=
  ⟨.wait 1001 (oneClient_requests false) (by decide), .inl (by decide), by decide⟩

/-- The item is not passed to `Create` once more. -/
def Op.NotFor (x : Nat) : Op → Prop
  | .call (.createCustom i _) => i ≠ x
  | _ => True

/-- An item that can only be found under a path that nobody can ask for, if at all. -/
structure Hidden (cfg : RegistryCfg) (x : Nat) (w : Registry) : Prop where
  linked : w.Linked
  known : x < w.next
  hidden : (∀ k s, w.mapItems k = some s → s.item ≠ x) ∨
    ∀ p, cfg.normalizePath p ≠ (w.items x).fi.sPathRel

namespace Hidden

variable {cfg : RegistryCfg} {x : Nat} {w : Registry}

/-- Under the keys that can be asked for there are other items. -/
theorem other (h : Hidden cfg x w) {path : Bytes} {s : Slot}
    (hs : w.mapItems (cfg.normalizePath path) = some s) : s.item ≠ x := by
  intro he
  rcases h.hidden with hno | hp
  · exact hno _ s hs he
  · have := h.linked.key _ s hs
    rw [he] at this
    exact hp path this.symm

theorem createFor_ne (h : Hidden cfg x w) (path : Bytes) (how : ESharingHow)
    (spattr : SpecialPurposeAttr) (now : Int) (io : CreateIo) :
    (w.createFor cfg path how spattr now io).2 ≠ some x := by
  have hlt := h.known
  have hc := createFor_cases cfg w path how spattr now io
  generalize w.createFor cfg path how spattr now io = r at hc ⊢
  cases hc with
  | new hn =>
    simp only [regnew, ne_eq, Option.some.injEq]
    omega
  | shared s hs hv =>
    simp only [share, ne_eq, Option.some.injEq]
    exact h.other hs
  | side s hs hv =>
    simp only [sideTrack, ne_eq, Option.some.injEq]
    omega
  | failed s hs hv hm => simp
  | displaced s hs hv hp hm =>
    simp only [abandon, regnew, setItem, ne_eq, Option.some.injEq]
    omega

/-- Steps that neither enter the item nor change its path. -/
theorem step {w' : Registry} (h : Hidden cfg x w) (hl : w'.Linked) (hn : w.next ≤ w'.next)
    (hm : ∀ k s, w'.mapItems k = some s → s.item = x → ∃ k' s', w.mapItems k' = some s' ∧ s'.item = x)
    (hp : (w'.items x).fi.sPathRel = (w.items x).fi.sPathRel) : Hidden cfg x w' where
  linked := hl
  known := lt_of_lt_of_le h.known hn
  hidden := by
    rcases h.hidden with hno | hp'
    · refine .inl (fun k s hs he => ?_)
      obtain ⟨k', s', hs', he'⟩ := hm k s hs he
      exact hno k' s' hs' he'
    · rw [hp]
      exact .inr hp'

theorem createFor (h : Hidden cfg x w) (path : Bytes) (how : ESharingHow) (spattr : SpecialPurposeAttr)
    (now : Int) (io : CreateIo) : Hidden cfg x (handOut (w.createFor cfg path how spattr now io)) := by
  have hlink : (handOut (w.createFor cfg path how spattr now io)).Linked :=
    h.linked.call cfg (.createFor path how spattr now io)
  have hlt := h.known
  have hc := createFor_cases cfg w path how spattr now io
  generalize w.createFor cfg path how spattr now io = r at hc hlink ⊢
  cases hc with
  | new hn =>
    refine h.step hlink (Nat.le_succ _) (fun k s hs he => ?_) ?_
    · simp only [handOut, regnew_mapItems] at hs
      split at hs
      · cases hs
        exact absurd he (by simp only; omega)
      · exact ⟨k, s, hs, he⟩
    · exact congrArg FileItem.sPathRel (regnew_same w _ spattr io.disk x hlt).1
  | shared s' hs' hv =>
    exact h.step hlink (le_refl _) (fun k s hs he => ⟨k, s, hs, he⟩)
      (congrArg FileItem.sPathRel (use_same w s'.item x).1)
  | side s' hs' hv =>
    exact h.step hlink (Nat.le_succ _) (fun k s hs he => ⟨k, s, hs, he⟩)
      (congrArg FileItem.sPathRel ((make_same w _ x hlt).trans (use_same _ _ x)).1)
  | failed s' hs' hv hm => exact h.step hlink (le_refl _) (fun k s hs he => ⟨k, s, hs, he⟩) rfl
  | displaced s' hs' hv hp hm =>
    have hne := h.other hs'
    refine h.step hlink (Nat.le_succ _) (fun k s hs he => ?_) ?_
    · simp only [handOut, regnew_mapItems] at hs
      split at hs
      · cases hs
        exact absurd he (by simp only [abandon, setItem]; omega)
      · rename_i hk
        simp only [abandon, Function.update_of_ne hk] at hs
        exact ⟨k, s, hs, he⟩
    · have hab : (w.abandon cfg (cfg.normalizePath path) s'.item now).items x = w.items x :=
        setItem_other w s'.item x _ (Ne.symm hne)
      have hnew := (regnew_same (w.abandon cfg (cfg.normalizePath path) s'.item now)
        (cfg.normalizePath path) spattr io.disk x hlt).1
      rw [hab] at hnew
      exact congrArg FileItem.sPathRel hnew

theorem createCustom (h : Hidden cfg x w) (i : Nat) (isShareable : Bool) (hx : i ≠ x) :
    Hidden cfg x (handOut (w.createCustom i isShareable)) := by
  have hlink : (handOut (w.createCustom i isShareable)).Linked :=
    h.linked.call cfg (.createCustom i isShareable)
  have hc := createCustom_cases w i isShareable
  generalize w.createCustom i isShareable = r at hc hlink ⊢
  cases hc with
  | null _ => exact h.step hlink (le_refl _) (fun k s hs he => ⟨k, s, hs, he⟩) rfl
  | conflict _ _ _ _ => exact h.step hlink (le_refl _) (fun k s hs he => ⟨k, s, hs, he⟩) rfl
  | installed _ _ _ =>
    refine h.step hlink (le_refl _) (fun k s hs he => ?_) ?_
    · by_cases hk : k = (w.items i).fi.sPathRel
      · have hse : s = ⟨w.nextNode, i⟩ := by
          simpa [handOut, Registry.use, Registry.emplace, setItem, hk] using hs.symm
        rw [hse] at he
        exact absurd he hx
      · exact ⟨k, s, by simpa [handOut, Registry.use, Registry.emplace, setItem, hk] using hs, he⟩
    · exact congrArg FileItem.sPathRel ((emplace_same w i x).trans (use_same _ i x)).1

theorem call (h : Hidden cfg x w) (c : Call) (hx : (Op.call c).NotFor x) :
    Hidden cfg x (w.call cfg c) := by
  have hlink := h.linked.call cfg c
  cases c with
  | make fi =>
    exact h.step hlink (Nat.le_succ _) (fun k s hs he => ⟨k, s, hs, he⟩)
      (by rw [Registry.call, (make_same w fi x h.known).1])
  | createFor path how spattr now io => exact h.createFor path how spattr now io
  | createCustom i isShareable => exact h.createCustom i isShareable hx
  | moveConstruct src =>
    simp only [Registry.call, Registry.moveConstruct]
    split
    · exact h
    · exact h.step (h.linked.congr rfl rfl rfl) (le_refl _) (fun k s hs he => ⟨k, s, hs, he⟩) rfl
  | moveAssign dst src =>
    simp only [Registry.call, Registry.moveAssign]
    split
    · exact h.step (h.linked.congr rfl rfl rfl) (le_refl _) (fun k s hs he => ⟨k, s, hs, he⟩) rfl
    · exact h
  | touch i fi =>
    refine h.step hlink (le_refl _) (fun k s hs he => ⟨k, s, hs, he⟩) ?_
    by_cases hi : x = i
    · rw [hi]
      simp only [Registry.call, Registry.touch, setItem_self]
    · simp only [Registry.call, Registry.touch, setItem_other _ _ _ _ hi]

theorem drop (h : Hidden cfg x w) (i : Nat) (manger : Bool) (rel : Release) :
    Hidden cfg x (w.drop cfg i manger rel) :=
  h.step (h.linked.drop cfg i manger rel) (by rw [drop_next])
    (fun k s hs he => ⟨k, s, drop_entry h.linked hs, he⟩) (drop_path cfg w i x manger rel)

theorem dropAll (is : List Nat) (rel : Nat → Release) (h : Hidden cfg x w) :
    Hidden cfg x (Registry.dropAll cfg is rel w) := by
  induction is generalizing rel w with
  | nil => exact h
  | cons i is ih => exact ih (fun n => rel (n + 1)) (h.drop i _ (rel 0))

theorem apply (h : Hidden cfg x w) (op : Op) (hx : op.NotFor x) : Hidden cfg x (w.apply cfg op) := by
  cases op with
  | call c => exact h.call c hx
  | destroy k rel =>
    have hrest : Hidden cfg x { w with holders := w.holders.eraseIdx k } :=
      h.step (h.linked.congr rfl rfl rfl) (le_refl _) (fun k s hs he => ⟨k, s, hs, he⟩) rfl
    simp only [Registry.apply, Registry.destroy]
    split
    · exact hrest.drop _ _ rel
    · exact hrest
  | backgroundCleanup now rel =>
    have hrest : Hidden cfg x (w.expired now).2 :=
      h.step (h.linked.congr rfl rfl rfl) (le_refl _) (fun k s hs he => ⟨k, s, hs, he⟩) rfl
    exact hrest.dropAll _ rel

theorem run (h : Hidden cfg x w) (ops : List Op) (hx : ∀ op ∈ ops, op.NotFor x) :
    Hidden cfg x (w.run cfg ops) := by
  induction ops generalizing w with
  | nil => exact h
  | cons op ops ih =>
    exact ih (h.apply op (hx op List.mem_cons_self)) (fun o ho => hx o (List.mem_cons_of_mem op ho))

end Hidden

/-- A new item is made and passed to `Create` as one that is not to be shared. -/
def createPrivate (cfg : RegistryCfg) (w : Registry) (fi : FileItem) : Registry :=
  (w.make fi).call cfg (.createCustom w.next false)

/-- Nobody else ever gets it. -/
def StaysPrivate (cfg : RegistryCfg) (w : Registry) (fi : FileItem) : Prop :=
  ∀ later : List Op, (∀ op ∈ later, op.NotFor w.next) → ∀ path how spattr now io,
    (((w.createPrivate cfg fi).run cfg later).createFor cfg path how spattr now io).2 ≠ some w.next

theorem createPrivate_hidden {w : Registry} (h : w.Linked) (cfg : RegistryCfg) (fi : FileItem)
    (hc : fi.sPathRel = [] ∨ (∃ s, w.mapItems fi.sPathRel = some s) ∨
      ∀ p, cfg.normalizePath p ≠ fi.sPathRel) : Hidden cfg w.next (w.createPrivate cfg fi) := by
  have hlink := (h.make fi).call cfg (.createCustom w.next false)
  have hno : ∀ k s, (w.make fi).mapItems k = some s → s.item ≠ w.next := by
    intro k s hs
    have := h.known k s hs
    omega
  have hfi : ((w.make fi).items w.next).fi = fi := by simp [make, setItem]
  have hcc := createCustom_cases (w.make fi) w.next false
  unfold createPrivate
  simp only [call] at hlink ⊢
  generalize (w.make fi).createCustom w.next false = r at hcc hlink ⊢
  cases hcc with
  | null _ => exact ⟨hlink, Nat.lt_succ_self _, .inl hno⟩
  | conflict _ _ _ _ => exact ⟨hlink, Nat.lt_succ_self _, .inl hno⟩
  | installed hi hp hs =>
    refine ⟨hlink, Nat.lt_succ_self _, .inr ?_⟩
    rw [hfi] at hp hs
    have hpath : ((((w.make fi).emplace w.next).use w.next).items w.next).fi.sPathRel = fi.sPathRel := by
      simp [use, emplace, make, setItem]
    simp only [handOut, hpath]
    rcases hc with he | ⟨s, hs'⟩ | hc
    · exact absurd he hp
    · exact absurd (hs.symm.trans hs') (by simp)
    · exact hc

/-- A private item stays private exactly if it was not registered, because of its empty path
or of a conflict, or if no request leads to its path. -/
theorem stays_private_iff (cfg : RegistryCfg) (ops : List Op) (fi : FileItem) :
    (run cfg {} ops).StaysPrivate cfg fi ↔
      fi.sPathRel = [] ∨ (∃ s, (run cfg {} ops).mapItems fi.sPathRel = some s) ∨
        ∀ p, cfg.normalizePath p ≠ fi.sPathRel := by
  have hl := Linked.run cfg ops Linked.empty
  generalize run cfg {} ops = w at hl
  constructor
  · intro h
    by_contra hcon
    simp only [not_or, not_exists, not_forall, not_not] at hcon
    obtain ⟨hp, hfree, path, hpath⟩ := hcon
    refine h [] (by simp) path .alwaysTrySharing {} 0 {} ?_
    have hnone : w.mapItems fi.sPathRel = none := by
      cases hm : w.mapItems fi.sPathRel with
      | none => rfl
      | some s => exact absurd hm (hfree s)
    simp [run, createPrivate, call, handOut, createCustom, createFor, make, setItem, hp, hnone,
      emplace, use, hpath, RegItem.verdict, share]
  · intro hc later hx path how spattr now io
    exact ((createPrivate_hidden hl cfg fi hc).run later hx).createFor_ne path how spattr now io

/-- An item for one client, registered under its path, is handed to the next one. -/
theorem private_item_shared : ¬ StaysPrivate {} {} { sPathRel := lit "d/x" } := by
  intro h
  exact h [] (by simp) (lit "d/x") .alwaysTrySharing {} 0 {} (by decide)

/-- No agent has set a time that is still to come. -/
def StartedBy (w : Registry) (t : Int) : Prop := ∀ i, (w.items i).fi.nTimeDlStarted ≤ t

theorem StartedBy.setItem {w : Registry} {t : Int} (h : w.StartedBy t) (i : Nat) (it : RegItem)
    (hi : it.fi.nTimeDlStarted ≤ t) : (w.setItem i it).StartedBy t := by
  intro j
  by_cases hj : j = i
  · rw [hj, setItem_self]
    exact hi
  · rw [setItem_other _ _ _ _ hj]
    exact h j

namespace StartedBy

variable {w : Registry} {t : Int}

theorem make (h : w.StartedBy t) (fi : FileItem) (hf : fi.nTimeDlStarted ≤ t) :
    (w.make fi).StartedBy t := h.setItem w.next _ hf

theorem use (h : w.StartedBy t) (i : Nat) : (w.use i).StartedBy t := h.setItem i _ (h i)

theorem emplace (h : w.StartedBy t) (i : Nat) : (w.emplace i).StartedBy t := h.setItem i _ (h i)

theorem expire (h : w.StartedBy t) (i : Nat) (n : Int) :
    (w.setItem i { w.items i with usercount := n, fi := (w.items i).fi.expire }).StartedBy t :=
  h.setItem i _ (h i)

theorem unreg (h : w.StartedBy t) (i : Nat) : (w.unreg i).StartedBy t := by
  have hu : (w.setItem i { w.items i with globRef := none, owner := false }).StartedBy t :=
    h.setItem i _ (h i)
  intro j
  rw [unreg_items]
  exact hu j

theorem regnew (h : w.StartedBy t) (ht : 0 ≤ t) (k : Bytes) (spattr : SpecialPurposeAttr)
    (disk : Disk) : (w.regnew k spattr disk).1.StartedBy t :=
  ((h.make _ ht).use _).emplace _

theorem createFor (h : w.StartedBy t) (ht : 0 ≤ t) (cfg : RegistryCfg) (path : Bytes)
    (how : ESharingHow) (spattr : SpecialPurposeAttr) (now : Int) (io : CreateIo) :
    (w.createFor cfg path how spattr now io).1.StartedBy t := by
  have hc := createFor_cases cfg w path how spattr now io
  generalize w.createFor cfg path how spattr now io = r at hc ⊢
  cases hc with
  | new hn => exact h.regnew ht _ _ _
  | shared s hs hv => exact h.use s.item
  | side s hs hv => exact (h.make _ ht).use _
  | failed s hs hv hm => exact h
  | displaced s hs hv hp hm =>
    refine StartedBy.regnew (w := w.abandon cfg _ s.item now) ?_ ht _ _ _
    exact h.setItem s.item _ (h s.item)

theorem createCustom (h : w.StartedBy t) (i : Nat) (isShareable : Bool) :
    (w.createCustom i isShareable).1.StartedBy t := by
  have hc := createCustom_cases w i isShareable
  generalize w.createCustom i isShareable = r at hc ⊢
  cases hc with
  | null _ => exact h
  | conflict _ _ _ _ => exact h
  | installed _ _ _ => exact (h.emplace i).use i

theorem drop (h : w.StartedBy t) (cfg : RegistryCfg) (i : Nat) (manger : Bool) (rel : Release) :
    (w.drop cfg i manger rel).StartedBy t := by
  have hc := drop_cases cfg w i manger rel
  generalize w.drop cfg i manger rel = w' at hc ⊢
  cases hc with
  | used _ => exact h.setItem i _ (h i)
  | ready _ _ => exact h
  | last _ _ _ => exact h.expire i _
  | unreg _ _ _ => exact (h.expire i _).unreg i

theorem dropAll (cfg : RegistryCfg) : ∀ (is : List Nat) (rel : Nat → Release) {w : Registry},
    w.StartedBy t → (Registry.dropAll cfg is rel w).StartedBy t
  | [], _, _, h => h
  | i :: is, rel, _, h => dropAll cfg is (fun n => rel (n + 1)) (h.drop cfg i _ (rel 0))

end StartedBy

theorem Clocked.startedBy {cfg : RegistryCfg} {env : Env} {t : Int} {w : Registry}
    (h : Clocked cfg env t w) : 0 ≤ t ∧ w.StartedBy t := by
  induction h with
  | start t ht => exact ⟨ht, fun _ => ht⟩
  | wait t' h ht ih => exact ⟨ih.1.trans ht, fun i => (ih.2 i).trans ht⟩
  | @make t w fi h hf ih => exact ⟨ih.1, ih.2.setItem w.next _ (by rw [hf]; exact ih.1)⟩
  | createFor path how spattr io h ih => exact ⟨ih.1, ih.2.createFor ih.1 cfg path how spattr _ io⟩
  | createCustom i b h ih => exact ⟨ih.1, ih.2.createCustom i b⟩
  | moveConstruct src h ih =>
    refine ⟨ih.1, ?_⟩
    simp only [call, Registry.moveConstruct]
    split <;> exact ih.2
  | moveAssign dst src h ih =>
    refine ⟨ih.1, ?_⟩
    simp only [call, Registry.moveAssign]
    split <;> exact ih.2
  | works i fi h hw ih =>
    refine ⟨ih.1, ih.2.setItem i _ ?_⟩
    have hs : fi.nTimeDlStarted = _ ∨ fi.nTimeDlStarted = _ := hw.started
    rcases hs with hs | hs
    · simp only [hs]
      exact ih.2 i
    · simp only [hs]
      exact le_refl _
  | foreign i fi h hf ih =>
    refine ⟨ih.1, ih.2.setItem i _ ?_⟩
    rcases hf with hs | hs
    · simp only [hs]
      exact ih.2 i
    · simp only [hs]
      exact le_refl _
  | @destroy t w k h ih =>
    have hrest : ({ w with holders := w.holders.eraseIdx k } : Registry).StartedBy t := ih.2
    refine ⟨ih.1, ?_⟩
    simp only [apply, Registry.destroy]
    split
    · exact hrest.drop cfg _ _ _
    · exact hrest
  | @backgroundCleanup t w t' rel h hrel ih =>
    have hle : t ≤ t' := (hrel 0).1.trans (hrel 0).2.1
    have hrest : (w.expired t).2.StartedBy t' := fun i => (ih.2 i).trans hle
    exact ⟨ih.1.trans hle, StartedBy.dropAll cfg _ rel hrest⟩

theorem Clocked.linked {cfg : RegistryCfg} {env : Env} {t : Int} {w : Registry}
    (h : Clocked cfg env t w) : w.Linked := by
  induction h with
  | start t ht => exact Linked.empty
  | wait t' h ht ih => exact ih
  | make fi h hf ih => exact ih.call cfg _
  | createFor path how spattr io h ih => exact ih.call cfg _
  | createCustom i b h ih => exact ih.call cfg _
  | moveConstruct src h ih => exact ih.call cfg _
  | moveAssign dst src h ih => exact ih.call cfg _
  | works i fi h hw ih => exact ih.call cfg _
  | foreign i fi h hf ih => exact ih.call cfg _
  | destroy k h ih => exact ih.apply cfg _
  | backgroundCleanup t' rel h hrel ih => exact ih.apply cfg _

/-- The last user of a complete volatile item leaves before the end of the delay. -/
structure LastLeaves (cfg : RegistryCfg) (w : Registry) (t : Int) (k i : Nat) : Prop where
  holder : w.holders[k]? = some (some i)
  registered : (w.items i).owner = true
  last : (w.items i).usercount = 1
  volatile : (w.items i).fi.isVolatile = true
  complete : (w.items i).fi.status = .complete
  early : t < (w.items i).fi.nTimeDlStarted + cfg.maxtempdelay

/-- In every history such an item is unregistered at once, and no later client gets it. -/
theorem released_at_once {cfg : RegistryCfg} {env : Env} {t : Int} {w : Registry}
    (h : Clocked cfg env t w) {k i : Nat} (hl : LastLeaves cfg w t k i) :
    (∀ key s, (w.destroy cfg k ⟨t, false⟩).mapItems key = some s → s.item ≠ i) ∧
      ∀ path how spattr now io,
        ((w.destroy cfg k ⟨t, false⟩).createFor cfg path how spattr now io).2 ≠ some i := by
  have hs := h.startedBy.2 i
  have hnot : (w.items i).heldReady cfg true ⟨t, false⟩ = false := by
    have hexp : (w.items i).expDate cfg t ≤ t := by
      unfold RegItem.expDate
      split <;> omega
    simp only [RegItem.heldReady, Bool.and_eq_false_iff, decide_eq_false_iff_not, not_lt]
    exact .inr hexp
  have hout : w.destroy cfg k ⟨t, false⟩ = ({ w with holders := w.holders.eraseIdx k } : Registry).drop
      cfg i true ⟨t, false⟩ := by
    simp only [destroy, hl.holder, dropRef, hl.registered]
  have hlink := h.linked.apply cfg (.destroy k ⟨t, false⟩)
  simp only [apply] at hlink
  obtain ⟨s0, hs0, he0, -⟩ := h.linked.entry_of_owner hl.registered
  have hlt := h.linked.known _ s0 hs0
  rw [hout] at hlink ⊢
  have hc := drop_cases cfg { w with holders := w.holders.eraseIdx k } i true ⟨t, false⟩
  have hlast := hl.last
  have hno : ∀ key s, (({ w with holders := w.holders.eraseIdx k } : Registry).drop cfg i true
      ⟨t, false⟩).mapItems key = some s → s.item ≠ i := by
    intro key s hs' he
    have ho := hlink.owner key s hs'
    rw [he] at ho
    generalize ({ w with holders := w.holders.eraseIdx k } : Registry).drop cfg i true ⟨t, false⟩ = w'
      at hc ho
    cases hc with
    | used hu =>
      simp only at hu
      omega
    | ready hu hr => exact absurd (hr.symm.trans hnot) (by decide)
    | last hu hr hm => cases hm
    | unreg hu hr hm =>
      rw [unreg_items, Function.update_self] at ho
      cases ho
  refine ⟨hno, fun path how spattr now io => Hidden.createFor_ne ⟨hlink, ?_, .inl hno⟩ path how spattr
    now io⟩
  rw [drop_next, ← he0]
  exact hlt

/-- The passes of a job that gets the whole response for the only client. -/
def download : Nat → Registry × DlJob × Bytes
  | 0 => (oneClient, .new plainEnv.cfg (oneClient.items 0).fi {}, plainHead ++ lit "abc")
  | n + 1 =>
    let (w, job, buf) := download n
    let d := ((⟨job, (w.items 0).fi, buf⟩ : Dl).procStep { plainEnv with now := 1001 } {} false).1
    (w.call {} (.touch 0 d.fi), d.job, d.buf)

theorem download_clocked (n : Nat) : Clocked {} plainEnv 1001 (download n).1 := by
  induction n with
  | zero => exact .wait 1001 (.createFor _ _ _ _ (.start 1000 (by decide))) (by decide)
  | succ n ih => exact .works 0 _ ih (.incomming _ _ _ _)

theorem download_leaves : LastLeaves {} (download 3).1 1010 0 0 where
  holder := by decide
  registered := by decide
  last := by decide
  volatile := by decide
  complete := by decide
  early := by decide

theorem released_at_once_after_download :
    (((download 3).1.destroy {} 0 ⟨1010, false⟩).createFor {} (lit "d/InRelease")
      .autoMoveOutOfTheWay volatileAttr 1011 {}).2 ≠ some 0 :=
  (released_at_once (.wait 1010 (download_clocked 3) (by decide)) download_leaves).2
    (lit "d/InRelease") .autoMoveOutOfTheWay volatileAttr 1011 {}

/-- Nine seconds after the start of its download the item is gone and the next client makes
another one, with a delay of 27 seconds. -/
theorem complete_item_forgotten :
    Clocked {} plainEnv 1001 (download 3).1 ∧ LastLeaves {} (download 3).1 1010 0 0 ∧
      (((download 3).1.destroy {} 0 ⟨1010, false⟩).createFor {} (lit "d/InRelease")
        .autoMoveOutOfTheWay volatileAttr 1011 {}).2 = some 1 :=
  ⟨download_clocked 3, download_leaves, by decide⟩

end Registry

end Acng
