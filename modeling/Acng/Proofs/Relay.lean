import Acng.Relay
import Acng.Proofs.Pipeline
import Acng.Proofs.FullAnswer
import Acng.Proofs.Encoder

namespace Acng
open Lib

/-- The length that the head of a response tells is that of its body, or none. -/
def Response.Honest (r : Response) : Prop :=
  Dl.fieldNum r.hd .contentLength (-1) < 0 ∨ Dl.fieldNum r.hd .contentLength (-1) = r.body.length

namespace Dl

/-- What is recorded in a volatile item for an accepted head. -/
theorem Accepted.recorded {env : Env} {j : DlJob} {fi : FileItem} {r : Response} {d0 : Dl}
    (h : Accepted env j fi r d0) (hj : j.Waiting) (hfi : fi.Startable) (hv : fi.isVolatile = true)
    (ha : j.bAllowStoreData = true) : ∃ raw modDate origin status, status.code = 200 ∧
      d0.fi = ({ fi with
          nIncommingCount := fi.nIncommingCount + r.head.length, nTimeDlStarted := env.now } : FileItem).started
        raw modDate origin status 0 (fieldNum r.hd .contentLength (-1)) := by
  let d : Dl := ⟨startJob j r.framing, fi, r.head ++ []⟩
  have hfree : d.Free := ⟨lt_of_le_of_lt hfi.status (by decide), .inr hfi.status⟩
  have hcode : (savedHead env ⟨j, fi, []⟩ r.hd).status.code = 200 := by
    rcases savedHead_code env ⟨j, fi, []⟩ r.hd r.code with hc | ⟨-, hn⟩
    · exact hc
    · exact absurd (hv.symm.trans hn) (by simp)
  have ha' : (startJob j r.framing).bAllowStoreData = true := by rw [startJob_allow, ha]
  have hhead := h.head []
  unfold procHeader at hhead
  rw [headStep_response env j fi r [] hj] at hhead
  simp only at hhead
  rw [checkAndSaveHeader_full env {} d _ _ _ hfree hcode,
    startDownload_free env {} _ _ _ _ _ hfi.status hfi.size] at hhead
  have hfi' := congrArg (fun x => x.1.fi) hhead
  simp only [d, ha', if_true, markAssigned, counted] at hfi'
  rw [if_neg (by simp [FileItem.started, hfi.get])] at hfi'
  exact ⟨_, _, _, _, hcode, hfi'.symm⟩

end Dl

namespace FileItem

/-- An item right behind its head: nothing of the body has arrived, and there is no file. -/
structure AtHead (fi : FileItem) : Prop where
  ready : fi.Ready
  status : fi.status = .dlGotHead
  closed : fi.filefd = none
  file : fi.disk.file = none
  size : fi.nSizeChecked = 0
  store : fi.spattr.bNoStore = false
  kept : fi.eDestroy = .keep

theorem AtHead.content {fi : FileItem} (h : fi.AtHead) : fi.content = [] := by
  rw [FileItem.content, h.file]
  rfl

/-- What a client is told in front of the body. -/
structure SameHead (fi fi' : FileItem) : Prop where
  status : fi.responseStatus = fi'.responseStatus
  modDate : fi.responseModDate = fi'.responseModDate
  origin : fi.responseOrigin = fi'.responseOrigin

theorem AtHead.receive {fi : FileItem} (h : fi.AtHead) {data : Bytes} (hd : data ≠ []) :
    SameHead (fi.receive true data) fi ∧ (fi.receive true data).status = .dlReceiving ∧
      (fi.receive true data).content = data ∧
      (fi.receive true data).nSizeChecked = data.length ∧
      (fi.receive true data).nContentLength = fi.nContentLength ∧
      (fi.receive true data).spattr = fi.spattr := by
  have hk : fi.keptFile = [] := by simp [keptFile, h.file]
  have ho : fi.ensureOpen = fi.opened := by simp [ensureOpen, h.closed]
  have hp : fi.ensureOpen.filefd = some 0 := by simp [ho, opened, h.size]
  unfold FileItem.receive
  rw [if_pos ⟨rfl, hd⟩, dlAddData_ready fi data h.ready 0 hp, ho]
  refine ⟨⟨rfl, rfl, rfl⟩, rfl, ?_, ?_, rfl, rfl⟩
  · simp [FileItem.content, writeChunk, opened, hk, writeAt]
  · simp [writeChunk, opened, h.size]

/-- The item of a download, before it is finished and afterwards. -/
def finished (fi : FileItem) (body : Bytes) : FileItem := (fi.receive true body).dlFinish false

theorem dlFinish_plain (fi : FileItem) (hn : fi.spattr.bNoStore = false) (hs : fi.status ≤ .complete) :
    SameHead (fi.dlFinish false) fi ∧ (fi.dlFinish false).status = .complete ∧
      (fi.dlFinish false).content = fi.content ∧ (fi.dlFinish false).nSizeChecked = fi.nSizeChecked ∧
      (fi.dlFinish false).nContentLength =
        if fi.nContentLength < 0 then fi.nSizeChecked else fi.nContentLength := by
  have hst := dlFinish_status fi false .stored hn
  rw [max_eq_right hs] at hst
  obtain ⟨status, len, head, he⟩ := dlFinish_frame fi false .stored
  refine ⟨by rw [he]; exact ⟨rfl, rfl, rfl⟩, hst, by rw [he]; rfl, by rw [he], ?_⟩
  have hsave : ∀ g : FileItem, (g.saveHeader false .stored).2.nContentLength = g.nContentLength := by
    intro g
    obtain ⟨head, hg⟩ := g.saveHeader_frame false .stored
    rw [hg]
  unfold dlFinish
  simp only [hn, Bool.false_eq_true, if_false, not_lt.mpr hs, Bool.or_false, decide_eq_true_eq]
  split
  · rename_i hneg
    split
    · rw [hsave, fixLength, if_pos hneg]
    · rw [fixLength, if_pos hneg]
  · rfl

/-- An item that has nothing for its clients yet. -/
def Early (fi : FileItem) : Prop := fi.status ≤ .dlGotHead ∧ fi.nSizeChecked ≤ 0 ∧ fi.content = []

/-- What the clients see of an item on its way to the complete one. -/
structure Shows (fi final : FileItem) (body : Bytes) : Prop where
  file : fi.content <+: body
  size : fi.nSizeChecked = fi.content.length
  head : SameHead fi final
  state : fi.status = .dlReceiving ∨ (fi = final ∧ fi.status = .complete ∧ fi.content = body)
  length : fi.nContentLength < 0 ∨ fi.nContentLength = final.nContentLength

variable {fi : FileItem} {body : Bytes}

theorem AtHead.finished (h : fi.AtHead) (body : Bytes) : SameHead (fi.finished body) fi ∧
    (fi.finished body).status = .complete ∧ (fi.finished body).content = body ∧
    (fi.finished body).nSizeChecked = body.length ∧
    (fi.finished body).nContentLength =
      if fi.nContentLength < 0 then (body.length : Int) else fi.nContentLength := by
  unfold FileItem.finished
  by_cases hd : body = []
  · subst hd
    rw [receive_nil]
    obtain ⟨h1, h2, h3, h4, h5⟩ := dlFinish_plain fi h.store (by rw [h.status]; decide)
    exact ⟨h1, h2, by rw [h3, h.content], by rw [h4, h.size]; rfl, by rw [h5, h.size]; rfl⟩
  · obtain ⟨g1, g2, g3, g4, g5, g6⟩ := h.receive hd
    obtain ⟨h1, h2, h3, h4, h5⟩ := dlFinish_plain (fi.receive true body) (by rw [g6, h.store])
      (by rw [g2]; decide)
    exact ⟨⟨h1.status.trans g1.status, h1.modDate.trans g1.modDate, h1.origin.trans g1.origin⟩, h2,
      h3.trans g3, by rw [h4, g4], by rw [h5, g5, g4]⟩

theorem AtHead.shows_finished (h : fi.AtHead) : Shows (fi.finished body) (fi.finished body) body := by
  obtain ⟨-, h2, h3, h4, -⟩ := h.finished body
  refine ⟨?_, by rw [h3, h4], ⟨rfl, rfl, rfl⟩, .inr ⟨rfl, h2, h3⟩, .inr rfl⟩
  exact ⟨[], by rw [List.append_nil, h3]⟩

/-- Behind the head, there is something for the clients as soon as something has arrived. -/
theorem AtHead.early_or_shows (h : fi.AtHead) {now rest : Bytes} (hb : body = now ++ rest) :
    Early (fi.receive true now) ∨ Shows (fi.receive true now) (fi.finished body) body := by
  by_cases hd : now = []
  · subst hd
    rw [receive_nil]
    exact .inl ⟨by rw [h.status], by rw [h.size], h.content⟩
  · obtain ⟨g1, g2, g3, g4, g5, -⟩ := h.receive hd
    obtain ⟨h1, -, -, -, h5⟩ := h.finished body
    refine .inr ⟨?_, by rw [g4, g3], ?_, .inl g2, ?_⟩
    · rw [g3, hb]
      exact List.prefix_append _ _
    · exact ⟨g1.status.trans h1.status.symm, g1.modDate.trans h1.modDate.symm,
        g1.origin.trans h1.origin.symm⟩
    · rw [g5, h5]
      split
      · rename_i hneg
        exact .inl hneg
      · exact .inr rfl

theorem content_prefix {fi final : FileItem} (h : fi.Early ∨ fi.Shows final body) :
    fi.content <+: body := by
  rcases h with h | h
  · rw [h.2.2]
    exact List.nil_prefix
  · exact h.file

end FileItem

theorem FreshJob.kept {p : PipeJob} (hp : FreshJob p) : p.fi.eDestroy = .keep := by
  obtain ⟨path, attr, refs, hh, -, he⟩ := hp.item
  rw [he, setup_fresh path attr hh]

namespace Dl

/-- A fresh item whose download is accepted stands at its head. -/
theorem Accepted.atHead {env : Env} {p : PipeJob} {r : Response} {d0 : Dl}
    (h : Accepted env p.job p.fi r d0) (hp : FreshJob p) :
    d0.job.bAllowStoreData = true ∧ d0.fi.AtHead ∧ d0.fi.responseStatus.code = 200 ∧
      d0.fi.nContentLength = fieldNum r.hd .contentLength (-1) := by
  have hf := hp.fresh
  obtain ⟨ha, -⟩ := h.stored hf.isVolatile hp.store
  obtain ⟨raw, modDate, origin, status, hcode, he⟩ :=
    h.recorded hp.waiting hf.startable hf.isVolatile hp.store
  have hready := h.ready ha
  rw [he] at hready ⊢
  exact ⟨ha, ⟨hready, rfl, hf.startable.closed, hf.file, rfl, hf.startable.store, hp.kept⟩, hcode, rfl⟩

/-- What there is for the clients wherever the job stands in its answer. -/
theorem Serving.early_or_shows {env : Env} {p : PipeJob} {r : Response} {d0 d : Dl} {unread rest : Bytes}
    (h : Serving p.job p.fi r d0 unread rest d) (hacc : Accepted env p.job p.fi r d0) (hp : FreshJob p) :
    d.fi.Early ∨ d.fi.Shows (d0.fi.finished r.body) r.body := by
  rcases h with ⟨-, hfi, -⟩ | ⟨-, now, out', ho, hfi, -⟩
  · have hf := hp.fresh.startable
    rw [hfi]
    refine .inl ⟨hf.status.trans (by decide), hf.size, ?_⟩
    rw [FileItem.content, hp.fresh.file]
    rfl
  · obtain ⟨ha, hat, -⟩ := hacc.atHead hp
    rw [hfi, ha]
    exact hat.early_or_shows ho

theorem Finished.eq_finished {d0 d : Dl} {unread out rest : Bytes} (h : d0.Finished unread out rest d)
    (ha : d0.job.bAllowStoreData = true) : d.fi = d0.fi.finished out := by
  rw [h.2.2, ha]
  rfl

/-- The data that was received stays at the front of the file. -/
theorem AtHead_receive_prefix {fi : FileItem} (h : fi.AtHead) (a b : Bytes) :
    (fi.receive true a).content <+: (fi.receive true (a ++ b)).content := by
  have hfile : ∀ data, (fi.receive true data).content = data := by
    intro data
    by_cases hd : data = []
    · rw [hd, FileItem.receive_nil, h.content]
    · exact (h.receive hd).2.2.1
  rw [hfile, hfile]
  exact List.prefix_append a b

/-- A call only adds to the file. -/
theorem processIncomming_grows {env : Env} {p : PipeJob} {r : Response} {d0 d : Dl} {unread rest : Bytes}
    (hs : Serving p.job p.fi r d0 unread rest d) (hacc : Accepted env p.job p.fi r d0) (hp : FreshJob p) :
    d.fi.content <+: (d.processIncomming env {} false).1.fi.content := by
  rcases hs with ⟨-, hfi, -⟩ | hm
  · rw [FileItem.content, hfi, hp.fresh.file]
    exact List.nil_prefix
  · obtain ⟨ha, hat, -⟩ := hacc.atHead hp
    have hready := hm.ready d0 unread r.body rest d hacc.ready
    obtain ⟨hj, now, out', -, hfi, hr⟩ := hm
    have haj : d.job.bAllowStoreData = true := by
      rw [hj]
      exact ha
    have hkeep : ∀ more, d.fi.content <+: (d.fi.receive true more).content := by
      intro more
      rw [hfi, ha, FileItem.receive_append true d0.fi now more (fun _ => hat.ready)]
      exact AtHead_receive_prefix hat now more
    rcases processIncomming_follows env false d d unread out' rest hready
        (Midway.start d unread out' rest hr) with ⟨-, -, -, now', -, -, hfi', -⟩ | ⟨-, -, -, hfi'⟩
    · rw [hfi', haj]
      exact hkeep now'
    · obtain ⟨status, len, head, he⟩ := (d.fi.receive true out').dlFinish_frame false .stored
      rw [hfi', haj, he]
      exact hkeep out'

end Dl

namespace ClientJob

theorem returnStreamOk_count (j : ClientJob) : j.returnStreamOk.1.nAllDataCount = j.nAllDataCount := by
  unfold returnStreamOk
  split <;> rfl

theorem handleSuddenError_count (env : CookEnv) (j : ClientJob) (item : Option (FileItem × Bytes)) :
    (j.handleSuddenError env item).1.nAllDataCount = j.nAllDataCount := by
  unfold handleSuddenError
  split <;> rfl

theorem addPtHeader_count (j : ClientJob) (remoteHead : Bytes) :
    (j.addPtHeader remoteHead).nAllDataCount = j.nAllDataCount := by
  unfold addPtHeader
  simp only
  cases findNoCase (lit "\nTransfer-Encoding:") (cstr remoteHead) <;> split <;> rfl

theorem cook_count (env : CookEnv) (j : ClientJob) (item : Option (FileItem × Bytes)) :
    (j.cookResponseHeader env item).nAllDataCount = j.nAllDataCount := by
  unfold cookResponseHeader
  cases item with
  | none => rfl
  | some p =>
    obtain ⟨fi, remoteHead⟩ := p
    simp only
    split
    · exact addPtHeader_count _ remoteHead
    repeat' split
    all_goals rfl

theorem sendFile_count (file : Bytes) (j : ClientJob) (n : Nat) (limit : Int) :
    (j.sendFile file n limit).1.nAllDataCount = j.nAllDataCount + (j.sendFile file n limit).2.length := rfl

/-- What goes to the socket is counted. -/
theorem perform_count (env : CookEnv) (file : Bytes) (j : ClientJob) (io : SendIo) :
    (j.perform env file io).1.nAllDataCount = j.nAllDataCount + (j.perform env file io).2.2.length := by
  unfold perform
  cases j.activity with
  | done => exact returnStreamOk_count j
  | sendBufNotFitem => exact returnStreamOk_count j
  | discoAsap => rfl
  | notStarted =>
    simp only
    cases j.awaitSendableState io.seen with
    | none => exact handleSuddenError_count env j io.item
    | some p => exact cook_count env j io.item
  | sendData =>
    simp only [sendPlain]
    split
    · exact returnStreamOk_count j
    · split
      · exact handleSuddenError_count env j io.item
      · rename_i fistate nBodySizeSoFar _
        split
        · rfl
        · split
          · rfl
          · rename_i n _
            have hc := sendFile_count file { j with filefd := j.filefd || io.opened } n
              ({ j with filefd := j.filefd || io.opened }.limit nBodySizeSoFar)
            generalize sendFile file { j with filefd := j.filefd || io.opened } n _ = r at hc ⊢
            obtain ⟨k, out⟩ := r
            simp only at hc ⊢
            split
            · exact (returnStreamOk_count k).trans hc
            · exact hc
  | sendChunkHeader =>
    simp only [sendChunkHeader]
    split
    · exact handleSuddenError_count env j io.item
    · split
      · rfl
      · split
        · exact handleSuddenError_count env _ io.item
        · rfl
  | sendChunkData =>
    simp only [sendChunkData]
    split
    · exact handleSuddenError_count env j io.item
    · rename_i n _
      have hc := sendFile_count file j n (j.nChunkEnd - j.nSendPos)
      generalize j.sendFile file n (j.nChunkEnd - j.nSendPos) = r at hc ⊢
      obtain ⟨k, out⟩ := r
      simp only at hc ⊢
      split <;> exact hc

/-- What is read below the end of a file does not depend on what is behind it. -/
theorem sendFile_prefix {file body : Bytes} (hp : file <+: body) (j : ClientJob) (n : Nat) (limit : Int)
    (h : j.nSendPos.toNat + limit.toNat ≤ file.length) : j.sendFile file n limit = j.sendFile body n limit := by
  obtain ⟨more, rfl⟩ := hp
  have hout : (file.drop j.nSendPos.toNat).take (min n limit.toNat) =
      ((file ++ more).drop j.nSendPos.toNat).take (min n limit.toNat) := by
    rw [List.drop_append_of_le_length (by omega), List.take_append_of_le_length]
    rw [List.length_drop]
    omega
  simp only [sendFile, hout]

/-- What a call finds when it waits for an item on its way. -/
theorem await_callIo {fi final : FileItem} {body : Bytes} (h : fi.Early ∨ fi.Shows final body)
    (j : ClientJob) (hh : j.bIsHeadOnly = false) (hpos : 0 ≤ j.nSendPos) (sent : Option Nat) (opened : Bool)
    (data : Option Nat) :
    j.awaitSendableState (fi.callIo sent opened data).seen = none ∨
      (fi.Shows final body ∧
        j.awaitSendableState (fi.callIo sent opened data).seen = some (fi.status, (fi.content.length : Int))) := by
  simp only [FileItem.callIo, awaitSendableState, hh, Bool.false_and, Bool.or_false, decide_eq_true_eq]
  rcases h with ⟨hst, hsz, -⟩ | h
  · have hlt : ¬ FiStatus.complete ≤ fi.status := not_le.mpr (lt_of_le_of_lt hst (by decide))
    rw [if_neg hlt, if_neg (by omega)]
    exact .inl rfl
  · rw [← h.size]
    rcases h.state with hst | ⟨-, hst, -⟩
    · rw [hst, if_neg (by decide)]
      split
      · exact .inr ⟨h, rfl⟩
      · exact .inl rfl
    · rw [hst]
      exact .inr ⟨h, rfl⟩

/-- A call with an empty buffer fails at the item or at the socket. -/
def Fails (j : ClientJob) (io : SendIo) : Prop :=
  io.data = none ∨ io.opened = false ∨ (j.waits = true ∧ j.awaitSendableState io.seen = none)

theorem handleSuddenError_cut (env : CookEnv) (j : ClientJob) (item : Option (FileItem × Bytes))
    (h : j.nAllDataCount ≠ 0) : j.handleSuddenError env item = j.returnDiscon := by
  unfold handleSuddenError
  rw [if_pos h]

/-- The state that sends the file, once the waiting is over. -/
theorem perform_awaited (env : CookEnv) (file : Bytes) (j : ClientJob) (io : SendIo) (fistate : FiStatus)
    (size : Int) (ha : j.activity = .sendData) (hh : j.bIsHeadOnly = false)
    (hs : j.awaitSendableState io.seen = some (fistate, size)) :
    j.perform env file io =
      if j.limit size ≤ 0 then ({ j with filefd := j.filefd || io.opened }, .discon, [])
      else
        match (if j.filefd || io.opened then io.data else none) with
        | none =>
          ({ j with filefd := j.filefd || io.opened }.returnDiscon.1,
            { j with filefd := j.filefd || io.opened }.returnDiscon.2, [])
        | some n =>
          let r := { j with filefd := j.filefd || io.opened }.sendFile file n (j.limit size)
          if (fistate = .complete && r.1.nSendPos = size) ||
              (0 ≤ j.nReqRangeTo && offT (j.nReqRangeTo + 1) ≤ r.1.nSendPos) then
            (r.1.returnStreamOk.1, r.1.returnStreamOk.2, r.2)
          else (r.1, .again, r.2) := by
  simp only [perform, ha, sendPlain, hh, hs]
  rfl

theorem perform_counted {env : CookEnv} {file out out' : Bytes} {j j' : ClientJob} {io : SendIo}
    (hc : j.nAllDataCount = out.length) (he : j.perform env file io = (j', .again, out')) :
    j'.nAllDataCount = (out ++ out').length := by
  have := perform_count env file j io
  rw [he] at this
  rw [this, hc, List.length_append]

/-- A whole file is being sent, and what went out is counted. -/
structure SendsWhole (body front : Bytes) (j : ClientJob) (out : Bytes) : Prop where
  sending : Sending body front 0 body.length j out
  rangeTo : j.nReqRangeTo < 0
  count : j.nAllDataCount = out.length

theorem SendsWhole.flush (env : CookEnv) {body front out : Bytes} {j : ClientJob} (hlen : body.length < 2 ^ 63) (r : Nat)
    (h : SendsWhole body front j out) : SendsWhole body front (j.flushed r) (out ++ j.sendbuf.take r) where
  sending := (sending_delivery env body front 0 body.length hlen).flush r h.sending
  rangeTo := h.rangeTo
  count := by simp only [flushed, h.count, List.length_append]

theorem SendsWhole.begun {body front out : Bytes} {j : ClientJob} (h : SendsWhole body front j out) :
    out ++ j.sendbuf <+: front ++ body := by
  obtain ⟨pos, -, -, -, -, -, -, -, hout⟩ := h.sending
  rw [hout, List.prefix_append_right_inj]
  simpa using List.take_prefix pos body

theorem SendsWhole.step {env : CookEnv} {fi final : FileItem} {body front out : Bytes} {j : ClientJob}
    (hfi : fi.Early ∨ fi.Shows final body) (hlen : body.length < 2 ^ 63) (hfront : front ≠ [])
    (h : SendsWhole body front j out) (hb : j.sendbuf = []) (sent : Option Nat) (opened : Bool)
    (data : Option Nat) :
    (∃ j' out', j.perform env fi.content (fi.callIo sent opened data) = (j', .again, out') ∧
      SendsWhole body front j' (out ++ out')) ∨
    ((j.perform env fi.content (fi.callIo sent opened data)).2.1 ≠ .again ∧
      out ++ (j.perform env fi.content (fi.callIo sent opened data)).2.2 = front ++ body) ∨
    ((j.perform env fi.content (fi.callIo sent opened data)).2.1 = .discon ∧
      (j.perform env fi.content (fi.callIo sent opened data)).2.2 = [] ∧
      j.Fails (fi.callIo sent opened data)) := by
  obtain ⟨hs, hto, hcount⟩ := h
  have hsending := hs
  obtain ⟨pos, ha, hh, hpos, -, hstop, -, -, hout⟩ := hs
  have hne : j.nAllDataCount ≠ 0 := by
    rw [hb, List.append_nil] at hout
    have := congrArg List.length hout
    have := List.length_pos_iff.mpr hfront
    simp only [List.length_append] at *
    omega
  rcases await_callIo hfi j hh (by omega) sent opened data with haw | ⟨hsh, haw⟩
  · refine .inr (.inr ?_)
    have hp : j.perform env fi.content (fi.callIo sent opened data) =
        (j.returnDiscon.1, j.returnDiscon.2, []) := by
      simp only [perform, ha, sendPlain, hh, haw, handleSuddenError_cut env j _ hne]
      rfl
    rw [hp]
    exact ⟨rfl, rfl, .inr (.inr ⟨by simp [waits, ha], haw⟩)⟩
  · have hsize : fi.content.length ≤ body.length := hsh.file.length_le
    have hfull : fi.status = .complete → fi.content = body := by
      intro hc
      rcases hsh.state with hst | ⟨-, -, hcont⟩
      · rw [hst] at hc
        cases hc
      · exact hcont
    have hp := perform_awaited env fi.content j _ fi.status fi.content.length ha hh haw
    have hlim : j.limit fi.content.length = fi.content.length - j.nSendPos := by
      unfold limit
      rw [if_neg (by omega)]
    by_cases hzero : j.limit fi.content.length ≤ 0
    · refine .inr (.inl ?_)
      rw [hp, if_pos hzero]
      rcases await_size j _ _ _ hh haw with hc | hlt
      · refine ⟨by simp, ?_⟩
        rw [hfull hc] at hlim hzero
        have hend : pos = body.length := by omega
        rw [hb, List.append_nil, hend] at hout
        simpa using hout
      · omega
    · cases hn : (if j.filefd || (fi.callIo sent opened data).opened then data else none) with
      | none =>
        refine .inr (.inr ?_)
        rw [hp, if_neg hzero, show (fi.callIo sent opened data).data = data from rfl, hn]
        refine ⟨rfl, rfl, ?_⟩
        cases hd : data with
        | none => exact .inl rfl
        | some n =>
          rw [hd] at hn
          refine .inr (.inl ?_)
          simp only [ite_eq_right_iff, Bool.or_eq_true, reduceCtorEq, imp_false, not_or,
            Bool.not_eq_true] at hn
          exact hn.2
      | some n =>
        -- what is done here is what is done with the complete file
        let io' : SendIo := { fi.callIo (some 0) true (some n) with item := none }
        have hsame : j.perform env fi.content (fi.callIo sent opened data) = j.perform env body io' := by
          have hopen : (j.filefd || (fi.callIo sent opened data).opened) = true := by
            by_contra hno
            simp [hno] at hn
          rw [hp, perform_awaited env body j io' fi.status fi.content.length ha hh haw, if_neg hzero,
            if_neg hzero, show (fi.callIo sent opened data).data = data from rfl, hn, hopen,
            show io'.opened = true from rfl, Bool.or_true]
          simp only [if_true, show io'.data = some n from rfl]
          rw [ sendFile_prefix hsh.file { j with filefd := true } n (j.limit fi.content.length) (by
            simp only [hpos, Int.toNat_natCast]
            omega)]
        rw [hsame]
        have hserves : Serves body j io' := by
          refine ⟨⟨0, rfl⟩, ⟨n, rfl⟩, rfl, fun _ => ⟨fi.status, fi.content.length, haw, by omega, fun hc => ?_⟩⟩
          rw [hfull hc]
        have hkeep : ∀ j' out', j.perform env body io' = (j', .again, out') → j'.nReqRangeTo < 0 := by
          intro j' out' he
          rw [perform_awaited env body j io' fi.status fi.content.length ha hh haw, if_neg hzero] at he
          simp only [show io'.opened = true from rfl, Bool.or_true, if_true,
            show io'.data = some n from rfl] at he
          split at he
          · simp only [Prod.mk.injEq] at he
            exact absurd he.2.1 (returnStreamOk_ends _)
          · simp only [Prod.mk.injEq, true_and] at he
            rw [← he.1]
            exact hto
        rcases perform_sending env body front 0 body.length hlen j out io' hsending hb hserves with
          ⟨j', out', he, hs', -⟩ | ⟨hres, hend⟩
        · exact .inl ⟨j', out', he, hs', hkeep j' out' he, perform_counted hcount he⟩
        · refine .inr (.inl ⟨hres, ?_⟩)
          rw [hend]
          simp [part]

/-- The chunk that is being sent is in the file. -/
def InFile (j : ClientJob) (size : Nat) : Prop := j.activity = .sendChunkData → j.nChunkEnd ≤ size

/-- A file is being sent in chunks, and what went out is counted. -/
structure SendsChunks (body front : Bytes) (size : Nat) (j : ClientJob) (out : Bytes) : Prop where
  chunking : Chunking body front j out
  get : j.bIsHeadOnly = false
  inFile : j.InFile size
  count : j.nAllDataCount = out.length

theorem SendsChunks.flush {body front out : Bytes} {size : Nat} {j : ClientJob} (r : Nat)
    (h : SendsChunks body front size j out) :
    SendsChunks body front size (j.flushed r) (out ++ j.sendbuf.take r) where
  chunking := h.chunking.flush r
  get := h.get
  inFile := h.inFile
  count := by simp only [flushed, h.count, List.length_append]

theorem SendsChunks.counted {body front out : Bytes} {size : Nat} {j : ClientJob}
    (h : SendsChunks body front size j out) (hfront : front ≠ []) (hb : j.sendbuf = []) :
    j.nAllDataCount ≠ 0 := by
  have hpos := List.length_pos_iff.mpr hfront
  have hstart : ∃ more, out ++ j.sendbuf = front ++ more := by
    cases h.chunking with
    | header ps pos ha hp hpos hle hps hout => exact ⟨_, hout⟩
    | data ps start pos stop ha hp hfd hpos hstop hstart hlt hle hsmall hps hout =>
      simp only [List.append_assoc] at hout
      exact ⟨_, hout⟩
    | done ps ha hp hps hout =>
      rw [List.append_assoc] at hout
      exact ⟨_, hout⟩
  obtain ⟨more, hmore⟩ := hstart
  have hlen := congrArg List.length hmore
  rw [hb] at hlen
  simp only [List.length_append, List.length_nil] at hlen
  rw [h.count]
  omega

theorem SendsChunks.step {env : CookEnv} {fi final : FileItem} {body front out : Bytes} {j : ClientJob}
    (hfi : fi.Early ∨ fi.Shows final body) (hlen : body.length < 2 ^ 32) (hfront : front ≠ [])
    (h : SendsChunks body front fi.content.length j out) (hb : j.sendbuf = []) (sent : Option Nat)
    (opened : Bool) (data : Option Nat) :
    (∃ j' out', j.perform env fi.content (fi.callIo sent opened data) = (j', .again, out') ∧
      SendsChunks body front fi.content.length j' (out ++ out')) ∨
    ((j.perform env fi.content (fi.callIo sent opened data)).2.1 ≠ .again ∧
      AllSent body front (out ++ (j.perform env fi.content (fi.callIo sent opened data)).2.2)) ∨
    ((j.perform env fi.content (fi.callIo sent opened data)).2.1 = .discon ∧
      (j.perform env fi.content (fi.callIo sent opened data)).2.2 = [] ∧
      j.Fails (fi.callIo sent opened data)) := by
  have hcount := h.counted hfront hb
  obtain ⟨h, hh, hin, hsent⟩ := h
  -- what the complete file makes of a call that does not fail
  have hgo : ∀ io', j.perform env fi.content (fi.callIo sent opened data) = j.perform env body io' →
      j.Grows body io' →
      (∀ j' out', j.perform env body io' = (j', .again, out') →
        j'.bIsHeadOnly = false ∧ j'.InFile fi.content.length) →
      (∃ j' out', j.perform env fi.content (fi.callIo sent opened data) = (j', .again, out') ∧
        SendsChunks body front fi.content.length j' (out ++ out')) ∨
      ((j.perform env fi.content (fi.callIo sent opened data)).2.1 ≠ .again ∧
        AllSent body front (out ++ (j.perform env fi.content (fi.callIo sent opened data)).2.2)) := by
    intro io' hsame hg hkeep
    rw [hsame]
    rcases perform_chunking env body front j out io' h hb hg with ⟨j', out', he, hc, -⟩ | hend
    · obtain ⟨h1, h2⟩ := hkeep j' out' he
      exact .inl ⟨j', out', he, hc, h1, h2, perform_counted hsent he⟩
    · exact .inr hend
  cases h with
  | header ps pos ha hp hpos hle hps hout =>
    rcases await_callIo hfi j hh (by omega) sent opened data with haw | ⟨hsh, haw⟩
    · have hper : j.perform env fi.content (fi.callIo sent opened data) =
          (j.returnDiscon.1, j.returnDiscon.2, []) := by
        simp only [perform, ha, sendChunkHeader, haw, handleSuddenError_cut env j _ hcount]
      rw [hper]
      exact .inr (.inr ⟨rfl, rfl, .inr (.inr ⟨by simp [waits, ha], haw⟩)⟩)
    · have hsize : fi.content.length ≤ body.length := hsh.file.length_le
      by_cases hopen : opened = true ∨ (fi.status = .complete ∧ j.nSendPos = fi.content.length)
      · let io' := fi.callIo (some 0) true (some 0)
        have hsame : j.perform env fi.content (fi.callIo sent opened data) = j.perform env body io' := by
          have haw' : j.awaitSendableState io'.seen = some (fi.status, (fi.content.length : Int)) := haw
          simp only [perform, ha, sendChunkHeader, haw, haw']
          rcases hopen with rfl | ⟨hc, hend⟩
          · rfl
          · simp [hc, hend]
        have hg : j.Grows body io' := by
          refine ⟨⟨0, rfl⟩, ⟨0, rfl⟩, rfl, fun _ => ⟨fi.status, fi.content.length, haw, ?_, by omega⟩⟩
          rcases hsh.state with hst | ⟨-, hst, hcont⟩
          · rcases await_size j _ _ _ hh haw with hc | hlt
            · rw [hst] at hc
              cases hc
            · exact .inr ⟨by rw [hst]; decide, hlt, by omega⟩
          · exact .inl ⟨hst, by rw [hcont]⟩
        refine (hgo io' hsame hg (fun j' out' he => ?_)).imp_right .inl
        have haw' : j.awaitSendableState io'.seen = some (fi.status, (fi.content.length : Int)) := haw
        simp only [perform, ha, sendChunkHeader, haw', show io'.opened = true from rfl, Bool.not_true,
          Bool.false_eq_true, if_false] at he
        split at he
        · simp only [Prod.mk.injEq, true_and] at he
          obtain ⟨rfl, -⟩ := he
          refine ⟨hh, fun h => ?_⟩
          cases h
        · simp only [Prod.mk.injEq, true_and] at he
          obtain ⟨rfl, -⟩ := he
          exact ⟨hh, fun _ => le_refl _⟩
      · cases opened with
        | true => exact absurd (.inl rfl) hopen
        | false =>
          have hno : (decide (fi.status = .complete) && decide (j.nSendPos = (fi.content.length : Int))) =
              false := by
            simp only [Bool.false_eq_true, false_or, not_and] at hopen
            simpa using hopen
          have hper : j.perform env fi.content (fi.callIo sent false data) =
              ({ j with filefd := false }.returnDiscon.1, { j with filefd := false }.returnDiscon.2, []) := by
            simp only [perform, ha, sendChunkHeader, haw, hno,
              show (fi.callIo sent false data).opened = false from rfl, Bool.not_false, if_true,
              Bool.false_eq_true, if_false]
            have hcut := handleSuddenError_cut env { j with filefd := false } (fi.callIo sent false data).item
              hcount
            simp only [ha] at hcut
            rw [hcut]
          rw [hper]
          exact .inr (.inr ⟨rfl, rfl, .inr (.inl rfl)⟩)
  | data ps start pos stop ha hp hfd hpos hstop hstart hlt hle hsmall hps hout =>
    have hstop' : stop ≤ fi.content.length := by
      have := hin ha
      omega
    cases data with
    | none =>
      have hper : j.perform env fi.content (fi.callIo sent opened none) =
          (j.returnDiscon.1, j.returnDiscon.2, []) := by
        simp only [perform, ha, sendChunkData, hfd, FileItem.callIo, if_true,
          handleSuddenError_cut env j _ hcount]
      rw [hper]
      exact .inr (.inr ⟨rfl, rfl, .inl rfl⟩)
    | some n =>
      let io' := fi.callIo (some 0) true (some n)
      have hpre : fi.content <+: body := FileItem.content_prefix hfi
      have hsame : j.perform env fi.content (fi.callIo sent opened (some n)) = j.perform env body io' := by
        simp only [perform, ha, sendChunkData, hfd, if_true, FileItem.callIo, io']
        rw [ sendFile_prefix hpre j n (j.nChunkEnd - j.nSendPos) (by omega)]
      have hg : j.Grows body io' := by
        refine ⟨⟨0, rfl⟩, ⟨n, rfl⟩, rfl, fun h => ?_⟩
        rw [ha] at h
        cases h
      refine (hgo io' hsame hg (fun j' out' he => ?_)).imp_right .inl
      simp only [perform, ha, sendChunkData, hfd, if_true, FileItem.callIo, io'] at he
      split at he
      · simp only [Prod.mk.injEq, true_and] at he
        obtain ⟨rfl, -⟩ := he
        refine ⟨hh, fun h => ?_⟩
        cases h
      · simp only [Prod.mk.injEq, true_and] at he
        obtain ⟨rfl, -⟩ := he
        exact ⟨hh, fun _ => hin ha⟩
  | done ps ha hp hps hout =>
    refine .inr (.inl ?_)
    have hper : j.perform env fi.content (fi.callIo sent opened data) =
        (j.returnStreamOk.1, j.returnStreamOk.2, []) := by
      simp only [perform, ha]
    rw [hper]
    refine ⟨returnStreamOk_ends j, ps, hp, hps, ?_⟩
    rw [hb] at hout
    simpa using hout

/-- An error is being sent. -/
def Refusing (text : Bytes) (j : ClientJob) (out : Bytes) : Prop :=
  j.activity = .sendBufNotFitem ∧ out ++ j.sendbuf = text

theorem Refusing.flush {text out : Bytes} {j : ClientJob} (r : Nat) (h : j.Refusing text out) :
    (j.flushed r).Refusing text (out ++ j.sendbuf.take r) :=
  ⟨h.1, by rw [flushed, List.append_assoc, List.take_append_drop, h.2]⟩

theorem Refusing.step {env : CookEnv} {text out : Bytes} {j : ClientJob} (h : j.Refusing text out)
    (hb : j.sendbuf = []) (file : Bytes) (io : SendIo) :
    (j.perform env file io).2.1 ≠ .again ∧ out ++ (j.perform env file io).2.2 = text := by
  have hp : j.perform env file io = (j.returnStreamOk.1, j.returnStreamOk.2, []) := by
    simp only [perform, h.1]
  rw [hp]
  refine ⟨returnStreamOk_ends j, ?_⟩
  rw [List.append_nil, ← h.2, hb, List.append_nil]

/-- The call fails, at the socket, at the file or because the waiting times out. -/
def Cut (j : ClientJob) (io : SendIo) : Prop :=
  io.sent = none ∨ io.opened = false ∨ io.data = none ∨ j.timesOut io = true

theorem Fails.cut {j : ClientJob} {io : SendIo} (h : j.Fails io) (hb : j.sendbuf = []) : j.Cut io := by
  rcases h with hd | ho | ⟨hw, haw⟩
  · exact .inr (.inr (.inl hd))
  · exact .inr (.inl ho)
  · refine .inr (.inr (.inr ?_))
    simp [timesOut, hb, hw, haw]

theorem Cut.of_flushed {j : ClientJob} {io : SendIo} {r : Nat} (hr : io.sent = some r)
    (h : (j.flushed r).Cut io) (hb : (j.flushed r).sendbuf = []) : j.Cut io := by
  rcases h with hs | ho | hd | ht
  · exact .inl hs
  · exact .inr (.inl ho)
  · exact .inr (.inr (.inl hd))
  · refine .inr (.inr (.inr ?_))
    unfold timesOut at ht ⊢
    rw [hb, await_flushed] at ht
    have hd : j.sendbuf.drop r = [] := hb
    simp only [hr, Option.getD_some, hd, List.isEmpty_nil, Bool.true_and]
    simpa [waits, flushed] using ht

/-- A call as a whole, from what it does with an empty buffer: it goes on, it ends well, or it is cut
off and has sent a beginning of what it should. -/
theorem sendData_rule {env : CookEnv} {file : Bytes} {io : SendIo} {I : ClientJob → Bytes → Prop}
    {Q T : Bytes → Prop} (flush : ∀ {j out} r, I j out → I (j.flushed r) (out ++ j.sendbuf.take r))
    (begun : ∀ {j out}, I j out → ∃ text, T text ∧ out ++ j.sendbuf <+: text)
    (perform : ∀ {j out}, I j out → j.sendbuf = [] →
      (∃ j' out', j.perform env file io = (j', .again, out') ∧ I j' (out ++ out')) ∨
      ((j.perform env file io).2.1 ≠ .again ∧ Q (out ++ (j.perform env file io).2.2)) ∨
      ((j.perform env file io).2.1 = .discon ∧ (j.perform env file io).2.2 = [] ∧ j.Fails io))
    {j : ClientJob} {out : Bytes} (h : I j out) :
    (∃ j' out', j.sendData env file io = (j', .again, out') ∧ I j' (out ++ out')) ∨
    ((j.sendData env file io).2.1 ≠ .again ∧ Q (out ++ (j.sendData env file io).2.2)) ∨
    ((j.sendData env file io).2.1 = .discon ∧ j.Cut io ∧
      ∃ text, T text ∧ out ++ (j.sendData env file io).2.2 <+: text) := by
  by_cases hb : j.sendbuf = []
  · rw [sendData_empty env file j io hb]
    rcases perform h hb with hgo | hend | ⟨hres, hout, hf⟩
    · exact .inl hgo
    · exact .inr (.inl hend)
    · obtain ⟨text, ht, hpre⟩ := begun h
      rw [hb] at hpre
      exact .inr (.inr ⟨hres, hf.cut hb, text, ht, by rwa [hout]⟩)
  · obtain ⟨text, ht, hpre⟩ := begun h
    cases hr : io.sent with
    | none =>
      have he : j.sendbuf.isEmpty = false := by simpa using hb
      have hs : j.sendData env file io = (j.returnDiscon.1, j.returnDiscon.2, []) := by
        simp [sendData, he, hr]
      rw [hs]
      refine .inr (.inr ⟨rfl, .inl hr, text, ht, ?_⟩)
      rw [List.append_nil]
      exact (List.prefix_append out j.sendbuf).trans hpre
    | some r =>
      have hf := flush r h
      by_cases hrest : (j.flushed r).sendbuf = []
      · rw [sendData_flushed env file j io r hb hr hrest]
        rcases perform hf hrest with ⟨j', out', he, hi⟩ | ⟨hres, hq⟩ | ⟨hres, hout, hfail⟩
        · exact .inl ⟨j', j.sendbuf.take r ++ out', by rw [he], by rwa [← List.append_assoc]⟩
        · exact .inr (.inl ⟨hres, by rwa [← List.append_assoc]⟩)
        · refine .inr (.inr ⟨hres, (hfail.cut hrest).of_flushed hr hrest, text, ht, ?_⟩)
          rw [hout, List.append_nil]
          refine List.IsPrefix.trans ?_ hpre
          rw [List.prefix_append_right_inj]
          exact List.take_prefix r j.sendbuf
      · rw [sendData_rest env file j io r hb hr hrest]
        exact .inl ⟨_, _, rfl, hf⟩

/-- A new GET job for a whole file. -/
structure Asking (j : ClientJob) : Prop where
  new : j.activity = .notStarted
  buf : j.sendbuf = []
  pos : j.nSendPos = 0
  count : j.nAllDataCount = 0
  get : j.bIsHeadOnly = false
  rangeFrom : j.nReqRangeFrom = -1
  rangeTo : j.nReqRangeTo = -1
  since : j.ifMoSince.isSet = false

/-- The head that such a job gets. -/
theorem cook_asking {env : CookEnv} {j : ClientJob} {fi : FileItem} (hj : j.Asking)
    (hcode : fi.responseStatus.code = 200) :
    j.cookResponseHeader env (some (fi, [])) =
      if j.goChunked fi then
        { j with
          activity := .sendChunkHeader, nReqRangeTo := -1, nReqRangeFrom := 0
          sendbuf := j.chunkedHead env fi }
      else j.sendsAll env fi := by
  have hmod : j.notModified env fi = false := by simp [notModified, hj.since]
  cases hc : j.goChunked fi with
  | false => exact cook_full env j fi hcode hj.rangeFrom hj.rangeTo hmod hc
  | true =>
    have hredir : fi.responseStatus.isRedirect = false := by simp [RemoteStatus.isRedirect, hcode]
    have hbody : fi.responseStatus.mustNotHaveBody = false := by
      simp [RemoteStatus.mustNotHaveBody, hcode]
    have hm' : { j with activity := .sendData }.notModified env fi = false := hmod
    have hc' : { j with activity := .sendData }.goChunked fi = true := hc
    simp only [cookResponseHeader, List.isEmpty_nil, hredir, hbody, hcode, hm', hc']
    rfl

theorem chunkedHead_ne (env : CookEnv) (j : ClientJob) (fi : FileItem) : j.chunkedHead env fi ≠ [] := by
  simp [chunkedHead, crlf]

/-- The answers that such a job may be given: the whole file, the file in chunks if its length may not be
known yet, or an error if something fails before that. -/
inductive Answers (env : CookEnv) (j : ClientJob) (final : FileItem) (body : Bytes) (unsized : Prop)
    (cut : Bool) : Bytes → Prop
  | whole : Answers env j final body unsized cut (j.fullHead env final ++ body)
  | chunks (hun : unsized) (ps : List Bytes) (hp : Pieces ps) (hps : ps.flatten = body) :
      Answers env j final body unsized cut
        (j.chunkedHead env final ++ ps.flatMap encodePiece ++ lit "0\r\n\r\n")
  | error (message : Bytes) (hcut : cut = true) :
      Answers env j final body unsized cut (j.setEarlySimpleResponse env message).sendbuf

/-- Any bytes can be sent in pieces. -/
theorem exists_pieces (s : Bytes) : ∃ ps, Pieces ps ∧ ps.flatten = s := by
  refine ⟨s.map (fun c => [c]), ?_, by induction s <;> simp_all⟩
  intro p hp
  obtain ⟨c, -, rfl⟩ := List.mem_map.mp hp
  exact ⟨by simp, by simp⟩

/-- What was sent in chunks so far is the beginning of an answer. -/
theorem Chunking.begun {env : CookEnv} {j0 j : ClientJob} {final : FileItem} {body out : Bytes}
    {unsized : Prop} (h : Chunking body (j0.chunkedHead env final) j out) (hun : unsized) (cut : Bool) :
    ∃ text, Answers env j0 final body unsized cut text ∧ out ++ j.sendbuf <+: text := by
  cases h with
  | header ps pos ha hp hpos hle hps hout =>
    obtain ⟨qs, hq, hqs⟩ := exists_pieces (body.drop pos)
    refine ⟨_, .chunks hun (ps ++ qs) (fun p hm => (List.mem_append.mp hm).elim (hp p) (hq p)) ?_, ?_⟩
    · rw [List.flatten_append, hps, hqs, List.take_append_drop]
    · rw [hout, List.flatMap_append]
      simp only [List.append_assoc]
      exact (List.prefix_append_right_inj _).mpr (List.prefix_append _ _)
  | data ps start pos stop ha hp hfd hpos hstop hstart hlt hle hsmall hps hout =>
    have hlen : ((body.drop start).take (stop - start)).length = stop - start := by
      rw [List.length_take, List.length_drop]
      omega
    obtain ⟨qs, hq, hqs⟩ := exists_pieces (body.drop stop)
    have hpieces : Pieces (ps ++ (body.drop start).take (stop - start) :: qs) := by
      intro p hm
      rcases List.mem_append.mp hm with hm | hm
      · exact hp p hm
      · rcases List.mem_cons.mp hm with rfl | hm
        · exact ⟨List.ne_nil_of_length_pos (by omega), by omega⟩
        · exact hq p hm
    refine ⟨_, .chunks hun _ hpieces ?_, ?_⟩
    · rw [List.flatten_append, List.flatten_cons, hps, hqs]
      have hnext := take_append_next body 0 start (stop - start) (Nat.zero_le _)
      simp only [List.drop_zero, Nat.sub_zero] at hnext
      rw [← List.append_assoc, hnext, show start + (stop - start) = stop by omega, List.take_append_drop]
    · rw [hout, List.flatMap_append, List.flatMap_cons, encodePiece, hlen]
      simp only [List.append_assoc, List.prefix_append_right_inj]
      refine List.IsPrefix.trans ?_ (List.prefix_append _ _)
      rw [show pos - start = min (pos - start) (stop - start) by omega, ← List.take_take]
      exact List.take_prefix _ _
  | done ps ha hp hps hout =>
    exact ⟨_, .chunks hun ps hp hps, [], by rw [List.append_nil, hout]⟩

end ClientJob

namespace RelayClient

open ClientJob

/-- Where a client stands in its answer. -/
inductive Stands (env : CookEnv) (j0 : ClientJob) (final : FileItem) (body : Bytes) (unsized : Prop)
    (size : Nat) (c : RelayClient) : Prop
  | waiting (hres : c.result = .again) (hj : c.job = j0) (hout : c.out = [])
  | sending (hres : c.result = .again) (h : SendsWhole body (j0.fullHead env final) c.job c.out)
  | chunking (hres : c.result = .again) (h : SendsChunks body (j0.chunkedHead env final) size c.job c.out)
      (hun : unsized)
  | refused (message : Bytes) (hres : c.result = .again) (hcut : c.cut = true)
      (h : c.job.Refusing (j0.setEarlySimpleResponse env message).sendbuf c.out)
  | ended (text : Bytes) (hres : c.result ≠ .again) (ht : Answers env j0 final body unsized c.cut text)
      (hpre : c.out <+: text) (hall : c.cut = false → c.out = text)

/-- Whatever a client stands at, it has got the beginning of an answer. -/
theorem Stands.begun {env : CookEnv} {j0 : ClientJob} {final : FileItem} {body : Bytes} {unsized : Prop}
    {size : Nat} {c : RelayClient} (h : c.Stands env j0 final body unsized size) :
    ∃ text, Answers env j0 final body unsized c.cut text ∧ c.out <+: text ∧
      (c.result ≠ .again → c.cut = false → c.out = text) := by
  cases h with
  | waiting hres hj hout =>
    refine ⟨_, .whole, ?_, fun h => absurd hres h⟩
    rw [hout]
    exact List.nil_prefix
  | sending hres h =>
    exact ⟨_, .whole, (List.prefix_append _ _).trans h.begun, fun h => absurd hres h⟩
  | chunking hres h hun =>
    obtain ⟨text, ht, hpre⟩ := h.chunking.begun hun c.cut
    exact ⟨text, ht, (List.prefix_append _ _).trans hpre, fun h => absurd hres h⟩
  | refused message hres hcut h =>
    exact ⟨_, .error message hcut, ⟨_, h.2⟩, fun h => absurd hres h⟩
  | ended text hres ht hpre hall => exact ⟨text, ht, hpre, fun _ => hall⟩

/-- More data in the file changes nothing for a client. -/
theorem Stands.grow {env : CookEnv} {j0 : ClientJob} {final : FileItem} {body : Bytes} {unsized : Prop}
    {size size' : Nat} {c : RelayClient} (h : c.Stands env j0 final body unsized size) (hle : size ≤ size') :
    c.Stands env j0 final body unsized size' := by
  cases h with
  | waiting hres hj hout => exact .waiting hres hj hout
  | sending hres h => exact .sending hres h
  | chunking hres h hun =>
    refine .chunking hres ⟨h.chunking, h.get, fun ha => ?_, h.count⟩ hun
    have := h.inFile ha
    omega
  | refused message hres hcut h => exact .refused message hres hcut h
  | ended text hres ht hpre hall => exact .ended text hres ht hpre hall

section Call

variable {env : CookEnv} {j0 : ClientJob} {fi final : FileItem} {body : Bytes} {unsized : Prop} {c : RelayClient}

theorem cut_of_Cut {sent data : Option Nat} {opened : Bool} (h : c.job.Cut (fi.callIo sent opened data)) :
    (c.call env fi sent opened data).cut = true := by
  rcases h with h | h | h | h
  · have : sent = none := h
    simp [call, this]
  · have : opened = false := h
    simp [call, this]
  · have : data = none := h
    simp [call, this]
  · simp [call, h]

theorem fullHead_same {fi fi' : FileItem} (j : ClientJob) (h : fi.SameHead fi')
    (hlen : fi.nContentLength = fi'.nContentLength) : j.fullHead env fi = j.fullHead env fi' := by
  simp only [fullHead, typeAndDate, originalSource, h.modDate, h.origin, hlen]

theorem chunkedHead_same {fi fi' : FileItem} (j : ClientJob) (h : fi.SameHead fi') :
    j.chunkedHead env fi = j.chunkedHead env fi' := by
  simp only [ClientJob.chunkedHead, typeAndDate, originalSource, h.modDate, h.origin, h.status]

/-- A client that has not got its answer yet gets its head, or an error if the waiting times out. -/
theorem Stands.call_waiting (hj : j0.Asking) (hfi : fi.Early ∨ fi.Shows final body)
    (hcode : final.responseStatus.code = 200) (hfull : 0 ≤ final.nContentLength)
    (hun : fi.Shows final body → fi.nContentLength < 0 → unsized) (hcj : c.job = j0) (hout : c.out = [])
    (sent : Option Nat) (opened : Bool) (data : Option Nat) :
    (c.call env fi sent opened data).Stands env j0 final body unsized fi.content.length := by
  have hcall : j0.sendData env fi.content (fi.callIo sent opened data) =
      j0.perform env fi.content (fi.callIo sent opened data) := sendData_empty _ _ _ _ hj.buf
  have hafter : ∀ {j'}, j0.perform env fi.content (fi.callIo sent opened data) = (j', .again, []) →
      (c.call env fi sent opened data).job = j' ∧ (c.call env fi sent opened data).out = [] ∧
        (c.call env fi sent opened data).result = .again := by
    intro j' hper
    simp only [call, hcj, hcall, hper, hout, List.append_nil, and_self]
  rcases await_callIo hfi j0 hj.get (by rw [hj.pos]) sent opened data with haw | ⟨hsh, haw⟩
  · have hper : ∃ message, j0.perform env fi.content (fi.callIo sent opened data) =
        (j0.setEarlySimpleResponse env message, .again, []) := by
      simp only [perform, hj.new, haw]
      unfold handleSuddenError
      rw [if_neg (by simp [hj.count])]
      exact ⟨_, rfl⟩
    obtain ⟨message, hper⟩ := hper
    obtain ⟨h1, h2, h3⟩ := hafter hper
    refine .refused message h3 (cut_of_Cut (.inr (.inr (.inr ?_)))) ⟨by rw [h1]; rfl, by rw [h1, h2]; rfl⟩
    rw [hcj]
    simp [timesOut, hj.buf, waits, hj.new, haw]
  · have hper : j0.perform env fi.content (fi.callIo sent opened data) =
        (j0.cookResponseHeader env (some (fi, [])), .again, []) := by
      simp only [perform, hj.new, haw]
      rfl
    obtain ⟨h1, h2, h3⟩ := hafter hper
    rw [cook_asking hj (hsh.head.status ▸ hcode)] at h1
    cases hc : j0.goChunked fi with
    | true =>
      rw [hc, if_pos rfl] at h1
      have hneg : fi.nContentLength < 0 := by
        simp only [goChunked, Bool.and_eq_true, decide_eq_true_eq] at hc
        exact hc.1.1
      refine .chunking h3 ⟨?_, by rw [h1]; exact hj.get, fun ha => ?_, by rw [h1, h2]; exact hj.count⟩
        (hun hsh hneg)
      · rw [h1, h2]
        refine .header [] 0 rfl (by simp [Pieces]) hj.pos (Nat.zero_le _) rfl ?_
        simp [chunkedHead_same j0 hsh.head]
      · rw [h1] at ha
        cases ha
    | false =>
      rw [hc, if_neg Bool.false_ne_true] at h1
      have hlen : fi.nContentLength = final.nContentLength := by
        rcases hsh.length with hneg | hlen
        · rcases hsh.state with hst | ⟨rfl, -⟩
          · simp only [goChunked, hneg, hst, hj.rangeTo, decide_true, Bool.true_and] at hc
            cases hc
          · omega
        · exact hlen
      refine .sending h3 ⟨?_, by rw [h1]; exact j0.sendsAll_whole env fi, by rw [h1, h2]; exact hj.count⟩
      rw [h1, h2]
      refine ⟨0, rfl, hj.get, hj.pos, le_refl _, Nat.zero_le _, le_refl _,
        .inl ⟨j0.sendsAll_whole env fi, rfl⟩, ?_⟩
      simp [fullHead_same j0 hsh.head hlen]

/-- From what a call does to where the client stands then. -/
theorem Stands.of_rule {I : ClientJob → Bytes → Prop} {size : Nat} {sent data : Option Nat} {opened : Bool}
    (hgo : ∀ d : RelayClient, d.result = .again → I d.job d.out → (c.cut = true → d.cut = true) →
      d.Stands env j0 final body unsized size)
    (h : (∃ j' out', c.job.sendData env fi.content (fi.callIo sent opened data) = (j', .again, out') ∧
        I j' (c.out ++ out')) ∨
      ((c.job.sendData env fi.content (fi.callIo sent opened data)).2.1 ≠ .again ∧
        ∀ cut, (c.cut = true → cut = true) → Answers env j0 final body unsized cut
          (c.out ++ (c.job.sendData env fi.content (fi.callIo sent opened data)).2.2)) ∨
      ((c.job.sendData env fi.content (fi.callIo sent opened data)).2.1 = .discon ∧
        c.job.Cut (fi.callIo sent opened data) ∧ ∃ text, Answers env j0 final body unsized true text ∧
          c.out ++ (c.job.sendData env fi.content (fi.callIo sent opened data)).2.2 <+: text)) :
    (c.call env fi sent opened data).Stands env j0 final body unsized size := by
  have hkeep : c.cut = true → (c.call env fi sent opened data).cut = true := fun hc => by simp [call, hc]
  rcases h with ⟨j', out', he, hi⟩ | ⟨hres, ht⟩ | ⟨hres, hcut, text, ht, hpre⟩
  · refine hgo _ ?_ ?_ hkeep
    · simp only [call, he]
    · simp only [call, he]
      exact hi
  · exact .ended _ hres (ht _ hkeep) (List.prefix_refl _) (fun _ => rfl)
  · have hcut' : (c.call env fi sent opened data).cut = true := cut_of_Cut hcut
    refine .ended text ?_ (hcut' ▸ ht) hpre (fun h => absurd (hcut'.symm.trans h) (by simp))
    simp only [call, hres]
    simp

theorem Stands.call_sending (hfi : fi.Early ∨ fi.Shows final body) (hlen : body.length < 2 ^ 63)
    (h : SendsWhole body (j0.fullHead env final) c.job c.out) (sent : Option Nat) (opened : Bool)
    (data : Option Nat) :
    (c.call env fi sent opened data).Stands env j0 final body unsized fi.content.length := by
  have hflush : ∀ {j out} r, SendsWhole body (j0.fullHead env final) j out →
      SendsWhole body (j0.fullHead env final) (j.flushed r) (out ++ j.sendbuf.take r) :=
    fun r h => h.flush env hlen r
  have hbegun : ∀ {j out}, SendsWhole body (j0.fullHead env final) j out →
      ∃ text, text = j0.fullHead env final ++ body ∧ out ++ j.sendbuf <+: text :=
    fun h => ⟨_, rfl, h.begun⟩
  refine Stands.of_rule (fun d hd hi _ => .sending hd hi) ?_
  rcases sendData_rule (Q := fun out => out = j0.fullHead env final ++ body) hflush hbegun
      (fun h hb => h.step hfi hlen (fullHead_ne env j0 final) hb sent opened data) h with
    hgo | ⟨hend, hq⟩ | ⟨hd, hcut, text, rfl, hpre⟩
  · exact .inl hgo
  · refine .inr (.inl ⟨hend, fun cut _ => ?_⟩)
    rw [hq]
    exact .whole
  · exact .inr (.inr ⟨hd, hcut, _, .whole, hpre⟩)

theorem Stands.call_chunking (hfi : fi.Early ∨ fi.Shows final body) (hun : unsized)
    (hsmall : body.length < 2 ^ 32) (h : SendsChunks body (j0.chunkedHead env final) fi.content.length c.job c.out) (sent : Option Nat)
    (opened : Bool) (data : Option Nat) :
    (c.call env fi sent opened data).Stands env j0 final body unsized fi.content.length := by
  have hflush : ∀ {j out} r, SendsChunks body (j0.chunkedHead env final) fi.content.length j out →
      SendsChunks body (j0.chunkedHead env final) fi.content.length (j.flushed r)
        (out ++ j.sendbuf.take r) := fun r h => h.flush r
  have hbegun : ∀ {j out}, SendsChunks body (j0.chunkedHead env final) fi.content.length j out →
      ∃ text, Answers env j0 final body unsized true text ∧ out ++ j.sendbuf <+: text :=
    fun h => h.chunking.begun hun true
  refine Stands.of_rule (fun d hd hi _ => .chunking hd hi hun) ?_
  rcases sendData_rule hflush hbegun
      (fun h hb => h.step hfi hsmall (chunkedHead_ne env j0 final) hb sent opened data) h with
    hgo | ⟨hend, ps, hp, hps, hq⟩ | hcut
  · exact .inl hgo
  · refine .inr (.inl ⟨hend, fun cut _ => ?_⟩)
    rw [hq]
    exact .chunks hun ps hp hps
  · exact .inr (.inr hcut)

theorem Stands.call_refused {message : Bytes} (hcut : c.cut = true)
    (h : c.job.Refusing (j0.setEarlySimpleResponse env message).sendbuf c.out) (sent : Option Nat)
    (opened : Bool) (data : Option Nat) :
    (c.call env fi sent opened data).Stands env j0 final body unsized fi.content.length := by
  have hbegun : ∀ {j : ClientJob} {out}, j.Refusing (j0.setEarlySimpleResponse env message).sendbuf out →
      ∃ text, text = (j0.setEarlySimpleResponse env message).sendbuf ∧ out ++ j.sendbuf <+: text :=
    fun h => ⟨_, rfl, h.2 ▸ List.prefix_refl _⟩
  refine Stands.of_rule (fun d hd hi hdc => .refused message hd (hdc hcut) hi) ?_
  rcases sendData_rule (Q := fun out => out = (j0.setEarlySimpleResponse env message).sendbuf)
      (fun r h => h.flush r) hbegun
      (fun h hb => .inr (.inl (h.step hb fi.content (fi.callIo sent opened data)))) h with
    hgo | ⟨hend, hq⟩ | ⟨hd, hc, text, rfl, hpre⟩
  · exact .inl hgo
  · refine .inr (.inl ⟨hend, fun cut hk => ?_⟩)
    rw [hq]
    exact .error message (hk hcut)
  · exact .inr (.inr ⟨hd, hc, _, .error message rfl, hpre⟩)

/-- The step lemma of a client: one call, with the item as far as it has got. -/
theorem Stands.call (hj : j0.Asking) (hfi : fi.Early ∨ fi.Shows final body)
    (hcode : final.responseStatus.code = 200) (hfull : 0 ≤ final.nContentLength)
    (hlen : body.length < 2 ^ 63)
    (hun : fi.Shows final body → fi.nContentLength < 0 → unsized) (hsmall : unsized → body.length < 2 ^ 32)
    (h : c.Stands env j0 final body unsized fi.content.length) (hres : c.result = .again) (sent : Option Nat)
    (opened : Bool) (data : Option Nat) :
    (c.call env fi sent opened data).Stands env j0 final body unsized fi.content.length := by
  cases h with
  | waiting _ hcj hout => exact call_waiting hj hfi hcode hfull hun hcj hout sent opened data
  | sending _ h => exact call_sending hfi hlen h sent opened data
  | chunking _ h hch => exact call_chunking hfi hch (hsmall hch) h sent opened data
  | refused message _ hcut h => exact call_refused hcut h sent opened data
  | ended text hend ht hpre hall => exact absurd hres hend

end Call

end RelayClient

/-- The length that the clients see before the end is the announced one. -/
theorem Dl.Serving.announced {env : Env} {p : PipeJob} {r : Response} {d0 d : Dl} {unread rest : Bytes}
    {final : FileItem} (h : Serving p.job p.fi r d0 unread rest d) (hacc : Accepted env p.job p.fi r d0)
    (hp : FreshJob p) (hs : d.fi.Shows final r.body) :
    d.fi.nContentLength = fieldNum r.hd .contentLength (-1) := by
  obtain ⟨ha, hat, -, hlen⟩ := hacc.atHead hp
  rcases h with ⟨-, hfi, -⟩ | ⟨-, now, out', -, hfi, -⟩
  · have hst : d.fi.status ≤ .dlPending := hfi ▸ hp.fresh.startable.status
    rcases hs.state with h | ⟨-, h, -⟩
    · exact absurd (h ▸ hst) (by decide)
    · exact absurd (h ▸ hst) (by decide)
  · rw [hfi, ha, ← hlen]
    by_cases hd : now = []
    · rw [hd, FileItem.receive_nil]
    · exact (hat.receive hd).2.2.2.2.1

namespace Relay

/-- The download is somewhere in its answer or at the end of it, and each client stands somewhere in
what it is to get. -/
structure Going (cenv : CookEnv) (p : PipeJob) (r : Response) (rest : Bytes) (jobs : Nat → ClientJob)
    (d0 : Dl) (s : Relay) : Prop where
  download : (s.result = none ∧ s.unread ≠ [] ∧ Dl.Serving p.job p.fi r d0 s.unread rest s.dl) ∨
    (s.result = some HINT_DONE ∧ d0.Finished s.unread r.body rest s.dl)
  clients : ∀ i, (s.clients i).Stands cenv (jobs i) (d0.fi.finished r.body) r.body
    (Dl.fieldNum r.hd .contentLength (-1) < 0) s.dl.fi.content.length

section Run

variable {env : Env} {cenv : CookEnv} {p : PipeJob} {r : Response} {rest : Bytes} {jobs : Nat → ClientJob}
variable {d0 : Dl} {s t : Relay}

theorem Going.item (h : Going cenv p r rest jobs d0 s) (hacc : Dl.Accepted env p.job p.fi r d0)
    (hp : FreshJob p) : s.dl.fi.Early ∨ s.dl.fi.Shows (d0.fi.finished r.body) r.body := by
  obtain ⟨ha, hat, -⟩ := hacc.atHead hp
  rcases h.download with ⟨-, -, hs⟩ | ⟨-, hf⟩
  · exact hs.early_or_shows hacc hp
  · rw [hf.eq_finished ha]
    exact .inr hat.shows_finished

theorem Going.read (hacc : Dl.Accepted env p.job p.fi r d0) (hp : FreshJob p) (n : Nat)
    (h : Going cenv p r rest jobs d0 s) (hstep : s.step env cenv (.read n) = some t) :
    Going cenv p r rest jobs d0 t := by
  simp only [step] at hstep
  split at hstep
  · cases hstep
  · rename_i hgo
    simp only [Bool.or_eq_true, decide_eq_true_eq, not_or, Bool.not_eq_true, Option.isSome_eq_false_iff,
      Option.isNone_iff_eq_none] at hgo
    obtain ⟨⟨hnone, -⟩, -⟩ := hgo
    rcases h.download with ⟨-, -, hs⟩ | ⟨hdone, -⟩
    · rw [← List.take_append_drop n s.unread] at hs
      have hread := Dl.Serving.read _ _ _ _ _ _ _ _ hs
      have hgrows := Dl.processIncomming_grows hread hacc hp
      have hend := Dl.processIncomming_serving env _ _ _ _ _ _ _ hacc hp.waiting.state hread
      generalize Dl.processIncomming env {} false { s.dl with buf := s.dl.buf ++ s.unread.take n } = out
        at hstep hgrows hend
      obtain ⟨dl, res⟩ := out
      cases hstep
      refine ⟨?_, fun i => (h.clients i).grow hgrows.length_le⟩
      rcases hend with ⟨rfl, hu, hs'⟩ | ⟨rfl, hf⟩
      · exact .inl ⟨rfl, hu, hs'⟩
      · exact .inr ⟨rfl, hf⟩
    · rw [hnone] at hdone
      cases hdone

theorem Going.call (hacc : Dl.Accepted env p.job p.fi r d0) (hp : FreshJob p)
    (hlen : r.body.length < 2 ^ 63)
    (hsmall : Dl.fieldNum r.hd .contentLength (-1) < 0 → r.body.length < 2 ^ 32)
    (hj : ∀ i, (jobs i).Asking) (i : Nat) (sent : Option Nat) (opened : Bool) (data : Option Nat)
    (h : Going cenv p r rest jobs d0 s) (hstep : s.step env cenv (.call i sent opened data) = some t) :
    Going cenv p r rest jobs d0 t := by
  simp only [step] at hstep
  split at hstep
  · cases hstep
  · rename_i hres
    obtain ⟨ha, hat, hcode, hann⟩ := hacc.atHead hp
    obtain ⟨hhead, -, -, -, hfull⟩ := hat.finished r.body
    cases hstep
    refine ⟨h.download, fun k => ?_⟩
    by_cases hk : k = i
    · subst hk
      simp only [Function.update_self]
      refine (h.clients k).call (hj k) (h.item hacc hp) (hhead.status ▸ hcode) ?_ hlen ?_ hsmall
        (by simpa using hres) sent opened data
      · rw [hfull, hann]
        split
        · exact Int.natCast_nonneg _
        · omega
      · intro hs hneg
        rcases h.download with ⟨-, -, hserve⟩ | ⟨-, hf⟩
        · rwa [← hserve.announced hacc hp hs]
        · rw [hf.eq_finished ha, hfull] at hneg
          split at hneg
          · omega
          · rwa [← hann]
    · simp only [Function.update_of_ne hk]
      exact h.clients k

end Run

end Relay

namespace FileItem

/-- The head file that is stored for an item of a known length. -/
def headFile (fi : FileItem) (contLen : Int) : HeadFile :=
  .fields (some contLen) ((some fi.responseModDate).filter HttpDate.isSet)
    (if fi.responseOrigin.isEmpty then none else some fi.responseOrigin)

/-- When an item is finished, its head file tells its length. -/
theorem dlFinish_head (fi : FileItem) (hn : fi.spattr.bNoStore = false) (hs : fi.status ≤ .complete)
    (hk : fi.eDestroy = .keep) (hsize : 0 ≤ fi.nSizeChecked)
    (hhead : 0 ≤ fi.nContentLength → fi.disk.head = some (fi.headFile fi.nContentLength)) :
    (fi.dlFinish false).disk.head =
      some ((fi.dlFinish false).headFile (fi.dlFinish false).nContentLength) := by
  unfold dlFinish
  simp only [hn, Bool.false_eq_true, if_false, not_lt.mpr hs, Bool.or_false, decide_eq_true_eq, hk, if_true]
  split
  · rename_i hneg
    simp [fixLength, saveHeader, storeHead, headFile, hneg, hsize]
  · rename_i hpos
    exact hhead (not_lt.mp hpos)

theorem dlFinish_destroy (fi : FileItem) (hk : fi.eDestroy = .keep) :
    (fi.dlFinish false).destroy = (fi.dlFinish false).disk := by
  obtain ⟨status, len, head, he⟩ := dlFinish_frame fi false .stored
  rw [he]
  unfold destroy
  simp [hk]

/-- What a download leaves in the cache. -/
theorem AtHead.left {fi : FileItem} (h : fi.AtHead) (body : Bytes) :
    (fi.finished body).destroy = (fi.finished body).disk ∧
      (body = [] → (fi.finished body).disk.file = none) ∧
      (body ≠ [] → (fi.finished body).disk = ⟨some body, some ((fi.finished body).headFile
        (fi.finished body).nContentLength)⟩) := by
  have hfile : ∀ g : FileItem, (g.dlFinish false).disk.file = g.disk.file := by
    intro g
    obtain ⟨status, len, head, he⟩ := dlFinish_frame g false .stored
    rw [he]
  by_cases hd : body = []
  · subst hd
    unfold FileItem.finished
    rw [receive_nil]
    exact ⟨dlFinish_destroy fi h.kept, fun _ => (hfile fi).trans h.file, fun hne => absurd rfl hne⟩
  · have hk : fi.keptFile = [] := by simp [keptFile, h.file]
    have ho : fi.ensureOpen = fi.opened := by simp [ensureOpen, h.closed]
    have hp : fi.ensureOpen.filefd = some 0 := by simp [ho, opened, h.size]
    have hrec : fi.receive true body = { fi.opened.writeChunk 0 body with
        nIncommingCount := fi.nIncommingCount + body.length } := by
      unfold FileItem.receive
      rw [if_pos ⟨rfl, hd⟩, dlAddData_ready fi body h.ready 0 hp, ho]
    obtain ⟨-, hst, -, hsize, -, hattr⟩ := h.receive hd
    have hkept : (fi.receive true body).eDestroy = .keep := by
      rw [hrec]
      exact h.kept
    have hbody : (fi.receive true body).disk.file = some body := by
      rw [hrec]
      simp [writeChunk, opened, hk, writeAt]
    refine ⟨dlFinish_destroy _ hkept, fun hnil => absurd hnil hd, fun _ => ?_⟩
    have hhead := dlFinish_head (fi.receive true body) (hattr ▸ h.store) (hst ▸ by decide) hkept
      (hsize ▸ Int.natCast_nonneg _) (fun hlen => ?_)
    · have hdata := (hfile (fi.receive true body)).trans hbody
      unfold FileItem.finished
      generalize (fi.receive true body).dlFinish false = g at hhead hdata ⊢
      rw [← hdata, ← hhead]
    · rw [hrec] at hlen ⊢
      exact congrArg some (congrArg (HeadFile.fields · _ _) (if_pos hlen))

end FileItem

namespace Relay

section Hit

variable {env : Env} {cenv : CookEnv} {jobs : Nat → ClientJob} {body : Bytes}

/-- A complete item in the cache, and clients that stand somewhere in what they are to get of it. -/
structure Hit (cenv : CookEnv) (fi : FileItem) (body : Bytes) (jobs : Nat → ClientJob) (s : Relay) : Prop where
  item : s.dl.fi = fi
  unread : s.unread = []
  clients : ∀ i, (s.clients i).Stands cenv (jobs i) fi body False fi.content.length

theorem Hit.step {fi : FileItem} {s t : Relay} {a : RelayAct} (hlen : body.length < 2 ^ 63)
    (hj : ∀ i, (jobs i).Asking) (hfi : fi.Shows fi body) (hcode : fi.responseStatus.code = 200)
    (hfull : 0 ≤ fi.nContentLength) (h : Hit cenv fi body jobs s) (hstep : s.step env cenv a = some t) :
    Hit cenv fi body jobs t := by
  obtain ⟨hitem, hunread, hclients⟩ := h
  cases a with
  | read n =>
    simp only [Relay.step] at hstep
    rw [if_pos (by simp [hunread]; omega)] at hstep
    cases hstep
  | call i sent opened data =>
    simp only [Relay.step] at hstep
    split at hstep
    · cases hstep
    · rename_i hres
      cases hstep
      refine ⟨hitem, hunread, fun k => ?_⟩
      by_cases hk : k = i
      · subst hk
        simp only [Function.update_self, hitem]
        exact (hclients k).call (hj k) (.inr hfi) hcode hfull hlen (fun _ hneg => absurd hneg (by omega))
          (fun h => h.elim) (by simpa using hres) sent opened data
      · simp only [Function.update_of_ne hk]
        exact hclients k

end Hit

end Relay

end Acng
