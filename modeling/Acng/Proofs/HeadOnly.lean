import Acng.Lib.Lines
import Acng.Proofs.Decimal
import Acng.Proofs.Delivery
import Acng.Response

namespace Acng.ClientJob
open Lib

/-- The job only has to send its buffer. -/
def Flushing (j : ClientJob) : Prop :=
  j.activity = .sendBufNotFitem ∨ j.activity = .discoAsap ∨ (j.activity = .sendData ∧ j.bIsHeadOnly = true)

theorem perform_flushing (env : CookEnv) (file : Bytes) (j : ClientJob) (io : SendIo)
    (h : j.Flushing) :
    (j.perform env file io).2.1 ≠ .again ∧ (j.perform env file io).2.2 = [] := by
  rcases h with h | h | ⟨h, hh⟩
  · simp only [perform, h]
    exact ⟨returnStreamOk_ends j, trivial⟩
  · simp [perform, h]
  · simp only [perform, h, sendPlain, hh, if_true]
    exact ⟨returnStreamOk_ends j, trivial⟩

/-- One call for such a job: the socket fails, a part of the buffer goes out, or the rest of it
does and the job ends. -/
theorem sendData_flushing (env : CookEnv) (file : Bytes) (j : ClientJob) (io : SendIo)
    (h : j.Flushing) :
    ((j.sendData env file io).2.1 ≠ .again ∧ io.sent = none ∧ (j.sendData env file io).2.2 = []) ∨
    ((j.sendData env file io).2.1 ≠ .again ∧ (j.sendData env file io).2.2 = j.sendbuf) ∨
    (∃ r, io.sent = some r ∧ j.sendData env file io = (j.flushed r, .again, j.sendbuf.take r) ∧
      (j.flushed r).sendbuf ≠ []) := by
  by_cases hb : j.sendbuf = []
  · rw [sendData_empty env file j io hb, hb]
    exact .inr (.inl (perform_flushing env file j io h))
  cases hs : io.sent with
  | none =>
    have he : j.sendbuf.isEmpty = false := by simpa using hb
    refine .inl ?_
    simp [sendData, he, hs, returnDiscon]
  | some r =>
    by_cases hrest : (j.flushed r).sendbuf = []
    · have hp := perform_flushing env file (j.flushed r) io h
      have hall : j.sendbuf.take r = j.sendbuf := by
        rw [flushed, List.drop_eq_nil_iff] at hrest
        exact List.take_of_length_le hrest
      rw [sendData_flushed env file j io r hb hs hrest, hp.2, hall, List.append_nil]
      exact .inr (.inl ⟨hp.1, rfl⟩)
    · exact .inr (.inr ⟨r, rfl, sendData_rest env file j io r hb hs hrest, hrest⟩)

/-- In every run a part of the buffer goes out, and all of it unless the socket fails. The job ends
if the socket always takes something. -/
theorem deliver_flushing (env : CookEnv) (file : Bytes) (ios : List SendIo) (j : ClientJob)
    (h : j.Flushing) :
    (j.deliver env file ios).2.2 <+: j.sendbuf ∧
    ((j.deliver env file ios).2.1 ≠ .again → (∀ io ∈ ios, io.sent ≠ none) →
      (j.deliver env file ios).2.2 = j.sendbuf) ∧
    ((∀ io ∈ ios, io.sent ≠ some 0) → j.sendbuf.length < ios.length →
      (j.deliver env file ios).2.1 ≠ .again) := by
  induction ios generalizing j with
  | nil => exact ⟨List.nil_prefix, fun h => absurd rfl h, fun _ h => absurd h (Nat.not_lt_zero _)⟩
  | cons io ios ih =>
    have hstop : (j.sendData env file io).2.1 ≠ .again →
        j.deliver env file (io :: ios) = j.sendData env file io := by
      intro hres
      rw [deliver]
      generalize j.sendData env file io = r at hres ⊢
      obtain ⟨j', res, out⟩ := r
      cases res with
      | again => exact absurd rfl hres
      | done => rfl
      | discon => rfl
    rcases sendData_flushing env file j io h with ⟨hres, hs, hout⟩ | ⟨hres, hout⟩ | ⟨r, hs, he, hne⟩
    · rw [hstop hres, hout]
      exact ⟨List.nil_prefix, fun _ hsent => absurd hs (hsent io List.mem_cons_self), fun _ _ => hres⟩
    · rw [hstop hres, hout]
      exact ⟨List.prefix_refl _, fun _ _ => rfl, fun _ _ => hres⟩
    · obtain ⟨h1, h2, h3⟩ := ih (j.flushed r) h
      have hd : j.deliver env file (io :: ios) =
          (((j.flushed r).deliver env file ios).1, ((j.flushed r).deliver env file ios).2.1,
            j.sendbuf.take r ++ ((j.flushed r).deliver env file ios).2.2) := by
        rw [deliver, he]
      have hcut : j.sendbuf.take r ++ (j.flushed r).sendbuf = j.sendbuf := List.take_append_drop r _
      rw [hd]
      refine ⟨?_, fun hend hsent => ?_, fun hmv hlen => h3 (fun io hio => hmv io (List.mem_cons_of_mem _ hio)) ?_⟩
      · conv_rhs => rw [← hcut]
        exact List.prefix_append_right_inj _ |>.mpr h1
      · simp only
        rw [h2 hend (fun io hio => hsent io (List.mem_cons_of_mem _ hio)), hcut]
      · have hr0 : r ≠ 0 := by
          rintro rfl
          exact hmv io List.mem_cons_self hs
        have hpos : 0 < (j.flushed r).sendbuf.length := List.length_pos_iff.mpr hne
        simp only [flushed, List.length_drop, List.length_cons] at hpos hlen ⊢
        omega

/-- Lines that have each a fixed front and a text behind it. -/
def textOf (ps : List (Bytes × Bytes)) : Bytes := unlines (ps.map (fun q => q.1 ++ q.2))

@[simp] theorem textOf_nil : textOf [] = [] := rfl

theorem textOf_cons (p : Bytes × Bytes) (ps : List (Bytes × Bytes)) :
    textOf (p :: ps) = p.1 ++ p.2 ++ crlf ++ textOf ps := by
  simp [textOf]

theorem textOf_append (ps qs : List (Bytes × Bytes)) :
    textOf (ps ++ qs) = textOf ps ++ textOf qs := by
  simp [textOf, unlines]

/-- The fronts have no line ends of their own. -/
def Fronts (ps : List (Bytes × Bytes)) : Prop := ∀ q ∈ ps, 13 ∉ q.1 ∧ q.1 ≠ []

theorem Fronts.append {ps qs : List (Bytes × Bytes)} (h : Fronts ps) (h' : Fronts qs) :
    Fronts (ps ++ qs) :=
  fun q hq => (List.mem_append.mp hq).elim (h q) (h' q)

theorem Fronts.cons {front t : Bytes} {ps : List (Bytes × Bytes)} (hp : 13 ∉ front ∧ front ≠ [])
    (h : Fronts ps) : Fronts ((front, t) :: ps) :=
  fun q hq => (List.mem_cons.mp hq).elim (fun he => he ▸ hp) (h q)

theorem Fronts.nil : Fronts [] := fun _ h => absurd h List.not_mem_nil

def metaParts (env : CookEnv) (j : ClientJob) : List (Bytes × Bytes) :=
  (match j.keepAlive with
    | .keep => [(lit "Connection: Keep-Alive", [])]
    | .close => [(lit "Connection: close", [])]
    | .unspecified => []) ++ [(lit "Date: ", env.date), (lit "Server: ", env.server)]

theorem metaHeaders_eq (env : CookEnv) (j : ClientJob) :
    j.metaHeaders env = textOf (metaParts env j) ++ crlf := by
  have h1 : lit "\r\nServer: " = crlf ++ lit "Server: " := rfl
  have h2 : lit "\r\n\r\n" = crlf ++ crlf := rfl
  have h3 : lit "Connection: Keep-Alive\r\n" = lit "Connection: Keep-Alive" ++ crlf := rfl
  have h4 : lit "Connection: close\r\n" = lit "Connection: close" ++ crlf := rfl
  unfold metaHeaders metaParts
  rw [h1, h2, h3, h4]
  cases j.keepAlive <;> simp [textOf_cons]

theorem metaParts_fronts (env : CookEnv) (j : ClientJob) : Fronts (metaParts env j) := by
  refine .append ?_ (.cons (by decide) (.cons (by decide) .nil))
  cases j.keepAlive with
  | keep => exact .cons (by decide) .nil
  | close => exact .cons (by decide) .nil
  | unspecified => exact .nil

theorem metaParts_clean (env : CookEnv) (j : ClientJob) :
    (∀ q ∈ metaParts env j, NoBlankLine q.2) ↔ NoBlankLine env.date ∧ NoBlankLine env.server := by
  have h0 : NoBlankLine [] := by decide
  unfold metaParts
  cases j.keepAlive <;> simp [h0]

def typeParts (env : CookEnv) (fi : FileItem) : List (Bytes × Bytes) :=
  (lit "Content-Type: ", env.contentType) ::
    if fi.responseModDate.isSet then [(lit "Last-Modified: ", fi.responseModDate.buf)] else []

theorem typeAndDate_eq (env : CookEnv) (fi : FileItem) :
    typeAndDate env fi = textOf (typeParts env fi) := by
  unfold typeAndDate typeParts
  cases fi.responseModDate.isSet <;> simp [textOf_cons]

theorem typeParts_fronts (env : CookEnv) (fi : FileItem) : Fronts (typeParts env fi) := by
  refine .cons (by decide) ?_
  split
  · exact .cons (by decide) .nil
  · exact .nil

/-- An unset date or an empty origin has no line, and would bring no empty one either. -/
theorem noBlankLine_nil : NoBlankLine [] := by decide

theorem typeParts_clean (env : CookEnv) (fi : FileItem) :
    (∀ q ∈ typeParts env fi, NoBlankLine q.2) ↔
      NoBlankLine env.contentType ∧ NoBlankLine fi.responseModDate.buf := by
  unfold typeParts
  cases hs : fi.responseModDate.isSet with
  | true => simp
  | false =>
    have he : fi.responseModDate.buf = [] := by simpa [HttpDate.isSet] using hs
    simp [he, noBlankLine_nil]

def originParts (fi : FileItem) : List (Bytes × Bytes) :=
  if fi.responseOrigin.isEmpty then [] else [(lit "X-Original-Source: ", fi.responseOrigin)]

theorem originalSource_eq (fi : FileItem) : originalSource fi = textOf (originParts fi) := by
  unfold originalSource originParts
  split <;> simp [textOf_cons]

theorem originParts_fronts (fi : FileItem) : Fronts (originParts fi) := by
  unfold originParts
  split
  · exact .nil
  · exact .cons (by decide) .nil

theorem originParts_clean (fi : FileItem) :
    (∀ q ∈ originParts fi, NoBlankLine q.2) ↔ NoBlankLine fi.responseOrigin := by
  unfold originParts
  cases h : fi.responseOrigin with
  | nil => simp [noBlankLine_nil]
  | cons c o => simp

theorem dec_noCR (v : Int) : 13 ∉ dec v := by
  intro h
  rcases dec_bytes v 13 h with h | h
  · cases h
  · cases h

theorem variant_noCR (j : ClientJob) : 13 ∉ j.prependHttpVariant ∧ j.prependHttpVariant ≠ [] := by
  unfold prependHttpVariant
  cases j.bIsHttp11 <;> decide

/-- A head of such lines is one head if no text brings an empty line. -/
theorem oneHead_textOf (p : Bytes × Bytes) (ps : List (Bytes × Bytes)) (h : Fronts (p :: ps)) :
    OneHead (textOf (p :: ps) ++ crlf) ↔ ∀ q ∈ p :: ps, NoBlankLine q.2 :=
  oneHead_parts p ps h

theorem fullHead_iff (env : CookEnv) (j : ClientJob) (fi : FileItem) :
    OneHead (j.fullHead env fi) ↔
      NoBlankLine env.contentType ∧ NoBlankLine fi.responseModDate.buf ∧ NoBlankLine fi.responseOrigin ∧
        NoBlankLine env.date ∧ NoBlankLine env.server := by
  have he : j.fullHead env fi = textOf ((j.prependHttpVariant ++ lit "200 OK", []) ::
      (typeParts env fi ++ (lit "Content-Length: " ++ dec fi.nContentLength, []) ::
        (originParts fi ++ metaParts env j))) ++ crlf := by
    simp [fullHead, textOf_cons, textOf_append, typeAndDate_eq, originalSource_eq, metaHeaders_eq]
  have hv := j.variant_noCR
  have hfronts : Fronts ((j.prependHttpVariant ++ lit "200 OK", []) ::
      (typeParts env fi ++ (lit "Content-Length: " ++ dec fi.nContentLength, []) ::
        (originParts fi ++ metaParts env j))) := by
    refine .cons ⟨?_, List.append_ne_nil_of_left_ne_nil hv.2 _⟩ (.append (typeParts_fronts env fi)
      (.cons ⟨?_, List.append_ne_nil_of_left_ne_nil (by decide) _⟩
        (.append (originParts_fronts fi) (metaParts_fronts env j))))
    · rw [List.mem_append, not_or]
      exact ⟨hv.1, by decide⟩
    · rw [List.mem_append, not_or]
      exact ⟨by decide, dec_noCR _⟩
  rw [he, oneHead_textOf _ _ hfronts]
  simp only [List.forall_mem_cons, List.forall_mem_append, typeParts_clean, originParts_clean,
    metaParts_clean, noBlankLine_nil, true_and, and_assoc]

theorem partialHead_iff (env : CookEnv) (j : ClientJob) (fi : FileItem) (first last cl : Int) :
    OneHead (j.partialHead env fi first last cl) ↔
      NoBlankLine env.contentType ∧ NoBlankLine fi.responseModDate.buf ∧ NoBlankLine fi.responseOrigin ∧
        NoBlankLine env.date ∧ NoBlankLine env.server := by
  let range := lit "Content-Range: bytes " ++ dec first ++ lit "-" ++ dec last ++ lit "/" ++
    dec fi.nContentLength
  have he : j.partialHead env fi first last cl =
      textOf ((j.prependHttpVariant ++ lit "206 Partial Content", []) ::
        (typeParts env fi ++ (range, []) :: (lit "Content-Length: " ++ dec cl, []) ::
          (originParts fi ++ metaParts env j))) ++ crlf := by
    simp [range, partialHead, textOf_cons, textOf_append, typeAndDate_eq, originalSource_eq,
      metaHeaders_eq]
  have hv := j.variant_noCR
  have hfronts : Fronts ((j.prependHttpVariant ++ lit "206 Partial Content", []) ::
      (typeParts env fi ++ (range, []) :: (lit "Content-Length: " ++ dec cl, []) ::
        (originParts fi ++ metaParts env j))) := by
    refine .cons ⟨?_, List.append_ne_nil_of_left_ne_nil hv.2 _⟩ (.append (typeParts_fronts env fi)
      (.cons ⟨?_, List.cons_ne_nil _ _⟩ (.cons ⟨?_, List.append_ne_nil_of_left_ne_nil (by decide) _⟩
        (.append (originParts_fronts fi) (metaParts_fronts env j)))))
    · rw [List.mem_append, not_or]
      exact ⟨hv.1, by decide⟩
    · simp only [range, List.mem_append, not_or]
      exact ⟨⟨⟨⟨⟨by decide, dec_noCR _⟩, by decide⟩, dec_noCR _⟩, by decide⟩, dec_noCR _⟩
    · rw [List.mem_append, not_or]
      exact ⟨by decide, dec_noCR _⟩
  rw [he, oneHead_textOf _ _ hfronts]
  simp only [List.forall_mem_cons, List.forall_mem_append, typeParts_clean, originParts_clean,
    metaParts_clean, noBlankLine_nil, true_and, and_assoc]

/-- The head of an answer that has no body by its status. -/
theorem bodilessHead_iff (env : CookEnv) (j : ClientJob) (fi : FileItem) :
    OneHead (j.prependHttpVariant ++ dec fi.responseStatus.code ++ lit " " ++ fi.responseStatus.msg ++ crlf ++
        (if fi.responseStatus.isRedirect then lit "Location: " ++ fi.responseOrigin ++ crlf else []) ++
        j.metaHeaders env) ↔
      NoBlankLine fi.responseStatus.msg ∧
        (fi.responseStatus.isRedirect = true → NoBlankLine fi.responseOrigin) ∧
        NoBlankLine env.date ∧ NoBlankLine env.server := by
  let location := if fi.responseStatus.isRedirect then [(lit "Location: ", fi.responseOrigin)] else []
  have hl : (if fi.responseStatus.isRedirect then lit "Location: " ++ fi.responseOrigin ++ crlf else []) =
      textOf location := by
    unfold location
    split <;> simp [textOf_cons]
  have hc : (∀ q ∈ location, NoBlankLine q.2) ↔
      (fi.responseStatus.isRedirect = true → NoBlankLine fi.responseOrigin) := by
    unfold location
    split <;> rename_i h <;> simp [h]
  have hf : Fronts location := by
    unfold location
    split
    · exact .cons (by decide) .nil
    · exact .nil
  have hv := j.variant_noCR
  have hfronts : Fronts ((j.prependHttpVariant ++ dec fi.responseStatus.code ++ lit " ",
      fi.responseStatus.msg) :: (location ++ metaParts env j)) := by
    refine .cons ⟨?_, ?_⟩ (.append hf (metaParts_fronts env j))
    · simp only [List.mem_append, not_or]
      exact ⟨⟨hv.1, dec_noCR _⟩, by decide⟩
    · exact List.append_ne_nil_of_right_ne_nil _ (by decide)
  have he : j.prependHttpVariant ++ dec fi.responseStatus.code ++ lit " " ++ fi.responseStatus.msg ++ crlf ++
      textOf location ++ j.metaHeaders env =
      textOf ((j.prependHttpVariant ++ dec fi.responseStatus.code ++ lit " ", fi.responseStatus.msg) ::
        (location ++ metaParts env j)) ++ crlf := by
    simp [textOf_cons, textOf_append, metaHeaders_eq]
  rw [hl, he, oneHead_textOf _ _ hfronts]
  simp only [List.forall_mem_cons, List.forall_mem_append, hc, metaParts_clean]

theorem earlyHead_iff (env : CookEnv) (j : ClientJob) :
    OneHead (j.setEarlySimpleResponse env (lit "304 Not Modified") true).sendbuf ↔
      NoBlankLine env.date ∧ NoBlankLine env.server := by
  have hv := j.variant_noCR
  have he : (j.setEarlySimpleResponse env (lit "304 Not Modified") true).sendbuf =
      textOf ((j.prependHttpVariant ++ lit "304 Not Modified", []) :: metaParts env j) ++ crlf := by
    simp [setEarlySimpleResponse, textOf_cons, metaHeaders_eq]
  have hfronts : Fronts ((j.prependHttpVariant ++ lit "304 Not Modified", []) :: metaParts env j) := by
    refine .cons ⟨?_, List.append_ne_nil_of_left_ne_nil hv.2 _⟩ (metaParts_fronts env j)
    rw [List.mem_append, not_or]
    exact ⟨hv.1, by decide⟩
  rw [he, oneHead_textOf _ _ hfronts]
  simp only [List.forall_mem_cons, metaParts_clean, noBlankLine_nil, true_and]

/-- A simple response comes with a page. -/
theorem early_page (env : CookEnv) (j : ClientJob) (message : Bytes) :
    ¬ OneHead (j.setEarlySimpleResponse env message).sendbuf := by
  intro h
  obtain ⟨a, ha⟩ := h.ends
  have hlast := congrArg List.getLast? ha
  have hend : lit "</html>" = lit "</html" ++ [62] := rfl
  have hblank : crlf ++ crlf = [13, 10, 13] ++ [10] := rfl
  simp only [setEarlySimpleResponse, Bool.false_eq_true, if_false, hend, hblank, ← List.append_assoc,
    List.getLast?_concat, Option.some.injEq] at hlast
  cases hlast

theorem lineClass_tolower : ∀ c : UInt8, lineClass (tolower c) = lineClass c := by
  apply forall_byte
  decide +kernel

theorem map_lineClass_tolower (s : Bytes) : (s.map tolower).map lineClass = s.map lineClass := by
  rw [List.map_map]
  exact List.map_congr_left (fun c _ => lineClass_tolower c)

/-- A field name that is found has the line ends that the pattern has. -/
theorem findNoCase_lines (pat s : Bytes) (p : Nat) (h : findNoCase pat (cstr s) = some p) :
    ((s.drop p).take pat.length).map lineClass = pat.map lineClass := by
  have hpre := find_prefix h
  obtain ⟨t, ht⟩ := cstr_take s
  have hlen := find_le _ _ _ h
  simp only [List.length_map] at hlen
  have hcut : (s.drop p).take pat.length = ((cstr s).drop p).take pat.length := by
    conv_lhs => rw [← ht]
    rw [List.drop_append_of_le_length (by omega), List.take_append_of_le_length (by
      rw [List.length_drop]
      omega)]
  obtain ⟨u, hu⟩ := hpre
  rw [← List.map_drop] at hu
  have htake := congrArg (List.take pat.length) hu
  rw [List.take_left' (List.length_map _), ← List.map_take] at htake
  rw [hcut, ← map_lineClass_tolower, ← htake, map_lineClass_tolower]

/-- A pass-through head goes on with the lines it has. -/
theorem addPtHeader_iff (j : ClientJob) (remoteHead : Bytes) (hb : j.sendbuf = []) :
    OneHead (j.addPtHeader remoteHead).sendbuf ↔ OneHead remoteHead := by
  have hsend : (j.addPtHeader remoteHead).sendbuf =
      (findNoCase (lit "\nTransfer-Encoding:") (cstr remoteHead)).elim remoteHead
        (fun p => remoteHead.take p ++ lit "\nX-No-Trans-Encode:" ++ remoteHead.drop (p + 19)) := by
    unfold addPtHeader
    cases hf : findNoCase (lit "\nTransfer-Encoding:") (cstr remoteHead) <;>
      simp only [hf, hb, List.nil_append, Option.elim] <;> split <;> rfl
  rw [hsend]
  cases hf : findNoCase (lit "\nTransfer-Encoding:") (cstr remoteHead) with
  | none => rfl
  | some p =>
    rw [Option.elim_some]
    have hl := findNoCase_lines _ _ _ hf
    have h19 : (lit "\nTransfer-Encoding:").length = 19 := rfl
    have hsame : (lit "\nX-No-Trans-Encode:").map lineClass = (lit "\nTransfer-Encoding:").map lineClass := by
      decide
    rw [h19] at hl
    apply oneHead_lineClass
    have hcut : remoteHead = remoteHead.take p ++ (remoteHead.drop p).take 19 ++ remoteHead.drop (p + 19) := by
      rw [List.append_assoc, ← List.drop_drop, List.take_append_drop, List.take_append_drop]
    conv_rhs => rw [hcut]
    simp only [List.map_append, hl, hsame]

/-- A new job for a HEAD request. -/
structure NewHeadJob (j : ClientJob) : Prop where
  new : j.activity = .notStarted
  buf : j.sendbuf = []
  head : j.bIsHeadOnly = true
  count : j.nAllDataCount = 0

/-- Whatever comes behind the first call, the client gets a head and nothing else: in every run a
part of it, all of it if the job ends and the socket does not fail, and the job ends if the socket
always takes something. -/
def WritesOneHead (env : CookEnv) (file : Bytes) (j : ClientJob) (io : SendIo) : Prop :=
  ∃ head, OneHead head ∧ ∀ ios,
    (j.deliver env file (io :: ios)).2.2 <+: head ∧
    ((j.deliver env file (io :: ios)).2.1 ≠ .again → (∀ io ∈ ios, io.sent ≠ none) →
      (j.deliver env file (io :: ios)).2.2 = head) ∧
    ((∀ io ∈ ios, io.sent ≠ some 0) → head.length < ios.length →
      (j.deliver env file (io :: ios)).2.1 ≠ .again)

/-- The job after its first call. -/
def started (env : CookEnv) (j : ClientJob) (io : SendIo) : ClientJob :=
  match j.awaitSendableState io.seen with
  | none => (j.handleSuddenError env io.item).1
  | some _ => j.cookResponseHeader env io.item

theorem deliver_started (env : CookEnv) (file : Bytes) (j : ClientJob) (io : SendIo)
    (h : NewHeadJob j) (ios : List SendIo) :
    j.deliver env file (io :: ios) = (started env j io).deliver env file ios := by
  have hcall : j.sendData env file io = (started env j io, .again, []) := by
    rw [sendData_empty env file j io h.buf]
    unfold started
    simp only [perform, h.new]
    cases j.awaitSendableState io.seen with
    | some p => rfl
    | none =>
      simp only [handleSuddenError, h.count, ne_eq, not_true_eq_false, if_false]
  rw [deliver, hcall]
  rfl

/-- A job that only sends its buffer writes one head if the buffer is one. -/
theorem writesOneHead_flushing (env : CookEnv) (file : Bytes) (j : ClientJob) (io : SendIo)
    (h : NewHeadJob j) (hf : (started env j io).Flushing) :
    WritesOneHead env file j io ↔ OneHead (started env j io).sendbuf := by
  constructor
  · rintro ⟨head, hone, hruns⟩
    -- one byte with each call
    let ios : List SendIo := List.replicate ((started env j io).sendbuf.length + 1) { sent := some 1 }
    have hsent : ∀ io ∈ ios, io.sent = some 1 := fun io hio => by rw [List.eq_of_mem_replicate hio]
    obtain ⟨-, hall, hend⟩ := deliver_flushing env file ios _ hf
    have hends := hend (fun io hio => by simp [hsent io hio]) (by simp [ios])
    have hout := hall hends (fun io hio => by simp [hsent io hio])
    have hhead := (hruns ios).2.1
    rw [deliver_started env file j io h] at hhead
    rw [← hout, hhead hends (fun io hio => by simp [hsent io hio])]
    exact hone
  · intro hone
    refine ⟨_, hone, fun ios => ?_⟩
    rw [deliver_started env file j io h]
    exact deliver_flushing env file ios _ hf

theorem metaHeaders_blank (env : CookEnv) (j : ClientJob) :
    ∃ m, j.metaHeaders env = m ++ (crlf ++ crlf) :=
  ⟨_, rfl⟩

theorem chunkedHead_blank (env : CookEnv) (j : ClientJob) (fi : FileItem) :
    ∃ a, j.chunkedHead env fi = a ++ (crlf ++ crlf) := by
  obtain ⟨m, hm⟩ := j.metaHeaders_blank env
  rw [chunkedHead, hm, ← List.append_assoc]
  exact ⟨_, rfl⟩

/-- The item ends without a byte more, behind a head that announces chunks. -/
theorem deliver_last_chunk (env : CookEnv) (file : Bytes) (j : ClientJob)
    (ha : j.activity = .sendChunkHeader) (hne : j.sendbuf ≠ []) :
    (j.deliver env file [{ sent := some j.sendbuf.length, seen := [(.complete, j.nSendPos)] },
      { sent := some 5 }]).2.2 = j.sendbuf ++ lit "0\r\n\r\n" := by
  have h₁ : j.sendData env file { sent := some j.sendbuf.length, seen := [(.complete, j.nSendPos)] } =
      ({ j.flushed j.sendbuf.length with sendbuf := lit "0\r\n\r\n", activity := .done }, .again, j.sendbuf) := by
    rw [sendData_flushed env file j _ j.sendbuf.length hne rfl (by simp [flushed])]
    simp [perform, flushed, ha, sendChunkHeader, awaitSendableState]
  have h₂ : ∀ k : ClientJob, k.activity = .done → k.sendbuf = lit "0\r\n\r\n" →
      (k.deliver env file [{ sent := some 5 }]).2.2 = lit "0\r\n\r\n" := by
    intro k hk hb
    have hflush : (k.flushed 5).sendbuf = [] := by
      rw [flushed, hb]
      rfl
    have hcall := sendData_flushed env file k { sent := some 5 } 5 (by rw [hb]; decide) rfl hflush
    have hp : (k.flushed 5).perform env file { sent := some 5 } =
        ((k.flushed 5).returnStreamOk.1, (k.flushed 5).returnStreamOk.2, []) := by
      simp [perform, flushed, hk]
    have hres := returnStreamOk_ends (k.flushed 5)
    rw [hp, hb] at hcall
    rw [deliver, hcall]
    generalize (k.flushed 5).returnStreamOk = r at hres ⊢
    obtain ⟨k', res⟩ := r
    cases res with
    | again => exact absurd rfl hres
    | done => rfl
    | discon => rfl
  rw [deliver, h₁]
  simp only
  rw [h₂ _ rfl rfl]

/-- Chunks are sent even if nothing but the head is wanted. -/
theorem chunked_not_oneHead (env : CookEnv) (file : Bytes) (j : ClientJob) (io : SendIo)
    (h : NewHeadJob j) (fi : FileItem) (ha : (started env j io).activity = .sendChunkHeader)
    (hb : (started env j io).sendbuf = j.chunkedHead env fi) : ¬ WritesOneHead env file j io := by
  rintro ⟨head, hone, hruns⟩
  obtain ⟨a, hblank⟩ := j.chunkedHead_blank env fi
  have hne : (started env j io).sendbuf ≠ [] := by
    rw [hb, hblank]
    exact List.append_ne_nil_of_right_ne_nil _ (by decide)
  have hpre := (hruns [{ sent := some (started env j io).sendbuf.length
                         seen := [(.complete, (started env j io).nSendPos)] }, { sent := some 5 }]).1
  rw [deliver_started env file j io h, deliver_last_chunk env file _ ha hne, hb, hblank] at hpre
  cases hone.end_of_blank hpre

/-- When a HEAD request is answered with a head: the item can be sent, it is not an error, its
answer has no page and no chunks, and no text in the head brings an empty line. -/
def HeadAnswered (env : CookEnv) (j : ClientJob) (io : SendIo) : Prop :=
  (j.awaitSendableState io.seen).isSome = true ∧
    match io.item with
    | none => False
    | some (fi, remoteHead) =>
      if remoteHead ≠ [] then OneHead remoteHead
      else if (fi.responseStatus.isRedirect || fi.responseStatus.mustNotHaveBody) = true then
        NoBlankLine fi.responseStatus.msg ∧
          (fi.responseStatus.isRedirect = true → NoBlankLine fi.responseOrigin) ∧
          NoBlankLine env.date ∧ NoBlankLine env.server
      else
        fi.responseStatus.code = 200 ∧
          if j.notModified env fi = true then NoBlankLine env.date ∧ NoBlankLine env.server
          else
            j.goChunked fi = false ∧ j.unsatisfiable fi = false ∧
              NoBlankLine env.contentType ∧ NoBlankLine fi.responseModDate.buf ∧
              NoBlankLine fi.responseOrigin ∧ NoBlankLine env.date ∧ NoBlankLine env.server

theorem writesOneHead_page (env : CookEnv) (file : Bytes) (j k : ClientJob) (io : SendIo)
    (message : Bytes) (h : NewHeadJob j)
    (hs : (started env j io).sendbuf = (k.setEarlySimpleResponse env message).sendbuf)
    (hf : (started env j io).Flushing) : ¬ WritesOneHead env file j io := by
  rw [writesOneHead_flushing env file j io h hf, hs]
  exact k.early_page env message

theorem addPtHeader_flushing (j : ClientJob) (remoteHead : Bytes) (ha : j.activity = .sendData)
    (hh : j.bIsHeadOnly = true) : (j.addPtHeader remoteHead).Flushing := by
  refine .inr (.inr ?_)
  unfold addPtHeader
  cases hf : findNoCase (lit "\nTransfer-Encoding:") (cstr remoteHead) <;> simp only [hf] <;> split <;>
    exact ⟨ha, hh⟩

/-- The answers for an item that has no head to pass through. -/
theorem cooked_head_iff (env : CookEnv) (file : Bytes) (j : ClientJob) (io : SendIo)
    (h : NewHeadJob j) (fi : FileItem)
    (hs : started env j io = j.cookResponseHeader env (some (fi, []))) :
    WritesOneHead env file j io ↔
      if (fi.responseStatus.isRedirect || fi.responseStatus.mustNotHaveBody) = true then
        NoBlankLine fi.responseStatus.msg ∧
          (fi.responseStatus.isRedirect = true → NoBlankLine fi.responseOrigin) ∧
          NoBlankLine env.date ∧ NoBlankLine env.server
      else
        fi.responseStatus.code = 200 ∧
          if j.notModified env fi = true then NoBlankLine env.date ∧ NoBlankLine env.server
          else
            j.goChunked fi = false ∧ j.unsatisfiable fi = false ∧
              NoBlankLine env.contentType ∧ NoBlankLine fi.responseModDate.buf ∧
              NoBlankLine fi.responseOrigin ∧ NoBlankLine env.date ∧ NoBlankLine env.server := by
  let k : ClientJob := { j with activity := .sendData }
  have hm : k.notModified env fi = j.notModified env fi := rfl
  have hc : k.goChunked fi = j.goChunked fi := rfl
  have hu : k.unsatisfiable fi = j.unsatisfiable fi := rfl
  have hpage : ∀ (k : ClientJob) message, started env j io = k.setEarlySimpleResponse env message →
      ¬ WritesOneHead env file j io := by
    intro k message he
    exact writesOneHead_page env file j k io message h (by rw [he]) (by rw [he]; exact .inl rfl)
  simp only [cookResponseHeader, List.isEmpty_nil, Bool.not_true, Bool.false_eq_true, if_false] at hs
  change started env j io = _ at hs
  by_cases h1 : (fi.responseStatus.isRedirect || fi.responseStatus.mustNotHaveBody) = true
  · rw [if_pos h1] at hs ⊢
    rw [writesOneHead_flushing env file j io h (by rw [hs]; exact .inl rfl), hs]
    exact bodilessHead_iff env k fi
  rw [if_neg h1] at hs ⊢
  by_cases h2 : fi.responseStatus.code = 200
  swap
  · rw [if_pos h2] at hs
    exact iff_of_false (hpage k _ hs) (fun hx => h2 hx.1)
  rw [if_neg (not_not_intro h2)] at hs
  change started env j io = if k.notModified env fi = true then _ else if k.goChunked fi = true then _ else
    if k.unsatisfiable fi = true then _ else _ at hs
  rw [hm, hc, hu] at hs
  by_cases h3 : j.notModified env fi = true
  · rw [if_pos h3] at hs ⊢
    rw [writesOneHead_flushing env file j io h (by rw [hs]; exact .inl rfl), hs, earlyHead_iff]
    simp [h2]
  rw [if_neg h3] at hs ⊢
  by_cases h4 : j.goChunked fi = true
  · rw [if_pos h4] at hs
    refine iff_of_false (chunked_not_oneHead env file j io h fi (by rw [hs]) (by rw [hs]; rfl)) ?_
    rintro ⟨-, hx, -⟩
    rw [h4] at hx
    cases hx
  rw [if_neg h4] at hs
  by_cases h5 : j.unsatisfiable fi = true
  · rw [if_pos h5] at hs
    refine iff_of_false (hpage k _ hs) ?_
    rintro ⟨-, -, hx, -⟩
    rw [h5] at hx
    cases hx
  rw [if_neg h5] at hs
  have hok : (fi.responseStatus.code = 200 ∧ j.goChunked fi = false ∧ j.unsatisfiable fi = false ∧
      NoBlankLine env.contentType ∧ NoBlankLine fi.responseModDate.buf ∧
      NoBlankLine fi.responseOrigin ∧ NoBlankLine env.date ∧ NoBlankLine env.server) ↔
      NoBlankLine env.contentType ∧ NoBlankLine fi.responseModDate.buf ∧
      NoBlankLine fi.responseOrigin ∧ NoBlankLine env.date ∧ NoBlankLine env.server := by
    simp [h2, h4, h5]
  rw [hok]
  split at hs
  · rw [writesOneHead_flushing env file j io h (by rw [hs]; exact .inr (.inr ⟨rfl, h.head⟩)), hs]
    exact partialHead_iff env k fi _ _ _
  · rw [writesOneHead_flushing env file j io h (by rw [hs]; exact .inr (.inr ⟨rfl, h.head⟩)), hs]
    exact fullHead_iff env k fi

/-- A HEAD request is answered with one head and nothing behind it exactly in these cases. -/
theorem head_request_iff (env : CookEnv) (file : Bytes) (j : ClientJob) (io : SendIo)
    (h : NewHeadJob j) :
    WritesOneHead env file j io ↔ HeadAnswered env j io := by
  unfold HeadAnswered
  cases hw : j.awaitSendableState io.seen with
  | none =>
    have hs : started env j io = (j.handleSuddenError env io.item).1 := by simp only [started, hw]
    simp only [handleSuddenError, h.count, ne_eq, not_true_eq_false, if_false] at hs
    refine iff_of_false (writesOneHead_page env file j j io _ h (by rw [hs]) (by rw [hs]; exact .inl rfl)) ?_
    rintro ⟨hx, -⟩
    cases hx
  | some p =>
    have hs : started env j io = j.cookResponseHeader env io.item := by simp only [started, hw]
    simp only [Option.isSome_some, true_and]
    cases hi : io.item with
    | none =>
      rw [hi] at hs
      exact iff_of_false (writesOneHead_page env file j j io (lit "500 Invalid cache object") h (by rw [hs]; rfl)
        (by rw [hs]; exact .inr (.inl rfl))) id
    | some item =>
      obtain ⟨fi, remoteHead⟩ := item
      rw [hi] at hs
      by_cases hr : remoteHead = []
      · subst hr
        exact cooked_head_iff env file j io h fi hs
      · have he : remoteHead.isEmpty = false := by simpa using hr
        have hs' : started env j io = { j with activity := .sendData }.addPtHeader remoteHead := by
          rw [hs]
          simp only [cookResponseHeader, he, Bool.not_false, if_true]
        simp only [hr, ne_eq, not_false_eq_true, if_true]
        rw [writesOneHead_flushing env file j io h
          (by rw [hs']; exact addPtHeader_flushing _ remoteHead rfl h.head), hs']
        exact addPtHeader_iff _ remoteHead h.buf

/-- A complete item of four bytes. -/
theorem head_request_plain :
    WritesOneHead { dates := plainEnv.dates } (lit "abcd") { bIsHeadOnly := true }
      { seen := [(.complete, 4)]
        item := some ({ status := .complete, responseStatus := ⟨200, lit "OK"⟩, nContentLength := 4 }, []) } := by
  refine (head_request_iff { dates := plainEnv.dates } (lit "abcd") { bIsHeadOnly := true } _
    ⟨rfl, rfl, rfl, rfl⟩).mpr ⟨by decide, ?_⟩
  simp only
  rw [if_neg (by decide), if_neg (by decide)]
  refine ⟨trivial, ?_⟩
  rw [if_neg (by decide)]
  decide

/-- A file that is not there is answered with a page. -/
theorem head_request_page :
    ¬ WritesOneHead { dates := plainEnv.dates } [] { bIsHeadOnly := true }
      { seen := [(.dlGotHead, 0)]
        item := some ({ status := .dlGotHead, responseStatus := ⟨404, lit "Not Found"⟩ }, []) } := by
  refine writesOneHead_page _ _ _ { bIsHeadOnly := true, activity := .sendData } _ (lit "404 Not Found")
    ⟨rfl, rfl, rfl, rfl⟩ ?_ (.inl rfl)
  rfl

end Acng.ClientJob
