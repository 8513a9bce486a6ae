import Acng.Response
import Acng.Proofs.Load
import Acng.Proofs.Storage
import Acng.Proofs.HeadCases

namespace Acng.Dl
open Lib

theorem procHeader_none (env : Env) (io : Io) (bOnly : Bool) (d d' : Dl)
    (h : d.procHeader env io bOnly = (d', none)) :
    ∃ d1 hd n contLen ret d2, d.headStep env bOnly = .save d1 hd n contLen ret ∧
      d1.checkAndSaveHeader env io hd n contLen = (.good, d2) ∧
      d' = { d2 with
        buf := d2.buf.drop n
        job := if d2.fi.spattr.bHeadOnly then { d2.job with nRest := 0 } else d2.job } := by
  unfold procHeader at h
  split at h
  · simp at h
  · rename_i d1 hd n contLen ret hs
    cases hc : d1.checkAndSaveHeader env io hd n contLen with
    | mk res d2 =>
      simp only [hc] at h
      cases res with
      | restartNeeded => simp at h
      | busyOrError => simp at h
      | good =>
        refine ⟨d1, hd, n, contLen, ret, d2, hs, hc, ?_⟩
        simp only [Prod.mk.injEq, and_true] at h
        rw [← h]
        split <;> rfl

theorem procHeader_passes (env : Env) (io : Io) (bOnly : Bool) (d d' : Dl)
    (hst : d.job.dlState = .getHeader) (h : d.procHeader env io bOnly = (d', none)) :
    d'.passes < d.passes := by
  obtain ⟨d1, hd, n, contLen, ret, d2, hs, hc, rfl⟩ := procHeader_none env io bOnly d d' h
  have hsv := headStep_saved env bOnly d d1 hd n contLen ret hs
  have hfr := checkAndSaveHeader_frame env io d1 hd n contLen
  rw [hc] at hfr
  have hle := Header.load_le d.buf none
  rw [hsv.len] at hle
  have hpos := hsv.pos
  have hb : d2.buf.length = d.buf.length := by rw [hfr.buf, hsv.buf]
  have hlow : d.passes = 3 * d.buf.length + 1 := by simp [passes, hst]
  have hup : ∀ e : Dl, e.passes ≤ 3 * e.buf.length + 2 := by
    intro e
    unfold passes
    split <;> omega
  refine Nat.lt_of_le_of_lt (hup _) ?_
  simp only [List.length_drop]
  omega

/-- The bytes that `NewDataHandler` takes from the buffer. -/
def toStore (d : Dl) : Bytes := d.buf.take (min d.buf.length d.job.nRest)

/-- What becomes of them: nothing, a `DlAddData`, or they are skipped. -/
def handOver (io : Io) (d : Dl) : Bool × FileItem :=
  if d.toStore = [] then (true, d.fi)
  else if d.job.bAllowStoreData then d.fi.dlAddData d.toStore io.store
  else (true, d.fi)

theorem toStore_length (d : Dl) : d.toStore.length = min d.buf.length d.job.nRest := by
  simp [toStore]

/-- The three ends of `NewDataHandler`: failure, more to come, data complete. -/
theorem procData_cases (io : Io) (d : Dl) :
    ((d.handOver io).1 = false ∧ d.procData io =
      ({ d with fi := (d.handOver io).2, job := { d.job with sErrorMsg := lit "Cannot store" } },
        some (HINT_RECONNECT_NOW ||| EFLAG_JOB_BROKEN))) ∨
    ((d.handOver io).1 = true ∧ d.toStore.length < d.job.nRest ∧ d.procData io =
      ({ d with
        fi := (d.handOver io).2, buf := d.buf.drop d.toStore.length
        job := { d.job with nRest := d.job.nRest - d.toStore.length } }, some HINT_MORE)) ∨
    ((d.handOver io).1 = true ∧ d.toStore.length = d.job.nRest ∧ d.procData io =
      ({ d with
        fi := (d.handOver io).2, buf := d.buf.drop d.toStore.length
        job := { d.job with
          nRest := 0
          dlState := if d.job.dlState = .processData then .finishJob else .getChunkHead } }, none)) := by
  have hlen := toStore_length d
  have hnil : (min d.buf.length d.job.nRest = 0) = (d.toStore = []) := by
    rw [← hlen, List.length_eq_zero_iff]
  have heq : d.procData io = (fun r : Bool × FileItem =>
      if !r.1 then
        ({ d with fi := r.2, job := { d.job with sErrorMsg := lit "Cannot store" } },
          some (HINT_RECONNECT_NOW ||| EFLAG_JOB_BROKEN))
      else if d.job.nRest - d.toStore.length ≠ 0 then
        ({ d with
          fi := r.2, buf := d.buf.drop d.toStore.length
          job := { d.job with nRest := d.job.nRest - d.toStore.length } }, some HINT_MORE)
      else
        ({ d with
          fi := r.2, buf := d.buf.drop d.toStore.length
          job := { d.job with
            nRest := d.job.nRest - d.toStore.length
            dlState := if d.job.dlState = .processData then .finishJob else .getChunkHead } }, none))
      (d.handOver io) := by
    have hh : d.handOver io = if min d.buf.length d.job.nRest = 0 then (true, d.fi)
        else if d.job.bAllowStoreData then d.fi.dlAddData d.toStore io.store
        else (true, d.fi) := by
      simp only [handOver, hnil]
    simp only [hlen]
    rw [hh]
    rfl
  rw [heq]
  cases hr : d.handOver io with
  | mk ok fi' =>
    cases ok with
    | false => exact .inl ⟨rfl, rfl⟩
    | true =>
      by_cases hn : d.toStore.length < d.job.nRest
      · have : d.job.nRest - d.toStore.length ≠ 0 := by omega
        exact .inr (.inl ⟨rfl, hn, by simp [this]⟩)
      · have h0 : d.job.nRest - d.toStore.length = 0 := by omega
        exact .inr (.inr ⟨rfl, by omega, by simp [h0]⟩)

theorem procData_passes (io : Io) (d d' : Dl)
    (hst : d.job.dlState = .processData ∨ d.job.dlState = .processChunkData)
    (h : d.procData io = (d', none)) : d'.passes < d.passes := by
  have hp : d.passes = 3 * d.buf.length + 2 := by
    rcases hst with hst | hst <;> simp [passes, hst]
  rcases procData_cases io d with ⟨-, he⟩ | ⟨-, -, he⟩ | ⟨-, -, he⟩
  · simp [he] at h
  · simp [he] at h
  · rw [he] at h
    simp only [Prod.mk.injEq, and_true] at h
    rw [hp, ← h]
    have hlen : (d.buf.drop d.toStore.length).length ≤ d.buf.length := by
      rw [List.length_drop]
      exact Nat.sub_le _ _
    rcases hst with hst | hst
    · simp only [passes, hst, if_true]
      omega
    · simp only [passes, hst, reduceCtorEq, if_false]
      omega

theorem procChunkHead_passes (d d' : Dl) (hst : d.job.dlState = .getChunkHead)
    (h : d.procChunkHead = (d', none)) : d'.passes < d.passes := by
  have hp : d.passes = 3 * d.buf.length + 1 := by simp [passes, hst]
  have hdw : (d.buf.dropWhile (fun c => c == 13 || c == 10)).length ≤ d.buf.length :=
    (List.dropWhile_suffix _).length_le
  unfold procChunkHead at h
  simp only at h
  split at h
  · simp at h
  · rename_i p hfind
    have hle := find_le crlf _ p hfind
    have hcs := (cstr_take (d.buf.dropWhile (fun c => c == 13 || c == 10))).length_le
    have h2 : crlf.length = 2 := rfl
    split at h
    · simp at h
    · split at h
      · simp only [Prod.mk.injEq, and_true] at h
        rw [hp, ← h]
        simp only [passes, List.length_drop]
        omega
      · simp only [Prod.mk.injEq, and_true] at h
        rw [hp, ← h]
        simp only [passes, List.length_drop]
        omega

theorem procTrailer_passes (d d' : Dl) (hst : d.job.dlState = .getChunkTrailer)
    (h : d.procTrailer = (d', none)) : d'.passes < d.passes := by
  have hp : d.passes = 3 * d.buf.length + 1 := by simp [passes, hst]
  unfold procTrailer at h
  split at h
  · simp at h
  · split at h
    · simp at h
    · simp only [Prod.mk.injEq, and_true] at h
      rw [hp, ← h]
      simp only [passes, List.length_drop]
      omega
    · simp only [Prod.mk.injEq, and_true] at h
      rw [hp, ← h]
      simp only [passes, hst, List.length_drop]
      omega

/-- A pass that does not return brings the loop closer to its end. -/
theorem procStep_passes (env : Env) (io : Io) (bOnly : Bool) (d d' : Dl)
    (h : d.procStep env io bOnly = (d', none)) : d'.passes < d.passes := by
  unfold procStep at h
  split at h
  · rename_i hst
    exact procHeader_passes env io bOnly d d' hst h
  · rename_i hst
    exact procData_passes io d d' (.inl hst) h
  · rename_i hst
    exact procData_passes io d d' (.inr hst) h
  · simp at h
  · rename_i hst
    exact procChunkHead_passes d d' hst h
  · rename_i hst
    exact procTrailer_passes d d' hst h

theorem passes_pos (d : Dl) : 0 < d.passes := by
  unfold passes
  cases d.job.dlState <;> simp

theorem procLoop_fuel (env : Env) (io : Io) (bOnly : Bool) (n m : Nat) (d : Dl)
    (hn : d.passes ≤ n) (hm : d.passes ≤ m) : procLoop env io bOnly n d = procLoop env io bOnly m d := by
  induction n generalizing m d with
  | zero => exact absurd d.passes_pos (not_lt.mpr hn)
  | succ n ih =>
    cases m with
    | zero => exact absurd d.passes_pos (not_lt.mpr hm)
    | succ m =>
      simp only [procLoop]
      cases hs : d.procStep env io bOnly with
      | mk d' res =>
        cases res with
        | some r => rfl
        | none =>
          have hlt := procStep_passes env io bOnly d d' hs
          exact ih m d' (by omega) (by omega)

/-- `ProcessIncomming` pass by pass: the fuel never runs out. -/
theorem processIncomming_eq (env : Env) (io : Io) (bOnly : Bool) (d : Dl) :
    d.processIncomming env io bOnly =
      match d.procStep env io bOnly with
      | (d', some res) => (d', res)
      | (d', none) => d'.processIncomming env io bOnly := by
  unfold processIncomming
  obtain ⟨n, hn⟩ := Nat.exists_eq_succ_of_ne_zero (Nat.ne_of_gt d.passes_pos)
  rw [hn]
  simp only [procLoop]
  cases hs : d.procStep env io bOnly with
  | mk d' res =>
    cases res with
    | some r => rfl
    | none =>
      have hlt := procStep_passes env io bOnly d d' hs
      exact procLoop_fuel env io bOnly n d'.passes d' (by omega) (Nat.le_refl _)

/-- Loop rule: what every pass keeps until it returns, the call establishes. -/
theorem processIncomming_rule (env : Env) (io : Io) (bOnly : Bool) (Inv : Dl → Prop)
    (Post : Dl → Nat → Prop)
    (hret : ∀ d d' res, Inv d → d.procStep env io bOnly = (d', some res) → Post d' res)
    (hgo : ∀ d d', Inv d → d.procStep env io bOnly = (d', none) → Inv d') (d : Dl) (h : Inv d) :
    Post (d.processIncomming env io bOnly).1 (d.processIncomming env io bOnly).2 := by
  induction hp : d.passes using Nat.strongRecOn generalizing d with
  | _ n ih =>
    rw [processIncomming_eq]
    cases hs : d.procStep env io bOnly with
    | mk d' res =>
      cases res with
      | some r => exact hret d d' r h hs
      | none => exact ih d'.passes (hp ▸ procStep_passes env io bOnly d d' hs) d' (hgo d d' h hs) rfl

theorem procHeader_suffix (env : Env) (io : Io) (bOnly : Bool) (d : Dl) :
    (d.procHeader env io bOnly).1.buf <:+ d.buf := by
  unfold procHeader
  split
  · rename_i d' res hs
    exact (headStep_returned env bOnly d d' res hs).buf
  · rename_i d1 hd n contLen ret hs
    have hsv := headStep_saved env bOnly d d1 hd n contLen ret hs
    have hfr := checkAndSaveHeader_frame env io d1 hd n contLen
    have hb : (d1.checkAndSaveHeader env io hd n contLen).2.buf.drop n <:+ d.buf := by
      rw [hfr.buf, hsv.buf]
      exact List.drop_suffix _ _
    simp only
    repeat' split
    all_goals exact hb

theorem procData_suffix (io : Io) (d : Dl) : (d.procData io).1.buf <:+ d.buf := by
  rcases procData_cases io d with ⟨-, he⟩ | ⟨-, -, he⟩ | ⟨-, -, he⟩
  · exact he ▸ List.suffix_refl d.buf
  · rw [he]
    exact List.drop_suffix _ _
  · rw [he]
    exact List.drop_suffix _ _

theorem procStep_suffix (env : Env) (io : Io) (bOnly : Bool) (d : Dl) :
    (d.procStep env io bOnly).1.buf <:+ d.buf := by
  unfold procStep
  split
  · exact procHeader_suffix env io bOnly d
  · exact procData_suffix io d
  · exact procData_suffix io d
  · exact List.suffix_refl _
  · have hw : d.buf.dropWhile (fun c => c == 13 || c == 10) <:+ d.buf := List.dropWhile_suffix _
    unfold procChunkHead
    simp only
    repeat' split
    all_goals first | exact hw | exact (List.drop_suffix _ _).trans hw
  · unfold procTrailer
    repeat' split
    all_goals first | exact List.suffix_refl _ | exact List.drop_suffix _ _

/-- Input is only ever taken from the front of the buffer. -/
theorem processIncomming_suffix (env : Env) (io : Io) (bOnly : Bool) (d : Dl) :
    (d.processIncomming env io bOnly).1.buf <:+ d.buf := by
  refine processIncomming_rule env io bOnly (fun e => e.buf <:+ d.buf) (fun e _ => e.buf <:+ d.buf)
    ?_ ?_ d (List.suffix_refl _)
  · intro e e' res he hs
    have := procStep_suffix env io bOnly e
    rw [hs] at this
    exact this.trans he
  · intro e e' he hs
    have := procStep_suffix env io bOnly e
    rw [hs] at this
    exact this.trans he

end Acng.Dl
