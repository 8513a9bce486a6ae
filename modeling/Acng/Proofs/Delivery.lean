import Acng.SendData

namespace Acng.ClientJob
open Lib

/-- Something holds before each call for a job. -/
def Along (env : CookEnv) (file : Bytes) (P : ClientJob → SendIo → Prop) : ClientJob → List SendIo → Prop
  | _, [] => True
  | j, io :: ios =>
    P j io ∧ ((j.sendData env file io).2.1 = .again → Along env file P (j.sendData env file io).1 ios)

/-- The socket takes something. -/
def Moves (io : SendIo) : Prop := io.sent ≠ some 0 ∧ io.data ≠ some 0

/-- The job after a part of its buffer was sent. -/
def flushed (j : ClientJob) (r : Nat) : ClientJob :=
  { j with sendbuf := j.sendbuf.drop r, nAllDataCount := j.nAllDataCount + (j.sendbuf.take r).length }

/-- The waiting does not depend on the buffer. -/
theorem await_flushed (j : ClientJob) (r : Nat) (seen : List (FiStatus × Int)) :
    (j.flushed r).awaitSendableState seen = j.awaitSendableState seen := by
  induction seen with
  | nil => rfl
  | cons p seen ih =>
    simp only [awaitSendableState]
    rw [ih]
    rfl

theorem sendData_empty (env : CookEnv) (file : Bytes) (j : ClientJob) (io : SendIo) (h : j.sendbuf = []) :
    j.sendData env file io = j.perform env file io := by
  rw [sendData, h]
  rfl

theorem sendData_rest (env : CookEnv) (file : Bytes) (j : ClientJob) (io : SendIo) (r : Nat)
    (h : j.sendbuf ≠ []) (hr : io.sent = some r) (hrest : (j.flushed r).sendbuf ≠ []) :
    j.sendData env file io = (j.flushed r, .again, j.sendbuf.take r) := by
  have hb : j.sendbuf.isEmpty = false := by simpa using h
  have hb' : (j.sendbuf.drop r).isEmpty = false := by simpa [flushed] using hrest
  simp only [sendData, hb, hr, hb', flushed]
  rfl

theorem sendData_flushed (env : CookEnv) (file : Bytes) (j : ClientJob) (io : SendIo) (r : Nat)
    (h : j.sendbuf ≠ []) (hr : io.sent = some r) (hrest : (j.flushed r).sendbuf = []) :
    j.sendData env file io =
      (((j.flushed r).perform env file io).1, ((j.flushed r).perform env file io).2.1,
        j.sendbuf.take r ++ ((j.flushed r).perform env file io).2.2) := by
  have hb : j.sendbuf.isEmpty = false := by simpa using h
  have hb' : (j.sendbuf.drop r).isEmpty = true := by simpa [flushed] using hrest
  simp only [sendData, hb, hr, hb', flushed]
  rfl

theorem returnStreamOk_ends (j : ClientJob) : j.returnStreamOk.2 ≠ .again := by
  unfold returnStreamOk
  split
  · simp
  · simp [returnDiscon]

/-- What carries a run of calls: an invariant for the job and what it has sent, which holds in
whatever parts the buffer leaves, and a rank that falls with each call that moves something. When
the job ends, what was sent is as wanted. -/
structure Delivery (env : CookEnv) (file : Bytes) (G : ClientJob → SendIo → Prop)
    (I : ClientJob → Bytes → Prop) (Q : Bytes → Prop) (rank : ClientJob → Nat) : Prop where
  sent : ∀ {j io}, G j io → ∃ r, io.sent = some r
  given : ∀ {j io} r, G j io → G (j.flushed r) io
  flush : ∀ {j out} r, I j out → I (j.flushed r) (out ++ j.sendbuf.take r)
  rank_flushed : ∀ j r, rank (j.flushed r) = rank j
  perform : ∀ {j out io}, I j out → j.sendbuf = [] → G j io →
    (∃ j' out', j.perform env file io = (j', .again, out') ∧ I j' (out ++ out') ∧
      (Moves io → j'.sendbuf.length + rank j' < rank j)) ∨
    ((j.perform env file io).2.1 ≠ .again ∧ Q (out ++ (j.perform env file io).2.2))

variable {env : CookEnv} {file : Bytes} {G : ClientJob → SendIo → Prop} {I : ClientJob → Bytes → Prop}
variable {Q : Bytes → Prop} {rank : ClientJob → Nat}

/-- The step lemma. -/
theorem Delivery.step (d : Delivery env file G I Q rank) {j : ClientJob} {out : Bytes} {io : SendIo}
    (h : I j out) (hg : G j io) :
    (∃ j' out', j.sendData env file io = (j', .again, out') ∧ I j' (out ++ out') ∧
      (Moves io → j'.sendbuf.length + rank j' < j.sendbuf.length + rank j)) ∨
    ((j.sendData env file io).2.1 ≠ .again ∧ Q (out ++ (j.sendData env file io).2.2)) := by
  by_cases hb : j.sendbuf = []
  · rw [sendData_empty env file j io hb, hb, List.length_nil, Nat.zero_add]
    exact d.perform h hb hg
  obtain ⟨r, hr⟩ := d.sent hg
  by_cases hrest : (j.flushed r).sendbuf = []
  · rw [sendData_flushed env file j io r hb hr hrest]
    rcases d.perform (d.flush r h) hrest (d.given r hg) with ⟨j', out', he, hi, hm⟩ | ⟨hres, hq⟩
    · refine .inl ⟨j', j.sendbuf.take r ++ out', by rw [he], by rwa [← List.append_assoc], fun hmv => ?_⟩
      have := hm hmv
      rw [d.rank_flushed] at this
      omega
    · exact .inr ⟨hres, by rwa [← List.append_assoc]⟩
  · rw [sendData_rest env file j io r hb hr hrest]
    refine .inl ⟨_, _, rfl, d.flush r h, fun hmv => ?_⟩
    have hr0 : r ≠ 0 := by
      rintro rfl
      exact hmv.1 hr
    have hpos : 0 < j.sendbuf.length := List.length_pos_iff.mpr hb
    rw [d.rank_flushed]
    simp only [flushed, List.length_drop]
    omega

/-- The run lemma: as long as the job goes on the invariant holds, a job that ends has sent what
is wanted, and it ends if the socket always takes something. -/
theorem Delivery.run (d : Delivery env file G I Q rank) (ios : List SendIo) {j : ClientJob} {out : Bytes}
    (h : I j out) (hg : j.Along env file G ios) :
    ((j.deliver env file ios).2.1 = .again →
      I (j.deliver env file ios).1 (out ++ (j.deliver env file ios).2.2)) ∧
    ((j.deliver env file ios).2.1 ≠ .again → Q (out ++ (j.deliver env file ios).2.2)) ∧
    ((∀ io ∈ ios, Moves io) → j.sendbuf.length + rank j < ios.length →
      (j.deliver env file ios).2.1 ≠ .again) := by
  induction ios generalizing j out with
  | nil =>
    refine ⟨fun _ => ?_, fun h => absurd rfl h, fun _ h => absurd h (Nat.not_lt_zero _)⟩
    change I j (out ++ [])
    rwa [List.append_nil]
  | cons io ios ih =>
    have hstep := d.step h hg.1
    have hrest := hg.2
    unfold deliver
    rcases hstep with ⟨j', out', he, hi, hm⟩ | ⟨hres, hq⟩
    · rw [he] at hrest ⊢
      obtain ⟨h1, h2, h3⟩ := ih hi (hrest rfl)
      refine ⟨fun hend => by simpa [List.append_assoc] using h1 hend,
        fun hend => by simpa [List.append_assoc] using h2 hend, fun hmv hlen => ?_⟩
      refine h3 (fun io hio => hmv io (List.mem_cons_of_mem _ hio)) ?_
      have := hm (hmv io List.mem_cons_self)
      simp only [List.length_cons] at hlen
      omega
    · generalize j.sendData env file io = r at hres hq ⊢
      obtain ⟨j', res, out'⟩ := r
      cases res with
      | again => exact absurd rfl hres
      | done => exact ⟨fun h => absurd h hres, fun _ => hq, fun _ _ => hres⟩
      | discon => exact ⟨fun h => absurd h hres, fun _ => hq, fun _ _ => hres⟩

theorem sendFile_out (file : Bytes) (j : ClientJob) (n pos stop : Nat) (hpos : j.nSendPos = pos)
    (hlt : pos ≤ stop) (hle : stop ≤ file.length) :
    j.sendFile file n ((stop : Int) - j.nSendPos) =
      ({ j with
        nSendPos := (pos + min n (stop - pos) : Nat)
        nAllDataCount := j.nAllDataCount + min n (stop - pos) },
        (file.drop pos).take (min n (stop - pos))) := by
  have hlim : ((stop : Int) - j.nSendPos).toNat = stop - pos := by omega
  have hnat : j.nSendPos.toNat = pos := by omega
  have hlen : ((file.drop pos).take (min n (stop - pos))).length = min n (stop - pos) := by
    rw [List.length_take, List.length_drop]
    omega
  simp only [sendFile, hlim, hnat, hlen]
  rw [hpos]
  simp

theorem take_append_next (file : Bytes) (start pos n : Nat) (h : start ≤ pos) :
    (file.drop start).take (pos - start) ++ (file.drop pos).take n =
      (file.drop start).take (pos + n - start) := by
  have h1 : pos + n - start = (pos - start) + n := by omega
  have h2 : file.drop pos = (file.drop start).drop (pos - start) := by
    rw [List.drop_drop]
    congr 1
    omega
  rw [h1, h2, List.take_add]

end Acng.ClientJob
