import Acng.InitFromFile

namespace Acng
open Lib

/-- The bytes that some reads give together, if there is space for them. -/
def total (reads : List SysRead) : Nat := (reads.map (fun read => read.bytes.length)).sum

namespace Acbuf

/-- A buffer of an unsigned size, which its data does not exceed. -/
structure Sized (b : Acbuf) (c : Nat) : Prop where
  capa : b.m_nCapacity = c
  small : c < 2 ^ 32
  fits : b.data.length ≤ c

theorem Sized.freecapa {b : Acbuf} {c : Nat} (h : b.Sized c) : b.freecapa = c - b.data.length := by
  have hfits := h.fits
  have hsmall := h.small
  rw [Acbuf.freecapa, unsignedInt, h.capa]
  omega

/-- What a read does to a buffer that is not full, unless it fails. -/
theorem Sized.sysread {b : Acbuf} {c : Nat} (h : b.Sized c) {read : SysRead} (hok : read.isFailed = false)
    {n : Int} {b' : Acbuf} (hread : b.sysread read = some (n, b')) :
    0 ≤ n ∧ b'.Sized c ∧ b'.data.length = min c (b.data.length + read.bytes.length) := by
  cases read with
  | interrupted => simp [Acbuf.sysread] at hread
  | failed errno => simp [SysRead.isFailed] at hok
  | data bytes =>
    have hfits := h.fits
    simp only [Acbuf.sysread, Option.some_inj, Prod.mk.injEq] at hread
    obtain ⟨rfl, rfl⟩ := hread
    have hlen : (b.data ++ bytes.take b.freecapa).length = min c (b.data.length + bytes.length) := by
      rw [List.length_append, List.length_take, h.freecapa]
      omega
    exact ⟨Int.natCast_nonneg _, ⟨h.capa, h.small, by rw [hlen]; omega⟩, hlen⟩

/-- A round of the loop with a read that does not fail: the data gets longer by its bytes, up to the capacity. -/
theorem Sized.readAll_cons {b : Acbuf} {c : Nat} (h : b.Sized c) {read : SysRead} (hok : read.isFailed = false)
    (hopen : b.data.length < c) (reads : List SysRead) :
    ∃ b' : Acbuf, b'.Sized c ∧ b'.data.length = min c (b.data.length + read.bytes.length) ∧
      b.readAll (read :: reads) = b'.readAll reads := by
  have hfree : b.freecapa ≠ 0 := by
    rw [h.freecapa]
    omega
  rw [readAll, if_neg hfree]
  cases hread : b.sysread read with
  | none =>
    have hnone : read.bytes.length = 0 := by
      cases read with
      | interrupted => rfl
      | failed errno => rfl
      | data bytes => simp [Acbuf.sysread] at hread
    exact ⟨b, h, by have := h.fits; omega, rfl⟩
  | some x =>
    obtain ⟨n, b'⟩ := x
    obtain ⟨hn, hsized, hlen⟩ := h.sysread hok hread
    exact ⟨b', hsized, hlen, if_neg (by omega)⟩

theorem Sized.readAll_full {b : Acbuf} {c : Nat} (h : b.Sized c) (hfull : c ≤ b.data.length)
    (reads : List SysRead) : b.readAll reads = some (true, b) := by
  have hfree : b.freecapa = 0 := by
    rw [h.freecapa]
    omega
  cases reads <;> rw [readAll, if_pos hfree]

theorem Sized.readAll_failed {b : Acbuf} {c : Nat} (h : b.Sized c) (hopen : b.data.length < c)
    {read : SysRead} (hfail : read.isFailed = true) (reads : List SysRead) :
    b.readAll (read :: reads) = some (false, b) := by
  have hfree : b.freecapa ≠ 0 := by
    rw [h.freecapa]
    omega
  cases read with
  | data bytes => simp [SysRead.isFailed] at hfail
  | interrupted => simp [SysRead.isFailed] at hfail
  | failed errno =>
    have hneg : -(errno : Int) < 0 := by
      have := errno.pos
      omega
    rw [readAll, if_neg hfree]
    exact if_pos hneg

/-- The loop waits for more as long as there is space and no read has failed. -/
theorem Sized.readAll_none {b : Acbuf} {c : Nat} (h : b.Sized c) (reads : List SysRead) :
    b.readAll reads = none ↔ (∀ read ∈ reads, read.isFailed = false) ∧ b.data.length + total reads < c := by
  induction reads generalizing b with
  | nil =>
    by_cases hfull : c ≤ b.data.length
    · rw [h.readAll_full hfull]
      simp [total]
      omega
    · have hfree : b.freecapa ≠ 0 := by
        rw [h.freecapa]
        omega
      rw [readAll, if_neg hfree]
      simpa [total] using hfull
  | cons read reads ih =>
    have htotal : total (read :: reads) = read.bytes.length + total reads := by
      rw [total, List.map_cons, List.sum_cons, total]
    by_cases hfull : c ≤ b.data.length
    · rw [h.readAll_full hfull]
      simp only [reduceCtorEq, false_iff, not_and]
      omega
    · cases hfail : read.isFailed with
      | true =>
        rw [h.readAll_failed (by omega) hfail]
        simp [hfail]
      | false =>
        obtain ⟨b', hsized, hlen, hcons⟩ := h.readAll_cons hfail (by omega) reads
        rw [hcons, ih hsized, htotal, List.forall_mem_cons]
        simp only [hfail, true_and]
        refine and_congr_right (fun _ => ?_)
        omega

/-- A full buffer has the bytes of the reads. -/
theorem Sized.readAll_true {b : Acbuf} {c : Nat} (h : b.Sized c) {reads : List SysRead} {b' : Acbuf}
    (hall : b.readAll reads = some (true, b')) : b'.data.length = c ∧ c ≤ b.data.length + total reads := by
  induction reads generalizing b with
  | nil =>
    by_cases hfull : c ≤ b.data.length
    · rw [h.readAll_full hfull, Option.some_inj, Prod.mk.injEq] at hall
      have hfits := h.fits
      rw [← hall.2]
      omega
    · have hnone := (h.readAll_none []).mpr ⟨by simp, by simpa [total] using hfull⟩
      rw [hnone] at hall
      exact absurd hall (by simp)
  | cons read reads ih =>
    have htotal : total (read :: reads) = read.bytes.length + total reads := by
      rw [total, List.map_cons, List.sum_cons, total]
    by_cases hfull : c ≤ b.data.length
    · rw [h.readAll_full hfull, Option.some_inj, Prod.mk.injEq] at hall
      have hfits := h.fits
      rw [← hall.2]
      omega
    · cases hfail : read.isFailed with
      | true =>
        rw [h.readAll_failed (by omega) hfail] at hall
        exact absurd hall (by simp)
      | false =>
        obtain ⟨b'', hsized, hlen, hcons⟩ := h.readAll_cons hfail (by omega) reads
        rw [hcons] at hall
        have := ih hsized hall
        omega

/-- When a read fails before the buffer is full. -/
theorem Sized.readAll_false {b : Acbuf} {c : Nat} (h : b.Sized c) (reads : List SysRead) :
    (∃ b', b.readAll reads = some (false, b')) ↔
      ∃ front read rest, reads = front ++ read :: rest ∧ read.isFailed = true ∧
        b.data.length + total front < c := by
  induction reads generalizing b with
  | nil =>
    simp only [readAll]
    split <;> simp
  | cons read reads ih =>
    by_cases hfull : c ≤ b.data.length
    · rw [h.readAll_full hfull]
      simp only [Option.some_inj, Prod.mk.injEq, reduceCtorEq, false_and, exists_false, false_iff]
      rintro ⟨front, read', rest, -, -, hless⟩
      omega
    · cases hfail : read.isFailed with
      | true =>
        rw [h.readAll_failed (by omega) hfail]
        exact ⟨fun _ => ⟨[], read, reads, rfl, hfail, by simpa [total] using hfull⟩, fun _ => ⟨b, rfl⟩⟩
      | false =>
        obtain ⟨b', hsized, hlen, hcons⟩ := h.readAll_cons hfail (by omega) reads
        rw [hcons, ih hsized]
        constructor
        · rintro ⟨front, read', rest, rfl, hfail', hless⟩
          refine ⟨read :: front, read', rest, rfl, hfail', ?_⟩
          rw [total, List.map_cons, List.sum_cons]
          rw [total] at hless
          omega
        · rintro ⟨front, read', rest, heq, hfail', hless⟩
          cases front with
          | nil =>
            obtain ⟨rfl, rfl⟩ := List.cons_eq_cons.mp heq
            rw [hfail] at hfail'
            exact absurd hfail' (by simp)
          | cons first front =>
            rw [List.cons_append] at heq
            obtain ⟨rfl, rfl⟩ := List.cons_eq_cons.mp heq
            rw [total, List.map_cons, List.sum_cons] at hless
            refine ⟨front, read', rest, rfl, hfail', ?_⟩
            rw [total]
            omega

/-- The reads of a file that nobody changes, behind its first bytes. -/
def fromFile (file : Bytes) (c : Nat) : Nat → List ReadResult → List SysRead
  | _, [] => []
  | w, .got n :: reads =>
    .data ((file.drop w).take (min n (c - w))) ::
      fromFile file c (w + min n (min (c - w) (file.length - w))) reads
  | w, .interrupted :: reads => .interrupted :: fromFile file c w reads
  | w, .failed :: reads => .failed 5 :: fromFile file c w reads

/-- On such a file the loop is the one that head files are read with. -/
theorem Sized.readAll_fromFile (file : Bytes) {b : Acbuf} {c : Nat} (h : b.Sized c) {w : Nat}
    (hw : w ≤ file.length) (hdata : b.data = file.take w) (reads : List ReadResult) :
    b.readAll (fromFile file c w reads) =
      (readLoop c file.length w reads).map (fun x => (x.1, { b with data := file.take x.2 })) := by
  have hlen : b.data.length = w := by
    rw [hdata, List.length_take]
    omega
  have hsame : { b with data := file.take w } = b := by rw [← hdata]
  induction reads generalizing b w with
  | nil =>
    by_cases hfull : c ≤ w
    · rw [fromFile, h.readAll_full (by omega), readLoop, if_pos hfull, Option.map_some, hsame]
    · rw [fromFile, readLoop, if_neg hfull, (h.readAll_none []).mpr ⟨by simp, by simp [total]; omega⟩]
      rfl
  | cons read reads ih =>
    by_cases hfull : c ≤ w
    · have hloop : readLoop c file.length w (read :: reads) = some (true, w) := by
        cases read <;> simp only [readLoop, if_pos hfull]
      rw [h.readAll_full (by omega), hloop, Option.map_some, hsame]
    · have hfree : ¬ b.freecapa = 0 := by
        rw [h.freecapa]
        omega
      cases read with
      | failed =>
        rw [fromFile, h.readAll_failed (by omega) rfl]
        simp only [readLoop, if_neg hfull, Option.map_some, hsame]
      | interrupted =>
        rw [fromFile, readAll, if_neg hfree]
        simp only [readLoop, if_neg hfull]
        exact ih h hw hdata hlen hsame
      | got n =>
        let k := min n (min (c - w) (file.length - w))
        have htake : (file.drop w).take (min n (c - w)) = (file.drop w).take k := by
          rw [List.take_eq_take_iff, List.length_drop]
          omega
        have hmore : b.data ++ (file.drop w).take k = file.take (w + k) := by
          rw [hdata, List.take_add]
        have hk : ((file.drop w).take k).length = k := by
          rw [List.length_take, List.length_drop]
          omega
        have hsys : b.sysread (.data ((file.drop w).take (min n (c - w)))) =
            some ((k : Int), { b with data := file.take (w + k) }) := by
          have hfits : ((file.drop w).take k).take b.freecapa = (file.drop w).take k := by
            refine List.take_of_length_le ?_
            rw [hk, h.freecapa]
            omega
          simp only [Acbuf.sysread, htake, hfits, hk, hmore]
        have hnext : ({ b with data := file.take (w + k) } : Acbuf).Sized c := by
          refine ⟨h.capa, h.small, ?_⟩
          have hle : (file.take (w + k)).length ≤ w + k := List.length_take_le _ _
          simp only
          omega
        rw [fromFile, readAll, if_neg hfree, hsys]
        simp only [readLoop, if_neg hfull]
        rw [if_neg (by omega)]
        exact ih hnext (by omega) rfl (by simp only [List.length_take]; omega) rfl

/-- The size that `initFromFile` gives to the buffer. -/
def wanted (io : FileCalls) (limit : Int) : Nat := unsignedInt (min limit io.st_size)

/-- The bytes of the first reads. -/
def given (io : FileCalls) (k : Nat) : Nat := total ((List.range k).map io.reads)

theorem given_mono (io : FileCalls) {k l : Nat} (h : k ≤ l) : given io k ≤ given io l := by
  obtain ⟨d, rfl⟩ := Nat.exists_eq_add_of_le h
  rw [given, given, List.range_add, List.map_append, total, total, List.map_append, List.sum_append]
  exact Nat.le_add_right _ _

theorem unsignedInt_lt (n : Int) : unsignedInt n < 2 ^ 32 := by
  rw [unsignedInt]
  omega

/-- A file that can be opened, with the memory for it. -/
theorem initFromFile_opened (b : Acbuf) (io : FileCalls) (limit : Int) (calls : Nat)
    (hopen : io.opened = true) (halloc : b.m_nCapacity = wanted io limit ∨ io.realloced = true)
    (hwrap : b.m_nCapacity = wanted io limit ∨ wanted io limit ≠ 2 ^ 32 - 1) :
    ∃ b₀ : Acbuf, b₀.Sized (wanted io limit) ∧ b₀.data = [] ∧
      b.initFromFile io limit calls =
        (b₀.readAll ((List.range calls).map io.reads)).map
          (fun (ok, b') => (ok && b'.size == io.st_size, b')) := by
  have hsmall := unsignedInt_lt (min limit io.st_size)
  have hset : b.clear.setsize io.realloced (wanted io limit) =
      some (true, { data := [], m_nCapacity := wanted io limit }) := by
    rw [setsize]
    by_cases hsame : b.m_nCapacity = wanted io limit
    · rw [← hsame]
      exact if_pos rfl
    · have hroom : (wanted io limit + 1) % 2 ^ 32 ≠ 0 := by
        have := hwrap.resolve_left hsame
        rw [wanted] at this ⊢
        omega
      have hsame' : ¬ b.clear.m_nCapacity = wanted io limit := hsame
      rw [if_neg hsame', halloc.resolve_left hsame, if_neg (by simp), if_neg hroom]
      rfl
  refine ⟨{ data := [], m_nCapacity := wanted io limit }, ⟨rfl, hsmall, Nat.zero_le _⟩, rfl, ?_⟩
  rw [initFromFile, hopen, if_neg (by simp)]
  rw [wanted] at hset ⊢
  simp only [hset]

/-- The terminator of the largest buffer is put behind an empty one. -/
theorem initFromFile_wraps (b : Acbuf) (io : FileCalls) (limit : Int) (calls : Nat) (hopen : io.opened = true)
    (hother : b.m_nCapacity ≠ wanted io limit) (halloc : io.realloced = true)
    (hwrap : wanted io limit = 2 ^ 32 - 1) : b.initFromFile io limit calls = none := by
  have hset : b.clear.setsize io.realloced (wanted io limit) = none := by
    have hother' : ¬ b.clear.m_nCapacity = wanted io limit := hother
    rw [setsize, if_neg hother', halloc, if_neg (by simp), if_pos (by omega)]
  rw [initFromFile, hopen, if_neg (by simp)]
  rw [wanted] at hset
  simp only [hset]

theorem size_eq {b : Acbuf} {c : Nat} (hsmall : c < 2 ^ 32) (hsize : b.data.length = c) : b.size = c := by
  rw [size, hsize, Nat.mod_eq_of_lt hsmall]

theorem readAll_range_false {b : Acbuf} {c : Nat} (h : b.Sized c) (hempty : b.data = []) (io : FileCalls)
    (calls : Nat) :
    (∃ b', b.readAll ((List.range calls).map io.reads) = some (false, b')) ↔
      ∃ k < calls, (io.reads k).isFailed = true ∧ given io k < c := by
  rw [h.readAll_false, hempty, List.length_nil]
  constructor
  · rintro ⟨front, read, rest, heq, hfail, hless⟩
    have hlen := congrArg List.length heq
    rw [List.length_map, List.length_range, List.length_append, List.length_cons] at hlen
    have hfront := congrArg (List.take front.length) heq
    have hread := congrArg (fun reads => reads[front.length]?) heq
    rw [List.take_left, ← List.map_take, List.take_range, Nat.min_eq_left (by omega)] at hfront
    have hlt : front.length < calls := by omega
    simp only [List.getElem?_map, List.getElem?_range hlt, Option.map_some, List.getElem?_append_right,
      Nat.le_refl, Nat.sub_self, List.getElem?_cons_zero, Option.some_inj] at hread
    refine ⟨front.length, hlt, hread ▸ hfail, ?_⟩
    rw [given, hfront]
    omega
  · rintro ⟨k, hk, hfail, hless⟩
    obtain ⟨d, rfl⟩ := Nat.exists_eq_add_of_le (Nat.succ_le_of_lt hk)
    refine ⟨(List.range k).map io.reads, io.reads k, ((List.range d).map (k + 1 + ·)).map io.reads, ?_, hfail, ?_⟩
    · rw [List.range_add, List.range_succ, List.map_append, List.map_append, List.append_assoc]
      rfl
    · rw [given] at hless
      omega

theorem readAll_range_none {b : Acbuf} {c : Nat} (h : b.Sized c) (hempty : b.data = []) (io : FileCalls)
    (calls : Nat) :
    b.readAll ((List.range calls).map io.reads) = none ↔
      (∀ k < calls, (io.reads k).isFailed = false) ∧ given io calls < c := by
  rw [h.readAll_none, hempty, List.length_nil, Nat.zero_add]
  simp [given]

/-- The condition for a file to be loaded as it should: the size does not wrap around with the terminator, the reads
fill the buffer or fail, and a buffer that is full tells the size of a file that `stat` has seen within the limit. -/
def Loads (b : Acbuf) (io : FileCalls) (limit : Int) : Prop :=
  (b.m_nCapacity = wanted io limit ∨ wanted io limit ≠ 2 ^ 32 - 1) ∧
    (∃ k, wanted io limit ≤ given io k ∨ (io.reads k).isFailed = true) ∧
    (io.statOk = true ∧ io.st_size ≤ limit ∨ (wanted io limit : Int) ≠ io.st_size ∨
      ∃ k, (io.reads k).isFailed = true ∧ given io k < wanted io limit)

theorem initFromFile_unopened (b : Acbuf) {io : FileCalls} (limit : Int) (hopen : ¬ io.opened = true) :
    b.initFromFile io limit 0 = some (false, b) := by
  rw [initFromFile, if_pos (by simpa using hopen)]

theorem initFromFile_no_memory (b : Acbuf) {io : FileCalls} {limit : Int} (hopen : io.opened = true)
    (halloc : ¬ (b.m_nCapacity = wanted io limit ∨ io.realloced = true)) :
    b.initFromFile io limit 0 = some (false, b.clear) := by
  obtain ⟨hother, hno⟩ := not_or.mp halloc
  have hset : b.clear.setsize io.realloced (wanted io limit) = some (false, b.clear) := by
    have hother' : ¬ b.clear.m_nCapacity = wanted io limit := hother
    rw [setsize, if_neg hother', if_pos (by simpa using hno)]
  rw [wanted] at hset
  rw [initFromFile, hopen, if_neg (by simp)]
  simp only [hset]

/-- A call that returns, and tells the truth if it is true. -/
def Returned (b : Acbuf) (io : FileCalls) (limit : Int) : Prop :=
  ∃ calls ok b', b.initFromFile io limit calls = some (ok, b') ∧
    (ok = true → io.statOk = true ∧ (b'.data.length : Int) = io.st_size ∧ io.st_size ≤ limit)

theorem Returned.loads {b : Acbuf} {io : FileCalls} {limit : Int} (h : b.Returned io limit)
    (hopen : io.opened = true) (halloc : b.m_nCapacity = wanted io limit ∨ io.realloced = true) :
    Loads b io limit := by
  obtain ⟨calls, ok, b', hinit, htrue⟩ := h
  have hwrap : b.m_nCapacity = wanted io limit ∨ wanted io limit ≠ 2 ^ 32 - 1 := by
    by_contra hnot
    obtain ⟨hother, hwrap⟩ := not_or.mp hnot
    rw [initFromFile_wraps b io limit calls hopen hother (halloc.resolve_left hother) (not_not.mp hwrap)]
      at hinit
    exact absurd hinit (by simp)
  obtain ⟨b₀, hsized, hempty, heq⟩ := initFromFile_opened b io limit calls hopen halloc hwrap
  rw [heq, Option.map_eq_some_iff] at hinit
  obtain ⟨⟨full, b₁⟩, hall, hresult⟩ := hinit
  obtain ⟨hok, rfl⟩ := Prod.mk.inj hresult
  refine ⟨hwrap, ?_, ?_⟩
  · have hsome : ¬ b₀.readAll ((List.range calls).map io.reads) = none := by rw [hall]; simp
    rw [readAll_range_none hsized hempty, not_and_or] at hsome
    obtain hfail | hfull := hsome
    · push Not at hfail
      obtain ⟨k, -, hfail⟩ := hfail
      exact ⟨k, .inr (by simpa using hfail)⟩
    · exact ⟨calls, .inl (Nat.le_of_not_lt hfull)⟩
  · cases full with
    | false =>
      obtain ⟨k, -, hfail⟩ := (readAll_range_false hsized hempty io calls).mp ⟨_, hall⟩
      exact .inr (.inr ⟨k, hfail⟩)
    | true =>
      have hsize := (hsized.readAll_true hall).1
      by_cases hsame : (wanted io limit : Int) = io.st_size
      · have hyes : ok = true := by
          rw [← hok, size_eq hsized.small hsize, hsame]
          simp
        obtain ⟨hstat, -, hlimit⟩ := htrue hyes
        exact .inl ⟨hstat, hlimit⟩
      · exact .inr (.inl hsame)

theorem Loads.returned {b : Acbuf} {io : FileCalls} {limit : Int} (h : Loads b io limit)
    (hopen : io.opened = true) (halloc : b.m_nCapacity = wanted io limit ∨ io.realloced = true) :
    b.Returned io limit := by
  obtain ⟨hwrap, ⟨k, hend⟩, hhonest⟩ := h
  obtain ⟨b₀, hsized, hempty, heq⟩ := initFromFile_opened b io limit (k + 1) hopen halloc hwrap
  cases hall : b₀.readAll ((List.range (k + 1)).map io.reads) with
  | none =>
    obtain ⟨hfine, hless⟩ := (readAll_range_none hsized hempty io (k + 1)).mp hall
    have hmono := given_mono io (Nat.le_add_right k 1)
    obtain hfull | hfail := hend
    · omega
    · rw [hfine k (Nat.lt_succ_self k)] at hfail
      exact absurd hfail (by simp)
  | some r =>
    obtain ⟨full, b₁⟩ := r
    rw [hall, Option.map_some] at heq
    refine ⟨k + 1, _, b₁, heq, fun hok => ?_⟩
    obtain ⟨rfl, hsame⟩ := Bool.and_eq_true_iff.mp hok
    obtain ⟨hsize, hgiven⟩ := hsized.readAll_true hall
    rw [size_eq hsized.small hsize, beq_iff_eq] at hsame
    obtain ⟨hstat, hlimit⟩ | hother | ⟨k', hfail, hless⟩ := hhonest
    · exact ⟨hstat, by rw [hsize, hsame], hlimit⟩
    · exact absurd hsame hother
    · -- the failure comes before the buffer is full
      by_cases hk : k' < k + 1
      · obtain ⟨b₂, hfalse⟩ := (readAll_range_false hsized hempty io (k + 1)).mpr ⟨k', hk, hfail, hless⟩
        rw [hall] at hfalse
        exact absurd hfalse (by simp)
      · have hmono := given_mono io (Nat.le_of_not_lt hk)
        rw [hempty, List.length_nil, ← given] at hgiven
        omega

/-- When a file that is opened is read to an end, with a result that says what the buffer has. -/
theorem wholeFile_iff (b : Acbuf) (io : FileCalls) (limit : Int) :
    (∃ calls ok b', b.initFromFile io limit calls = some (ok, b') ∧
      (ok = true → io.statOk = true ∧ (b'.data.length : Int) = io.st_size ∧ io.st_size ≤ limit)) ↔
    (io.opened = true → (b.m_nCapacity = wanted io limit ∨ io.realloced = true) → Loads b io limit) := by
  constructor
  · exact fun hreturned hopen halloc => Returned.loads hreturned hopen halloc
  · intro hloads
    by_cases hopen : io.opened = true
    · by_cases halloc : b.m_nCapacity = wanted io limit ∨ io.realloced = true
      · exact (hloads hopen halloc).returned hopen halloc
      · exact ⟨0, false, b.clear, initFromFile_no_memory b hopen halloc, fun h => absurd h (by simp)⟩
    · exact ⟨0, false, b, initFromFile_unopened b limit hopen, fun h => absurd h (by simp)⟩

/-- A file that is cut off behind `stat`: no number of reads is enough. And a file that comes behind it, with a size
that nobody has told. -/
theorem wholeFile_cut_and_missing :
    (¬ ∃ calls r, ({} : Acbuf).initFromFile ⟨true, 1, true, true, fun _ => .data []⟩ (2 ^ 63 - 1) calls = some r) ∧
      ({} : Acbuf).initFromFile ⟨false, 1, true, true, fun _ => .data [65, 66]⟩ (2 ^ 63 - 1) 1 =
        some (true, ⟨[65], 1⟩) := by
  refine ⟨?_, by decide +kernel⟩
  rintro ⟨calls, r, hinit⟩
  let io : FileCalls := ⟨true, 1, true, true, fun _ => .data []⟩
  obtain ⟨b₀, hsized, hempty, heq⟩ :=
    initFromFile_opened {} io (2 ^ 63 - 1) calls rfl (.inr rfl) (.inr (by decide +kernel))
  have hgiven : given io calls = 0 := by simp [given, total, io, SysRead.bytes]
  have hnone := (readAll_range_none hsized hempty io calls).mpr
    ⟨fun _ _ => rfl, by rw [hgiven]; decide +kernel⟩
  rw [heq, hnone] at hinit
  exact absurd hinit (by simp)

end Acbuf

end Acng
