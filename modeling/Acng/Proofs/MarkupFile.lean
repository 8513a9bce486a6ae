import Acng.Lib.Separators
import Acng.MarkupFile

namespace Acng
open Lib

namespace MarkupSent

variable {m : Mapped} {tab : MarkupTable} {pre y z : Bytes} {c : UInt8}

/-- Some bytes are sent, and nothing behind the template is read. -/
structure Sends (m : Mapped) (sent sent' : MarkupSent) (bytes : Bytes) : Prop where
  flatten : sent'.chunks.flatten = sent.chunks.flatten ++ bytes
  reach : sent.reach ≤ m.text.length → sent'.reach ≤ m.text.length

theorem Sends.refl (sent : MarkupSent) : Sends m sent sent [] := ⟨(List.append_nil _).symm, id⟩

theorem Sends.trans {a b c : MarkupSent} {x y : Bytes} (hab : Sends m a b x) (hbc : Sends m b c y) :
    Sends m a c (x ++ y) where
  flatten := by rw [hbc.flatten, hab.flatten, List.append_assoc]
  reach h := hbc.reach (hab.reach h)

theorem sends_touch (sent : MarkupSent) {upto : Nat} (h : upto ≤ m.text.length) :
    Sends m sent (sent.touch upto) [] where
  flatten := (List.append_nil _).symm
  reach h' := Nat.max_le.mpr ⟨h', h⟩

theorem sends_chunk (sent : MarkupSent) (h : m.text = pre ++ y ++ z) :
    Sends m sent (sent.sendChunk m pre.length y.length) y where
  flatten := by
    rw [sendChunk, Mapped.string_mid h, List.flatten_append, List.flatten_singleton]
  reach h' := by
    have hlen := congrArg List.length h
    rw [List.length_append, List.length_append] at hlen
    rw [sendChunk]
    split
    · exact h'
    · exact Nat.max_le.mpr ⟨h', by omega⟩

/-- A search in a part of the template splits it, or finds nothing. -/
theorem search_mid (sent : MarkupSent) (h : m.text = pre ++ y ++ z) :
    (c ∉ y ∧ ∃ sent', sent.search m c pre.length y.length = (none, sent') ∧ Sends m sent sent' []) ∨
      ∃ a b, y = a ++ c :: b ∧ c ∉ a ∧ ∃ sent',
        sent.search m c pre.length y.length = (some (pre.length + a.length), sent') ∧ Sends m sent sent' [] := by
  have hlen := congrArg List.length h
  rw [List.length_append, List.length_append] at hlen
  rw [search, Mapped.memchr_mid h]
  obtain ⟨hnot, hnone⟩ | ⟨a, b, rfl, hnot, hsome⟩ := idxOf?_cases c y
  · rw [hnone]
    exact .inl ⟨hnot, _, rfl, sends_touch sent (by omega)⟩
  · rw [hsome]
    rw [List.length_append, List.length_cons] at hlen
    have hle : pre.length + a.length + 1 ≤ m.text.length := by omega
    exact .inr ⟨a, b, rfl, hnot, _, rfl, sends_touch sent hle⟩

theorem sends_ifElse (sent : MarkupSent) {sep : UInt8} {body : Bytes} (h : m.text = pre ++ sep :: body ++ z) :
    Sends m sent (sent.sendIfElse tab m pre.length (pre.length + 1 + body.length)) (tab.branch sep body) := by
  have hsep : m.get pre.length = sep := Mapped.get_mid (s := body ++ z) (by rw [h, List.append_assoc]; rfl)
  have hlen := congrArg List.length h
  rw [List.length_append, List.length_append, List.length_cons] at hlen
  have hstart := @sends_touch m sent (pre.length + 1) (by omega)
  have hbody : m.text = (pre ++ [sep]) ++ body ++ z := by rw [h]; simp
  have hcond := search_mid (c := sep) (sent.touch (pre.length + 1)) hbody
  simp only [sendIfElse, hsep]
  rw [Nat.add_sub_cancel_left]
  rw [List.length_append, List.length_singleton] at hcond
  rw [MarkupTable.branch]
  obtain ⟨hnot, sent', hsearch, hsends⟩ | ⟨cond, rest, rfl, hnot, sent', hsearch, hsends⟩ := hcond
  · rw [hsearch, dropWhile_none hnot]
    exact hstart.trans hsends
  · rw [hsearch, dropWhile_sep rest hnot, takeWhile_sep rest hnot]
    have hkey : m.string (pre.length + 1) cond.length = cond := by
      have hmid := @Mapped.string_mid m (pre ++ [sep]) cond (sep :: rest ++ z) (by rw [h]; simp)
      rwa [List.length_append, List.length_singleton] at hmid
    have hpre : (pre ++ [sep] ++ cond ++ [sep]).length = pre.length + 1 + cond.length + 1 := by simp; omega
    have hrest : pre.length + 1 + (cond ++ sep :: rest).length - (pre.length + 1 + cond.length + 1) = rest.length := by
      rw [List.length_append, List.length_cons]
      omega
    have htext : m.text = (pre ++ [sep] ++ cond ++ [sep]) ++ rest ++ z := by rw [h]; simp
    have hyes := search_mid (c := sep) sent' htext
    rw [hpre] at hyes
    simp only [Nat.add_sub_cancel_left, hkey, hrest]
    obtain ⟨hnot', sent'', hsearch', hsends'⟩ | ⟨yes, no, rfl, hnot', sent'', hsearch', hsends'⟩ := hyes
    · rw [hsearch', dropWhile_none hnot']
      simp only
      split
      · exact hstart.trans hsends
      · exact (hstart.trans hsends).trans hsends'
    · rw [hsearch', dropWhile_sep no hnot', takeWhile_sep no hnot']
      have hsent := (hstart.trans hsends).trans hsends'
      simp only
      split
      · exact hstart.trans hsends
      · split
        · have hchunk := @sends_chunk m (pre ++ [sep] ++ cond ++ [sep]) yes (sep :: no ++ z) sent''
            (by rw [htext]; simp)
          rw [hpre] at hchunk
          rw [Nat.add_sub_cancel_left]
          exact hsent.trans hchunk
        · have hchunk := @sends_chunk m (pre ++ [sep] ++ cond ++ [sep] ++ yes ++ [sep]) no z sent''
            (by rw [htext]; simp)
          have hpre' : (pre ++ [sep] ++ cond ++ [sep] ++ yes ++ [sep]).length =
              pre.length + 1 + cond.length + 1 + yes.length + 1 := by
            rw [List.length_append, List.length_append, hpre, List.length_singleton]
          have hno : pre.length + 1 + (cond ++ sep :: (yes ++ sep :: no)).length -
              (pre.length + 1 + cond.length + 1 + yes.length) - 1 = no.length := by
            simp only [List.length_append, List.length_cons]
            omega
          rw [hpre'] at hchunk
          rw [hno]
          exact hsent.trans hchunk

theorem sends_key (sent : MarkupSent) {key : Bytes} (h : m.text = pre ++ 36 :: 123 :: key ++ z) :
    Sends m sent
      (if pre.length + 6 < pre.length + 2 + key.length ∧ m.get (pre.length + 2) = 58 then
        sent.sendIfElse tab m (pre.length + 3) (pre.length + 2 + key.length)
      else sent.sendProp tab (m.string (pre.length + 2) (pre.length + 2 + key.length - pre.length - 2)))
      (tab.replacement key) := by
  have hlen : pre.length + 2 + key.length - pre.length - 2 = key.length := by omega
  have hkey : m.string (pre.length + 2) key.length = key := by
    have hmid := @Mapped.string_mid m (pre ++ [36, 123]) key z (by rw [h]; simp)
    rwa [List.length_append] at hmid
  have hprop : Sends m sent (sent.sendProp tab key) (tab.prop key) :=
    ⟨by rw [sendProp, List.flatten_append, List.flatten_singleton], id⟩
  rw [hlen, hkey]
  rcases key with _ | ⟨c, _ | ⟨sep, body⟩⟩
  · rw [if_neg (by simp)]
    exact hprop
  · rw [if_neg (by simp)]
    exact hprop
  · have hcolon : m.get (pre.length + 2) = c := by
      have hget := @Mapped.get_mid m (pre ++ [36, 123]) c (sep :: body ++ z) (by rw [h]; simp)
      rwa [List.length_append] at hget
    have hlong : (pre.length + 6 < pre.length + 2 + (c :: sep :: body).length ∧ c = 58) ↔ c = 58 ∧ 3 ≤ body.length := by
      rw [and_comm, List.length_cons, List.length_cons]
      exact and_congr_right (fun _ => by omega)
    rw [hcolon, MarkupTable.replacement]
    by_cases hcond : c = 58 ∧ 3 ≤ body.length
    · have hbranch := @sends_ifElse m tab (pre ++ [36, 123, c]) z sent sep body (by rw [h]; simp)
      have hend : pre.length + 2 + (c :: sep :: body).length = pre.length + 3 + 1 + body.length := by
        simp only [List.length_cons]
        omega
      rw [List.length_append] at hbranch
      rw [if_pos (hlong.mpr hcond), if_pos hcond, hend]
      exact hbranch
    · rw [if_neg (mt hlong.mp hcond), if_neg hcond]
      exact hprop

end MarkupSent

namespace MarkupTable

variable (tab : MarkupTable)

theorem expand_plain {a : Bytes} (h : 36 ∉ a) (s : Bytes) : tab.expand (a ++ s) = a ++ tab.expand s := by
  induction a with
  | nil => rfl
  | cons c a ih =>
    rw [List.mem_cons, not_or] at h
    rw [List.cons_append, expand, if_neg (fun hc => h.1 hc.1.symm), ih h.2, List.cons_append]

theorem expand_key {key : Bytes} (h : 125 ∉ key) (v : Bytes) :
    tab.expand (36 :: 123 :: (key ++ 125 :: v)) = tab.replacement key ++ tab.expand v := by
  rw [expand, if_pos ⟨rfl, rfl⟩, List.tail_cons, if_pos (by simp), takeWhile_sep v h,
    dropWhile_sep v h, List.tail_cons]

theorem expand_dollar {t : Bytes} (h : t.head? ≠ some 123) : tab.expand (36 :: t) = 36 :: tab.expand t := by
  rw [expand, if_neg (fun hc => h hc.2)]

end MarkupTable

/-- Somewhere a key begins that has no end. -/
def Unclosed (s : Bytes) : Prop := ∃ a b, s = a ++ 36 :: 123 :: b ∧ 125 ∉ b

theorem Unclosed.append {s : Bytes} (h : Unclosed s) (a : Bytes) : Unclosed (a ++ s) := by
  obtain ⟨front, b, rfl, hb⟩ := h
  exact ⟨a ++ front, b, by rw [List.append_assoc], hb⟩

/-- How a text goes on: without a dollar sign, or with the first one, which starts a key with an end, a key without
one, or no key. -/
theorem markup_cases (s : Bytes) :
    36 ∉ s ∨ ∃ a t, 36 ∉ a ∧ s = a ++ 36 :: t ∧
      (t.head? ≠ some 123 ∨ ∃ u, t = 123 :: u ∧ (125 ∉ u ∨ ∃ key v, 125 ∉ key ∧ u = key ++ 125 :: v)) := by
  by_cases hs : 36 ∈ s
  · obtain ⟨a, t, rfl, ha⟩ := List.eq_append_cons_of_mem hs
    refine .inr ⟨a, t, ha, rfl, ?_⟩
    by_cases ht : t.head? = some 123
    · obtain ⟨u, rfl⟩ := List.head?_eq_some_iff.mp ht
      refine .inr ⟨u, rfl, ?_⟩
      by_cases hu : 125 ∈ u
      · obtain ⟨key, v, rfl, hkey⟩ := List.eq_append_cons_of_mem hu
        exact .inr ⟨key, v, hkey, rfl⟩
      · exact .inl hu
    · exact .inl ht
  · exact .inl hs

theorem Unclosed.dollar {s : Bytes} (h : Unclosed s) : 36 ∈ s := by
  obtain ⟨a, b, rfl, -⟩ := h
  simp

/-- It begins behind a dollar sign that starts no key. -/
theorem Unclosed.behind_dollar {a t : Bytes} (h : Unclosed (a ++ 36 :: t)) (ha : 36 ∉ a)
    (ht : t.head? ≠ some 123) : Unclosed t := by
  obtain ⟨y, b, heq, hb⟩ := h
  obtain ⟨c, rfl, hc⟩ | ⟨c, rfl, hc⟩ := List.append_eq_append_iff.mp heq
  · rcases c with _ | ⟨d, c⟩
    · obtain rfl := (List.cons.inj hc).2
      exact absurd rfl ht
    · exact ⟨c, b, (List.cons.inj hc).2, hb⟩
  · rcases c with _ | ⟨d, c⟩
    · obtain rfl := (List.cons.inj hc).2
      exact absurd rfl ht
    · obtain rfl := (List.cons.inj hc).1
      exact absurd (by simp) ha

/-- It begins behind every closing brace. -/
theorem Unclosed.behind_brace {x v : Bytes} (h : Unclosed (x ++ 125 :: v)) : Unclosed v := by
  obtain ⟨y, b, heq, hb⟩ := h
  obtain ⟨c, rfl, hc⟩ | ⟨c, rfl, hc⟩ := List.append_eq_append_iff.mp heq
  · rcases c with _ | ⟨d, c⟩
    · exact absurd (List.cons.inj hc).1 (by decide)
    · exact ⟨c, b, (List.cons.inj hc).2, hb⟩
  · rcases c with _ | ⟨d, _ | ⟨e, c⟩⟩
    · exact absurd (List.cons.inj hc).1 (by decide)
    · exact absurd (List.cons.inj (List.cons.inj hc).2).1 (by decide)
    · have hbrace := (List.cons.inj (List.cons.inj hc).2).2
      exact absurd (hbrace ▸ by simp) hb

namespace MarkupSent

variable {m : Mapped} {tab : MarkupTable} {pre a t s : Bytes}

theorem run_plain (h : m.text = pre ++ s) (hs : 36 ∉ s) (rounds : Nat) (sent : MarkupSent) :
    ∃ sent', run tab m (rounds + 1) pre.length sent = some sent' ∧ Sends m sent sent' s := by
  have hlen := congrArg List.length h
  rw [List.length_append] at hlen
  have hrest : m.text.length - pre.length = s.length := by omega
  by_cases hend : pre.length < m.text.length
  · have htext : m.text = pre ++ s ++ [] := by rw [h, List.append_nil]
    obtain ⟨-, sent', hsearch, hsends⟩ | ⟨a, b, rfl, -⟩ := @search_mid m pre s [] 36 sent htext
    · simp only [run, if_pos hend, hrest, hsearch]
      exact ⟨_, rfl, hsends.trans (sends_chunk sent' htext)⟩
    · simp at hs
  · rw [run, if_neg hend]
    obtain rfl : s = [] := List.length_eq_zero_iff.mp (by omega)
    exact ⟨sent, rfl, .refl sent⟩

/-- A round finds the first dollar sign, and looks at what follows. -/
theorem search_dollar (h : m.text = pre ++ (a ++ 36 :: t)) (ha : 36 ∉ a) (sent : MarkupSent) :
    ∃ sent', sent.search m 36 pre.length (m.text.length - pre.length) = (some (pre.length + a.length), sent') ∧
      Sends m sent (if pre.length + a.length + 1 < m.text.length then sent'.touch (pre.length + a.length + 2)
        else sent') [] := by
  have htext : m.text = pre ++ (a ++ 36 :: t) ++ [] := by rw [h, List.append_nil]
  have hrest : m.text.length - pre.length = (a ++ 36 :: t).length := by
    rw [h, List.length_append, Nat.add_sub_cancel_left]
  obtain ⟨hnot, -⟩ | ⟨a', b, heq, ha', sent', hsearch, hsends⟩ := @search_mid m pre _ [] 36 sent htext
  · simp at hnot
  · have hsame : a = a' := by rw [← takeWhile_sep t ha, heq, takeWhile_sep b ha']
    subst hsame
    refine ⟨sent', hrest ▸ hsearch, ?_⟩
    split
    · exact hsends.trans (sends_touch sent' ‹_›)
    · exact hsends

theorem get_next (h : m.text = pre ++ (a ++ 36 :: t)) :
    (pre.length + a.length + 1 < m.text.length ∧ m.get (pre.length + a.length + 1) = 123) ↔ t.head? = some 123 := by
  have hlen := congrArg List.length h
  simp only [List.length_append, List.length_cons] at hlen
  cases t with
  | nil =>
    rw [List.length_nil] at hlen
    exact iff_of_false (fun h => by omega) nofun
  | cons c t =>
    have hget := @Mapped.get_mid m (pre ++ a ++ [36]) c t (by rw [h]; simp)
    rw [List.length_append, List.length_append, List.length_singleton] at hget
    rw [List.length_cons] at hlen
    rw [hget, List.head?_cons, Option.some.injEq]
    exact and_iff_right (by omega)

theorem run_dollar (h : m.text = pre ++ (a ++ 36 :: t)) (ha : 36 ∉ a) (ht : t.head? ≠ some 123) (rounds : Nat)
    (sent : MarkupSent) :
    ∃ sent', run tab m (rounds + 1) pre.length sent = run tab m rounds (pre ++ (a ++ [36])).length sent' ∧
      Sends m sent sent' (a ++ [36]) := by
  have hlen := congrArg List.length h
  simp only [List.length_append, List.length_cons] at hlen
  obtain ⟨sent', hsearch, hsends⟩ := search_dollar h ha sent
  simp only [run, if_pos (show pre.length < m.text.length by omega), hsearch, if_neg (mt (get_next h).mp ht)]
  have hchunk := @sends_chunk m pre (a ++ [36]) t
    (if pre.length + a.length + 1 < m.text.length then sent'.touch (pre.length + a.length + 2) else sent')
    (by rw [h]; simp)
  have hcount : pre.length + a.length + 1 - pre.length = (a ++ [36]).length := by
    rw [List.length_append, List.length_singleton]
    omega
  have hpr : (pre ++ (a ++ [36])).length = pre.length + a.length + 1 := by
    rw [List.length_append, List.length_append, List.length_singleton, Nat.add_assoc]
  rw [hcount, hpr]
  exact ⟨_, rfl, hsends.trans hchunk⟩

/-- A brace that is there is found, also if the search may go further. -/
theorem search_closed {key v : Bytes} (h : m.text = pre ++ (key ++ 125 :: v)) (hkey : 125 ∉ key) (more : Nat)
    (sent : MarkupSent) :
    ∃ sent', sent.search m 125 pre.length ((key ++ 125 :: v).length + more) = (some (pre.length + key.length), sent') ∧
      Sends m sent sent' [] := by
  have hlen := congrArg List.length h
  simp only [List.length_append, List.length_cons] at hlen
  have hfound : m.memchr 125 pre.length (key ++ 125 :: v).length = some (pre.length + key.length) := by
    rw [@Mapped.memchr_mid m pre _ [] 125 (by rw [h, List.append_nil])]
    obtain ⟨hnot, -⟩ | ⟨a, b, heq, ha, hidx⟩ := idxOf?_cases 125 (key ++ 125 :: v)
    · simp at hnot
    · rw [hidx, ← takeWhile_sep v hkey, heq, takeWhile_sep b ha]
      rfl
  refine ⟨sent.touch (pre.length + key.length + 1), ?_, sends_touch sent (by omega)⟩
  rw [search, Mapped.memchr_add, hfound]
  rfl

/-- Without a brace the search leaves the template. -/
theorem search_unclosed {u : Bytes} (h : m.text = pre ++ u) (hu : 125 ∉ u) (more : Nat) (sent : MarkupSent) :
    ∃ found sent', sent.search m 125 pre.length (u.length + (more + 1)) = (found, sent') ∧
      m.text.length < sent'.reach ∧ ∀ i, found = some i → m.text.length ≤ i := by
  have hlen := congrArg List.length h
  rw [List.length_append] at hlen
  have hnone : m.memchr 125 pre.length u.length = none := by
    rw [@Mapped.memchr_mid m pre u [] 125 (by rw [h, List.append_nil])]
    obtain ⟨-, hidx⟩ | ⟨a, b, rfl, -⟩ := idxOf?_cases 125 u
    · rw [hidx]
      rfl
    · simp at hu
  rw [search, Mapped.memchr_add, hnone, Option.none_or]
  cases hfound : m.memchr 125 (pre.length + u.length) (more + 1) with
  | none => exact ⟨none, _, rfl, lt_max_of_lt_right (by omega), nofun⟩
  | some i =>
    have hbounds := Mapped.memchr_bounds hfound
    refine ⟨some i, _, rfl, lt_max_of_lt_right (by omega), ?_⟩
    rintro j hj
    obtain rfl := Option.some.inj hj
    omega

/-- What is in front of a key is sent. -/
theorem run_key {u : Bytes} (h : m.text = pre ++ (a ++ 36 :: 123 :: u)) (ha : 36 ∉ a) (rounds : Nat)
    (sent : MarkupSent) :
    ∃ sent', Sends m sent sent' a ∧ run tab m (rounds + 1) pre.length sent =
      key tab m (run tab m rounds) (pre ++ a).length (a ++ 36 :: 123 :: u).length sent' := by
  have hlen := congrArg List.length h
  simp only [List.length_append, List.length_cons] at hlen
  obtain ⟨sent', hsearch, hsends⟩ := search_dollar h ha sent
  have hchunk := @sends_chunk m pre a (36 :: 123 :: u)
    (if pre.length + a.length + 1 < m.text.length then sent'.touch (pre.length + a.length + 2) else sent')
    (by rw [h]; simp)
  have hrest : m.text.length - pre.length = (a ++ 36 :: 123 :: u).length := by
    simp only [List.length_append, List.length_cons]
    omega
  refine ⟨_, hsends.trans hchunk, ?_⟩
  have hfront : (pre ++ a).length = pre.length + a.length := List.length_append
  simp only [run, if_pos (show pre.length < m.text.length by omega), hsearch, if_pos ((get_next h).mpr rfl)]
  rw [Nat.add_sub_cancel_left, hrest, hfront]

theorem length_key {u : Bytes} (h : m.text = pre ++ 36 :: 123 :: u) :
    (pre ++ [36, 123]).length = pre.length + 2 ∧ m.text.length - pre.length + 2 = u.length + 4 := by
  have hlen := congrArg List.length h
  simp only [List.length_append, List.length_cons, List.length_nil] at hlen ⊢
  exact ⟨trivial, by omega⟩

theorem key_closed {k v : Bytes} (h : m.text = pre ++ 36 :: 123 :: (k ++ 125 :: v)) (hk : 125 ∉ k)
    (next : Nat → MarkupSent → Option MarkupSent) (restlen : Nat) (sent : MarkupSent) :
    ∃ sent', key tab m next pre.length restlen sent = next (pre ++ 36 :: 123 :: (k ++ [125])).length sent' ∧
      Sends m sent sent' (tab.replacement k) := by
  obtain ⟨hpre, hmore⟩ := length_key h
  obtain ⟨sent', hsearch, hsends⟩ := @search_closed m (pre ++ [36, 123]) k v (by rw [h]; simp) hk 4 sent
  have hkey := @sends_key m tab pre (125 :: v) sent' k (by rw [h]; simp)
  have hnext : (pre ++ 36 :: 123 :: (k ++ [125])).length = pre.length + 2 + k.length + 1 := by
    simp only [List.length_append, List.length_cons, List.length_nil]
    omega
  rw [hpre] at hsearch
  simp only [key, hmore, hsearch, hnext]
  exact ⟨_, rfl, hsends.trans hkey⟩

theorem le_sendChunk (p len : Nat) (sent : MarkupSent) : sent.reach ≤ (sent.sendChunk m p len).reach := by
  rw [sendChunk]
  split
  · exact le_rfl
  · exact le_max_left _ _

theorem le_search (c : UInt8) (p len : Nat) (sent : MarkupSent) :
    sent.reach ≤ (sent.search m c p len).2.reach := by
  rw [search]
  split <;> exact le_max_left _ _

theorem le_sendIfElse (pszBeginSep pszEnd : Nat) (sent : MarkupSent) :
    sent.reach ≤ (sent.sendIfElse tab m pszBeginSep pszEnd).reach := by
  have hstart : sent.reach ≤ (sent.touch (pszBeginSep + 1)).reach := le_max_left _ _
  have hyes := hstart.trans (le_search (m := m) (m.get pszBeginSep) (pszBeginSep + 1) (pszEnd - (pszBeginSep + 1)) _)
  simp only [sendIfElse]
  split
  · rename_i sent' hsearch
    rw [hsearch] at hyes
    exact hyes
  · rename_i valYes sent' hsearch
    rw [hsearch] at hyes
    have hno := hyes.trans (le_search (m := m) (m.get pszBeginSep) (valYes + 1) (pszEnd - (valYes + 1)) sent')
    split
    · exact hyes
    · split
      · rename_i sent'' hsearch'
        rw [hsearch'] at hno
        exact hno
      · rename_i valNo sent'' hsearch'
        rw [hsearch'] at hno
        split
        · exact hno.trans (le_sendChunk _ _ _)
        · exact hno.trans (le_sendChunk _ _ _)

/-- An unclosed key is the end, and what is behind the template was read. -/
theorem key_unclosed {u : Bytes} (h : m.text = pre ++ 36 :: 123 :: u) (hu : 125 ∉ u) (rounds restlen : Nat)
    {sent sent' : MarkupSent} (hkey : key tab m (run tab m rounds) pre.length restlen sent = some sent') :
    m.text.length < sent'.reach := by
  obtain ⟨hpre, hmore⟩ := length_key h
  obtain ⟨found, sent₁, hsearch, hreach, hfar⟩ := @search_unclosed m (pre ++ [36, 123]) u (by rw [h]; simp) hu 3 sent
  rw [hpre] at hsearch
  simp only [key, hmore, hsearch] at hkey
  cases found with
  | none =>
    obtain rfl := Option.some.inj hkey
    exact hreach.trans_le (le_sendChunk _ _ _)
  | some i =>
    have hend := hfar i rfl
    cases rounds with
    | zero => cases hkey
    | succ rounds =>
      simp only [run, if_neg (show ¬ i + 1 < m.text.length by omega)] at hkey
      obtain rfl := Option.some.inj hkey
      refine hreach.trans_le ?_
      split
      · exact le_sendIfElse _ _ _
      · exact le_rfl

/-- A text without an unclosed key is expanded. -/
theorem run_closed {rounds : Nat} (h : m.text = pre ++ s) (hclosed : ¬ Unclosed s) (hrounds : s.length < rounds)
    (sent : MarkupSent) :
    ∃ sent', run tab m rounds pre.length sent = some sent' ∧ Sends m sent sent' (tab.expand s) := by
  induction rounds generalizing pre s sent with
  | zero => exact absurd hrounds (Nat.not_lt_zero _)
  | succ rounds ih =>
    obtain hs | ⟨a, t, ha, rfl, ht | ⟨u, rfl, hu | ⟨k, v, hk, rfl⟩⟩⟩ := markup_cases s
    · have hplain := tab.expand_plain hs []
      rw [List.append_nil, MarkupTable.expand, List.append_nil] at hplain
      rw [hplain]
      exact run_plain h hs rounds sent
    · obtain ⟨sent₁, hrun, hsends⟩ := @run_dollar m tab pre a t h ha ht rounds sent
      have hlen : t.length < rounds := by
        simp only [List.length_append, List.length_cons] at hrounds
        omega
      have hsplit : a ++ 36 :: t = (a ++ [36]) ++ t := by simp
      obtain ⟨sent₂, hrun', hsends'⟩ := @ih (pre ++ (a ++ [36])) t (by rw [h]; simp)
        (fun hu => hclosed (hsplit ▸ hu.append (a ++ [36]))) hlen sent₁
      refine ⟨sent₂, hrun.trans hrun', ?_⟩
      rw [tab.expand_plain ha, tab.expand_dollar ht]
      simpa using hsends.trans hsends'
    · exact absurd ⟨a, u, rfl, hu⟩ hclosed
    · obtain ⟨sent₁, hsends, hrun⟩ := @run_key m tab pre a _ h ha rounds sent
      obtain ⟨sent₂, hkey, hsends'⟩ := @key_closed m tab (pre ++ a) k v (by rw [h]; simp) hk
        (run tab m rounds) (a ++ 36 :: 123 :: (k ++ 125 :: v)).length sent₁
      have hlen : v.length < rounds := by
        simp only [List.length_append, List.length_cons] at hrounds
        omega
      have hsplit : a ++ 36 :: 123 :: (k ++ 125 :: v) = (a ++ 36 :: 123 :: (k ++ [125])) ++ v := by simp
      obtain ⟨sent₃, hrun', hsends''⟩ := @ih (pre ++ a ++ 36 :: 123 :: (k ++ [125])) v (by rw [h]; simp)
        (fun hu => hclosed (hsplit ▸ hu.append (a ++ 36 :: 123 :: (k ++ [125])))) hlen sent₂
      refine ⟨sent₃, (hrun.trans hkey).trans hrun', ?_⟩
      rw [tab.expand_plain ha, tab.expand_key hk, ← List.append_assoc]
      exact (hsends.trans hsends').trans hsends''

/-- A text with an unclosed key leads out of the template. -/
theorem run_unclosed {rounds : Nat} (h : m.text = pre ++ s) (hopen : Unclosed s) {sent sent' : MarkupSent}
    (hrun : run tab m rounds pre.length sent = some sent') : m.text.length < sent'.reach := by
  induction rounds generalizing pre s sent with
  | zero => cases hrun
  | succ rounds ih =>
    obtain hs | ⟨a, t, ha, rfl, ht | ⟨u, rfl, hu | ⟨k, v, hk, rfl⟩⟩⟩ := markup_cases s
    · exact absurd hopen.dollar hs
    · obtain ⟨sent₁, hround, -⟩ := @run_dollar m tab pre a t h ha ht rounds sent
      exact @ih (pre ++ (a ++ [36])) t (by rw [h]; simp) (hopen.behind_dollar ha ht) sent₁ (hround.symm.trans hrun)
    · obtain ⟨sent₁, -, hround⟩ := @run_key m tab pre a _ h ha rounds sent
      exact @key_unclosed m tab (pre ++ a) u (by rw [h]; simp) hu rounds _ _ _ (hround.symm.trans hrun)
    · obtain ⟨sent₁, -, hround⟩ := @run_key m tab pre a _ h ha rounds sent
      obtain ⟨sent₂, hkey, -⟩ := @key_closed m tab (pre ++ a) k v (by rw [h]; simp) hk
        (run tab m rounds) (a ++ 36 :: 123 :: (k ++ 125 :: v)).length sent₁
      have hbehind : a ++ 36 :: 123 :: (k ++ 125 :: v) = (a ++ 36 :: 123 :: k) ++ 125 :: v := by simp
      exact @ih (pre ++ a ++ 36 :: 123 :: (k ++ [125])) v (by rw [h]; simp) (hbehind ▸ hopen).behind_brace sent₂
        ((hround.trans hkey).symm.trans hrun)

/-- It ends, reads the template only, and sends the expansion. -/
def Expands (tab : MarkupTable) (m : Mapped) : Prop :=
  ∃ sent, run tab m (m.text.length + 1) 0 {} = some sent ∧ sent.reach ≤ m.text.length ∧
    sent.chunks.flatten = tab.expand m.text

theorem expands_iff (tab : MarkupTable) (m : Mapped) : Expands tab m ↔ ¬ Unclosed m.text := by
  constructor
  · rintro ⟨sent, hrun, hreach, -⟩ hopen
    have hout := @run_unclosed m tab [] m.text _ rfl hopen _ _ hrun
    omega
  · intro hclosed
    obtain ⟨sent, hrun, hsends⟩ := @run_closed m tab [] m.text _ rfl hclosed (Nat.lt_succ_self _) {}
    exact ⟨sent, hrun, hsends.reach (Nat.zero_le _), hsends.flatten⟩

/-- `a${b` is sent with a byte that lies behind it. -/
theorem expands_unclosed :
    let m : Mapped := ⟨[97, 36, 123, 98], fun _ => 33⟩
    run ⟨fun _ => [], fun _ => -1⟩ m 5 0 {} = some ⟨[[97], [36, 123, 98, 33]], 8⟩ ∧
      ¬ Expands ⟨fun _ => [], fun _ => -1⟩ m := by
  refine ⟨by decide, ?_⟩
  rintro ⟨sent, hrun, hreach, -⟩
  have hsent : run ⟨fun _ => [], fun _ => -1⟩ ⟨[97, 36, 123, 98], fun _ => 33⟩ 5 0 {} =
      some ⟨[[97], [36, 123, 98, 33]], 8⟩ := by decide
  rw [show sent = ⟨[[97], [36, 123, 98, 33]], 8⟩ from Option.some.inj (hrun.symm.trans hsent)] at hreach
  exact absurd hreach (by decide)

end MarkupSent

end Acng
