import Acng.Maintenance

namespace Acng
open Lib

/-- The client has sent the credentials of the administrator: `Basic`, white space and the encoded
password up to the end of the value. -/
def SentCredentials (adminauthB64 : Bytes) (auth : Option Bytes) : Prop :=
  ∃ value space, auth = some value ∧ (∀ c ∈ space, isspace c = true) ∧
    cstr value = lit "Basic" ++ space ++ adminauthB64

/-- With a password only the credentials are accepted. -/
theorem checkAdminAuth_eq_zero {adminauthB64 : Bytes} {auth : Option Bytes}
    (h : checkAdminAuth adminauthB64 auth = 0) (hset : adminauthB64 ≠ []) :
    SentCredentials adminauthB64 auth := by
  unfold checkAdminAuth at h
  rw [if_neg (by simpa using hset)] at h
  cases auth with
  | none => simp at h
  | some value =>
    dsimp only [Option.elim] at h
    split at h
    · exact absurd h (by decide)
    · split at h
      · exact absurd h (by decide)
      · next hbasic =>
        split at h
        · next heq =>
          simp only [Bool.not_eq_true', Bool.not_eq_false, List.isPrefixOf_iff_prefix] at hbasic
          obtain ⟨rest, hrest⟩ := hbasic
          have hdrop : (cstr value).drop 5 = rest := by
            rw [← hrest]
            rfl
          rw [hdrop, beq_iff_eq] at heq
          refine ⟨value, rest.takeWhile isspace, rfl, fun c hc => ?_, ?_⟩
          · exact List.mem_takeWhile_imp hc
          · rw [heq, List.append_assoc, List.takeWhile_append_dropWhile, hrest]
        · exact absurd h (by decide)

/-- The request passes on to the actions only if its value was accepted. -/
theorem authVerdict_eq_none {haveChecksum : Bool} {adminauthB64 : Bytes} {auth : Option Bytes}
    (h : authVerdict haveChecksum adminauthB64 auth = none) :
    haveChecksum = true ∧ checkAdminAuth adminauthB64 auth = 0 := by
  unfold authVerdict at h
  split at h
  · next hzero => exact ⟨by simpa using h, hzero⟩
  · exact absurd h (Option.some_ne_none _)
  · exact absurd h (Option.some_ne_none _)

/-- A refusal is no work. -/
theorem authVerdict_changesState {haveChecksum : Bool} {adminauthB64 : Bytes} {auth : Option Bytes}
    {work : MaintWorkType} (h : authVerdict haveChecksum adminauthB64 auth = some work) :
    work.changesState = false := by
  unfold authVerdict at h
  split at h
  · obtain ⟨_, ht⟩ := Option.ite_none_left_eq_some.mp h
    obtain rfl := Option.some.inj ht
    rfl
  all_goals
    obtain rfl := Option.some.inj h
    rfl

theorem workFor_authorised {cfg : ServeCfg} {haveChecksum : Bool} {adminauthB64 : Bytes}
    {auth : Option Bytes} {word params : Bytes}
    (h : (workFor cfg haveChecksum adminauthB64 auth word params).changesState = true) :
    checkAdminAuth adminauthB64 auth = 0 := by
  unfold workFor at h
  -- The three results in front of the test change nothing.
  split at h
  · exact absurd h Bool.false_ne_true
  · split at h
    · exact absurd h Bool.false_ne_true
    · split at h
      · exact absurd h Bool.false_ne_true
      · cases hverdict : authVerdict haveChecksum adminauthB64 auth with
        | some refusal =>
          simp only [hverdict] at h
          exact absurd ((authVerdict_changesState hverdict).symm.trans h) Bool.false_ne_true
        | none => exact (authVerdict_eq_none hverdict).2

/-- Whatever the command looks like, work that changes something is only returned for a value that
`CheckAdminAuth` accepts. With a password this means that the client has sent it. -/
theorem dispatchMaintWork_authorised {cfg : ServeCfg} {haveChecksum : Bool}
    {adminauth cmdRaw : Bytes} {auth : Option Bytes} {work : MaintWorkType}
    (h : dispatchMaintWork cfg haveChecksum (encodeBase64Auth adminauth) cmdRaw auth = some work)
    (hwork : work.changesState = true) :
    checkAdminAuth (encodeBase64Auth adminauth) auth = 0 ∧
      (encodeBase64Auth adminauth ≠ [] → SentCredentials (encodeBase64Auth adminauth) auth) := by
  obtain ⟨spos, _, h⟩ := Option.bind_eq_some_iff.mp h
  obtain rfl := Option.some.inj h
  have hzero := workFor_authorised hwork
  exact ⟨hzero, checkAdminAuth_eq_zero hzero⟩

/-- The request of an administrator with the password `x:y`. Both actions of the parameters match,
the first one of the table is taken. -/
theorem dispatchMaintWork_authorised_delete :
    checkAdminAuth (encodeBase64Auth (lit "x:y")) (some (lit "Basic eDp5")) = 0 ∧
      (encodeBase64Auth (lit "x:y") ≠ [] →
        SentCredentials (encodeBase64Auth (lit "x:y")) (some (lit "Basic eDp5"))) :=
  have h : dispatchMaintWork { getFiletype := fun _ => none } true (encodeBase64Auth (lit "x:y"))
      (lit "/acng-report.html?doTruncateYes=1&doDeleteYes=1") (some (lit "Basic eDp5")) =
      some .workDELETE := by
    simp only [lit]
    repeat rw [String.toList_ofList]
    decide +kernel
  dispatchMaintWork_authorised h rfl

theorem find_getD_length (a : UInt8) (s : Bytes) :
    (find [a] s).getD s.length = (s.takeWhile (· != a)).length := by
  induction s with
  | nil => rfl
  | cons c s ih =>
    by_cases hc : c = a
    · subst hc
      simp [find]
    · have hne : (a == c) = false := beq_false_of_ne (Ne.symm hc)
      simp only [find, List.isPrefixOf_cons_cons, hne, Bool.false_and, Bool.false_eq_true, if_false]
      rw [List.takeWhile_cons_of_pos (p := (· != a)) (bne_iff_ne.mpr hc), List.length_cons,
        List.length_cons, ← ih]
      cases find [a] s <;> rfl

/-- The name of the page lies between the leading slashes and the parameters. -/
theorem page_word {slashes : Bytes} {c : UInt8} (rest : Bytes) (h : ∀ b ∈ slashes, b = 47) (hc : c ≠ 47) :
    (slashes ++ c :: rest).findIdx? (· != 47) = some slashes.length ∧
      ((slashes ++ c :: rest).drop slashes.length).take
        ((find [63] (slashes ++ c :: rest)).getD (slashes ++ c :: rest).length - slashes.length) =
        (c :: rest).takeWhile (· != 63) := by
  have hskip : ∀ b ∈ slashes, (b != 63) = true := by
    intro b hb
    rw [h b hb]
    rfl
  constructor
  · induction slashes with
    | nil =>
      rw [List.nil_append, List.findIdx?_cons, if_pos (bne_iff_ne.mpr hc)]
      rfl
    | cons b slashes ih =>
      obtain ⟨hb, hslashes⟩ := List.forall_mem_cons.mp h
      subst hb
      have hrest := ih hslashes (fun b hb => hskip b (List.mem_cons_of_mem _ hb))
      rw [List.cons_append, List.findIdx?_cons, hrest]
      rfl
  · rw [find_getD_length, List.takeWhile_append_of_pos hskip, List.length_append,
      Nat.add_sub_cancel_left, List.drop_left]
    exact (List.prefix_iff_eq_take.mp (List.takeWhile_prefix _)).symm

theorem authVerdict_ne_notSpecial {haveChecksum : Bool} {adminauthB64 : Bytes}
    {auth : Option Bytes} {work : MaintWorkType}
    (h : authVerdict haveChecksum adminauthB64 auth = some work) : work ≠ .workNotSpecial := by
  rintro rfl
  unfold authVerdict at h
  split at h
  · split at h <;> exact absurd h (by simp)
  all_goals exact absurd h (by simp)

theorem needles_special : ∀ needle ∈ needles, needle.2 ≠ .workNotSpecial := by
  decide +kernel

/-- The work is special exactly if the name is that of the style sheet or of the page. -/
theorem workFor_special (cfg : ServeCfg) (haveChecksum : Bool) (adminauthB64 : Bytes)
    (auth : Option Bytes) (word params : Bytes) :
    (workFor cfg haveChecksum adminauthB64 auth word params != .workNotSpecial) =
      (word == lit "style.css" || word == cfg.reportpage) := by
  unfold workFor
  cases word == lit "style.css" with
  | true => rfl
  | false =>
    cases hpage : word == cfg.reportpage with
    | false => simp [bne, hpage]
    | true =>
      simp only [bne, hpage, Bool.not_true, Bool.false_eq_true, if_false, Bool.or_true,
        Bool.not_eq_true', beq_eq_false_iff_ne]
      split
      · exact MaintWorkType.noConfusion
      · split
        · next hverdict => exact authVerdict_ne_notSpecial hverdict
        · cases hhit : needles.find? (fun needle => (find needle.1 params).isSome) with
          | none => exact MaintWorkType.noConfusion
          | some needle => exact needles_special needle (List.mem_of_find?_eq_some hhit)

/-- `job::Prepare` leaves its own way exactly for the requests that get some work. -/
theorem isMaintWork_eq (cfg : ServeCfg) (haveChecksum : Bool) (adminauthB64 cmdRaw : Bytes)
    (auth : Option Bytes) :
    isMaintWork cfg cmdRaw =
      (dispatchMaintWork cfg haveChecksum adminauthB64 cmdRaw auth).map
        (· != .workNotSpecial) := by
  have hcmd := List.takeWhile_append_dropWhile (p := (· == 47)) (l := expandEncapsulatedCmd cfg cmdRaw)
  have hslashes : ∀ b ∈ (expandEncapsulatedCmd cfg cmdRaw).takeWhile (· == 47), b = 47 :=
    fun b hb => beq_iff_eq.mp (List.mem_takeWhile_imp (p := (· == 47)) hb)
  unfold isMaintWork dispatchMaintWork
  cases hrest : (expandEncapsulatedCmd cfg cmdRaw).dropWhile (· == 47) with
  | nil =>
    rw [hrest, List.append_nil] at hcmd
    have hnone : (expandEncapsulatedCmd cfg cmdRaw).findIdx? (· != 47) = none := by
      rw [List.findIdx?_eq_none_iff, ← hcmd]
      intro b hb
      simpa using hslashes b hb
    simp [hnone]
  | cons c rest =>
    have hc : c ≠ 47 := by
      have := List.head?_dropWhile_not (· == 47) (expandEncapsulatedCmd cfg cmdRaw)
      simpa [hrest] using this
    rw [hrest] at hcmd
    obtain ⟨hspos, hword⟩ := page_word rest hslashes hc
    rw [hcmd] at hspos hword
    simp only [List.isEmpty_cons, Bool.false_eq_true, if_false, hspos, Option.bind_eq_bind,
      Option.bind_some, Option.map_some, hword, workFor_special]

end Acng
