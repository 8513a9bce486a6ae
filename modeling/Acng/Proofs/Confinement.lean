import Acng.Prepare
import Acng.Lib.Scan

namespace Acng
open Lib

/-- The check finds every `..` component of a text without a NUL. -/
theorem nastyPath_parent (req : Bytes) (h0 : 0 ∉ req) (h : nastyPath req = false) :
    [46, 46] ∉ req.splitOn 47 := by
  intro hm
  obtain ⟨b, c, rfl, hc⟩ := mem_splitOn req _ hm
  have hcstr : cstr (b ++ [46, 46] ++ c) = b ++ [46, 46] ++ c := by
    have := cstr_append _ [] h0
    simpa [cstr] using this
  unfold nastyPath at h
  rw [hcstr, Bool.eq_false_iff] at h
  refine h (List.any_eq_true.mpr ⟨46 :: 46 :: c, ?_, ?_⟩)
  · rw [List.mem_tails]
    exact ⟨b, by simp⟩
  · unfold badStuffAt
    rcases hc with rfl | hc
    · rfl
    · simp [hc]

theorem splitPath_head (rest : Bytes) : (HttpUrl.splitPath rest).2.head? = some 47 := by
  unfold HttpUrl.splitPath
  simp only
  split
  · split <;> rfl
  · rfl

theorem front_suffix (url : Bytes) (fr : HttpUrl.Front) (h : HttpUrl.front url = some fr) :
    fr.rest <:+ url := by
  unfold HttpUrl.front at h
  split_ifs at h <;> cases h
  · exact List.drop_suffix _ _
  · exact List.drop_suffix _ _
  all_goals exact List.suffix_refl _

theorem front_https (r : Bytes) :
    HttpUrl.front (lit "https://" ++ r) = some { rest := r, bSSL := true } := by
  have hc : cstr (lit "https://" ++ r) = lit "https://" ++ cstr r := cstr_append _ _ (by decide)
  have hlit : lit "https://" = [104, 116, 116, 112, 115, 58, 47, 47] := by decide
  have h7 : caseEqN 7 (lit "https://" ++ cstr r) (lit "http://") = false := by
    rw [hlit]
    rfl
  have h8 : caseEqN 8 (lit "https://" ++ cstr r) (lit "https://") = true := by
    rw [hlit]
    rfl
  unfold HttpUrl.front
  rw [hc, h7, h8]
  rfl

theorem front_http (r : Bytes) : HttpUrl.front (lit "http://" ++ r) = some { rest := r } := by
  have hc : cstr (lit "http://" ++ r) = lit "http://" ++ cstr r := cstr_append _ _ (by decide)
  have hlit : lit "http://" = [104, 116, 116, 112, 58, 47, 47] := by decide
  have h7 : caseEqN 7 (lit "http://" ++ cstr r) (lit "http://") = true := by
    rw [hlit]
    rfl
  unfold HttpUrl.front
  rw [hc, h7]
  rfl

end Acng
