import Acng.Proofs.Download

namespace Acng
open Lib

namespace DlNext

def state : DlNext → DownloadState
  | .answer _ st | .again _ st | .replace _ st | .lastLine _ st => st

end DlNext

theorem repDlResult_calls (args : DlArgs) (src : Resolved) (dl : Transfer) (ret : DlResult)
    (ending : DlEnd) (st : DownloadState) :
    (repDlResult args src dl ret ending st).state.calls = st.calls := by
  unfold repDlResult
  by_cases hok : ret = .ok
  · simp only [hok, if_true]
    split <;> rfl
  · simp only [hok, decide_false, Bool.false_and, Bool.false_eq_true, if_false]
    cases retry st.cache args src dl <;> rfl

theorem formatError_calls (cfg : CachemanCfg) (args : DlArgs) (src : Resolved) (dl : Transfer)
    (st : DownloadState) : (formatError cfg args src dl st).state.calls = st.calls := by
  unfold formatError
  split
  · exact repDlResult_calls _ _ _ _ _ _
  · split <;> exact repDlResult_calls _ _ _ _ _ _

/-- The body counts itself and nothing else. -/
theorem downloadNext_calls (cfg : CachemanCfg) (io : DownloadIo) (args : DlArgs)
    (st : DownloadState) : (downloadNext cfg io args st).state.calls = st.calls + 1 := by
  unfold downloadNext
  simp only
  split
  · rfl
  · split
    · rfl
    · split
      · exact repDlResult_calls _ _ _ _ _ _
      · split
        · rfl
        · split
          · exact repDlResult_calls _ _ _ _ _ _
          · split
            · split
              · exact formatError_calls _ _ _ _ _
              · rfl
            · split
              · rfl
              · split
                · rfl
                · split
                  · exact repDlResult_calls _ _ _ _ _ _
                  · split
                    · rfl
                    · exact formatError_calls _ _ _ _ _

/-- A call of `Download` makes another one: for the same file with another URL, or for another
version of the file. -/
def Recurses (cfg : CachemanCfg) (ios : Nat → DownloadIo) (call call' : DlArgs × DownloadState) :
    Prop :=
  downloadNext cfg (ios call.2.calls) call.1 call.2 = .again call'.1 call'.2 ∨
    downloadNext cfg (ios call.2.calls) call.1 call.2 = .replace call'.1 call'.2

theorem Recurses.depth_lt {cfg : CachemanCfg} {ios : Nat → DownloadIo}
    {call call' : DlArgs × DownloadState} (h : Recurses cfg ios call call') :
    call'.1.depth < call.1.depth := by
  have hsane := downloadNext_sane cfg (ios call.2.calls) call.1 call.2
  obtain h | h := h
  · rw [h] at hsane
    exact hsane.2
  · rw [h] at hsane
    exact hsane.2

theorem DlArgs.depth_le (args : DlArgs) : args.depth ≤ 2 := by
  unfold depth
  split_ifs <;> omega

/-- `Download` is entered once for itself, and once for each call that its depth allows. -/
theorem download_calls (cfg : CachemanCfg) (ios : Nat → DownloadIo) (args : DlArgs)
    (st : DownloadState) : (download cfg ios args st).2.calls ≤ st.calls + args.depth + 1 := by
  induction hdepth : args.depth using Nat.strong_induction_on generalizing args st with
  | _ depth ih =>
    have hcalls := downloadNext_calls cfg (ios st.calls) args st
    have hsane := downloadNext_sane cfg (ios st.calls) args st
    rw [download_eq]
    unfold downloadBody
    simp only
    generalize downloadNext cfg (ios st.calls) args st = next at hcalls hsane ⊢
    cases next with
    | answer a st' =>
      simp only [DlNext.state] at hcalls ⊢
      omega
    | again args' st' =>
      have hlt := hsane.2
      have hrest := ih args'.depth (hdepth ▸ hlt) args' st' rfl
      simp only [DlNext.state] at hcalls ⊢
      omega
    | replace args' st' =>
      have hlt := hsane.2
      have hrest := ih args'.depth (hdepth ▸ hlt) args' st' rfl
      simp only [DlNext.state] at hcalls ⊢
      split
      · omega
      · simp only
        omega
      · simp only
        omega
    | lastLine ending st' =>
      simp only [DlNext.state] at hcalls ⊢
      omega

/-- Whatever the remote side does and whatever is in the cache: a call leads to two further ones at
most, `download` is the function that the recursion defines, and it is entered three times at most. -/
theorem download_recursion_ends (cfg : CachemanCfg) (ios : Nat → DownloadIo) :
    (∀ call calls, (call :: calls).IsChain (Recurses cfg ios) → calls.length ≤ 2) ∧
      ∀ args st,
        download cfg ios args st =
            downloadBody cfg ios (fun call => download cfg ios call.1 call.2) (args, st) ∧
          (download cfg ios args st).2.calls ≤ st.calls + 3 := by
  refine ⟨fun call calls h => ?_, fun args st => ⟨download_eq cfg ios args st, ?_⟩⟩
  · have hlen := chain_length_le (fun call : DlArgs × DownloadState => call.1.depth)
      (fun _ _ hstep => Recurses.depth_lt hstep) h
    exact hlen.trans call.1.depth_le
  · have hcalls := download_calls cfg ios args st
    have hdepth := args.depth_le
    omega

end Acng
