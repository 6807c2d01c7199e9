import AvsEntropy.Proofs.Bin.Recording
import AvsEntropy.Proofs.Bin.Requests

/-!
# One tree on two sources

A tree sees nothing of its source but the bins that it is given. So two
sources that answer alike, until the first has no more to answer, are read
alike: what was written by then is the beginning of what the other source
goes on to write (`run_inStep`).

The bins themselves will do as well. On a tape of the bins that a source
has answered, a tree does what it does on the source, and asks the tape
what it asked there (`Asks.run_tape`).
-/

namespace AvsEntropy

variable {σ τ ω α β : Type}

/-! ## In step -/

/-- Of two outcomes the first is out of bins, or the second is the same in a
related state; either way it begins with the items of the first. -/
structure Outcome.InStep (R : σ → τ → Prop) (o : Outcome σ ω α) (o' : Outcome τ ω α) : Prop where
  written : o.written <+: o'.written
  same : o.result ≠ .error (.failed .endOfStream) →
    o'.result = o.result ∧ o'.written = o.written ∧ R o.state o'.state

namespace BinTree

section InStep

variable [BinInput σ] [BinInput τ] {R : σ → τ → Prop} {s : σ} {s' : τ}

/-- **Sources that answer in step are read in step.** -/
theorem run_inStep (hanswer : ∀ request s s', R s s' →
      InStep R (BinInput.answer request s) (BinInput.answer request s'))
    (t : BinTree ω α) (h : R s s') : (t.run s).InStep R (t.run s') := by
  induction t generalizing s s' with
  | done a => exact ⟨List.prefix_rfl, fun _ => ⟨rfl, rfl, h⟩⟩
  | refuse => exact ⟨List.prefix_rfl, fun _ => ⟨rfl, rfl, h⟩⟩
  | fault => exact ⟨List.prefix_rfl, fun _ => ⟨rfl, rfl, h⟩⟩
  | write item rest ih =>
    have hrest := ih h
    refine ⟨(List.prefix_cons_inj item).2 hrest.written, fun hresult => ?_⟩
    obtain ⟨hsame, hwritten, hstate⟩ := hrest.same hresult
    exact ⟨hsame, congrArg (item :: ·) hwritten, hstate⟩
  | ask request next ih =>
    rw [run, run]
    rcases (hanswer request s s' h).cases with ⟨bin, after, after', hs, hs', hafter⟩ |
      ⟨after, hs⟩ | ⟨stop, after, after', hs, hs', hafter⟩
    · rw [hs, hs']
      exact ih bin hafter
    · rw [hs]
      exact ⟨List.nil_prefix, fun hresult => absurd rfl hresult⟩
    · rw [hs, hs']
      exact ⟨List.prefix_rfl, fun _ => ⟨rfl, rfl, hafter⟩⟩

end InStep

/-! ## On a tape of the answers -/

section Tape

variable [BinInput σ] {t : BinTree ω α} {s : σ}

/-- The requests that were made over a run, the last one also if it was not
answered. -/
def asked : BinTree ω α → σ → List BinRequest
  | .done _, _ => []
  | .refuse .., _ => []
  | .fault, _ => []
  | .write _ rest, s => rest.asked s
  | .ask request next, s => request ::
    match BinInput.answer request s with
    | .ok bin after => (next bin).asked after
    | .error _ _ => []

variable {P : BinRequest → Prop} {Inv : σ → Prop}
  (hanswer : ∀ request s, P request → Inv s → Keeps Inv (BinInput.answer request s))

include hanswer

/-- **What was heard answers what was asked**, but for a last request
that the bins ran out on. -/
theorem Asks.asked_cases (ht : t.Asks P) (hs : Inv s) :
    t.asked s = (t.heard s).map Prod.fst ∧ (t.run s).result ≠ .error (.failed .endOfStream) ∨
    ∃ request, t.asked s = (t.heard s).map Prod.fst ++ [request] ∧
      (t.run s).result = .error (.failed .endOfStream) := by
  induction t generalizing s with
  | done a => exact .inl ⟨rfl, nofun⟩
  | refuse => exact .inl ⟨rfl, nofun⟩
  | fault => exact .inl ⟨rfl, nofun⟩
  | write item rest ih => exact ih ht hs
  | ask request next ih =>
    have hstep := hanswer request s ht.1 hs
    rw [run, asked]
    cases hanswered : BinInput.answer request s with
    | ok bin after =>
      rw [hanswered] at hstep
      rw [heard_ask_of_ok hanswered, List.map_cons]
      rcases ih bin (ht.2 bin) hstep with ⟨hasked, hresult⟩ | ⟨last, hasked, hresult⟩
      · exact .inl ⟨congrArg (request :: ·) hasked, hresult⟩
      · exact .inr ⟨last, congrArg (request :: ·) hasked, hresult⟩
    | error stop after =>
      rw [hanswered] at hstep
      rw [heard_ask_of_error hanswered]
      exact .inr ⟨request, rfl, congrArg Except.error hstep.1⟩

/-- **The bins that were heard stand in for the source**: on a tape of them
a tree ends as it did, writes what it wrote, makes the requests that it made
and leaves no bin over. -/
theorem Asks.run_tape (ht : t.Asks P) (hs : Inv s) (requests : Array BinRequest) :
    t.run (⟨(t.heard s).map Prod.snd, requests⟩ : BinTape) =
      ⟨(t.run s).result, (t.run s).written, ⟨[], requests ++ (t.asked s).toArray⟩⟩ := by
  induction t generalizing s requests with
  | done a => rfl
  | refuse => rfl
  | fault => rfl
  | write item rest ih =>
    rw [show (write item rest).heard s = rest.heard s from rfl, run, ih ht hs requests]
    rfl
  | ask request next ih =>
    have hstep := hanswer request s ht.1 hs
    rw [run, asked, run]
    cases hanswered : BinInput.answer request s with
    | ok bin after =>
      rw [hanswered] at hstep
      rw [heard_ask_of_ok hanswered, ← List.push_append_toArray]
      exact ih bin (ht.2 bin) hstep (requests.push request)
    | error stop after =>
      rw [hanswered] at hstep
      rw [heard_ask_of_error hanswered, hstep.1]
      rfl

end Tape

end BinTree

end AvsEntropy
