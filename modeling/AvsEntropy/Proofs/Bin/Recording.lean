import AvsEntropy.Proofs.Bin.Transcript

/-!
# Recording a source

A `Recording` is a source of bins with a log of what it has answered. It
answers as the source does, so a tree that is run on it runs as on the
source (`run_recording`), and what the log has gained is what the tree
`heard`: the requests that were answered, with their bins, also where the
run ends without a value. A run that ends with one has heard a transcript
of the value (`reaches_heard`).

What every answer keeps, of the log and the source, a whole run keeps
(`run_heard`).
-/

namespace AvsEntropy

variable {σ ω α : Type}

/-- A source of bins with the requests it has answered. -/
structure Recording (σ : Type) where
  /-- What answers. -/
  source : σ
  /-- What was answered, in order. -/
  log : Transcript

instance [BinInput σ] : BinInput (Recording σ) where
  answer request := fun r =>
    match BinInput.answer request r.source with
    | .ok bin s => .ok bin ⟨s, r.log ++ [(request, bin)]⟩
    | .error stop s => .error stop ⟨s, r.log⟩

namespace BinTree

variable [BinInput σ] {t : BinTree ω α} {s after : σ} {request : BinRequest}
  {next : Bool → BinTree ω α} {bin : Bool} {stop : Stop}

/-- What was answered over a run. -/
def heard (t : BinTree ω α) (s : σ) : Transcript :=
  (t.run (⟨s, []⟩ : Recording σ)).state.log

/-- A request that is answered is recorded. -/
theorem run_ask_recording_of_ok (h : BinInput.answer request s = .ok bin after)
    (log : Transcript) : (ask request next).run (⟨s, log⟩ : Recording σ) =
      (next bin).run ⟨after, log ++ [(request, bin)]⟩ := by
  rw [run]
  simp only [BinInput.answer, h]

/-- One that is not is not. -/
theorem run_ask_recording_of_error (h : BinInput.answer request s = .error stop after)
    (log : Transcript) : (ask request next).run (⟨s, log⟩ : Recording σ) =
      ⟨.error stop, [], ⟨after, log⟩⟩ := by
  rw [run]
  simp only [BinInput.answer, h]

/-- **Recording changes nothing** but the log, which gains what was
heard. -/
theorem run_recording (t : BinTree ω α) (s : σ) (log : Transcript) :
    t.run (⟨s, log⟩ : Recording σ) =
      ⟨(t.run s).result, (t.run s).written, ⟨(t.run s).state, log ++ t.heard s⟩⟩ := by
  induction t generalizing s log with
  | done a => rw [heard, run, run, run, List.append_nil]
  | refuse => rw [heard, run, run, run, List.append_nil]
  | fault => rw [heard, run, run, run, List.append_nil]
  | write item rest ih =>
    rw [run, ih, run]
    rfl
  | ask request next ih =>
    cases hanswer : BinInput.answer request s with
    | ok bin after =>
      rw [heard, run_ask_recording_of_ok hanswer, run_ask_recording_of_ok hanswer, ih, ih, run,
        hanswer]
      dsimp only
      rw [List.nil_append, List.append_assoc]
    | error stop after =>
      rw [heard, run_ask_recording_of_error hanswer, run_ask_recording_of_error hanswer, run,
        hanswer]
      dsimp only
      rw [List.append_nil]

/-- An answer is heard before what follows it. -/
theorem heard_ask_of_ok (h : BinInput.answer request s = .ok bin after) :
    (ask request next).heard s = (request, bin) :: (next bin).heard after := by
  rw [heard, run_ask_recording_of_ok h, run_recording]
  rfl

/-- Of a request that is not answered nothing is heard. -/
theorem heard_ask_of_error (h : BinInput.answer request s = .error stop after) :
    (ask request next).heard s = [] := by
  rw [heard, run_ask_recording_of_error h]

/-- **What is heard on the way to a value is a transcript of it.** -/
theorem reaches_heard {a : α} (h : (t.run s).result = .ok a) :
    t.Reaches (t.heard s) (t.run s).written a := by
  induction t generalizing s with
  | done b =>
    injection h with hvalue
    exact ⟨rfl, rfl, hvalue.symm⟩
  | refuse => cases h
  | fault => cases h
  | write item rest ih => exact ⟨_, rfl, ih h⟩
  | ask request next ih =>
    cases hanswer : BinInput.answer request s with
    | ok bin after =>
      rw [run, hanswer] at h ⊢
      rw [heard_ask_of_ok hanswer]
      exact ⟨bin, _, rfl, ih bin h⟩
    | error stop after =>
      rw [run, hanswer] at h
      cases h

/-- **A run keeps what every request keeps**: an answered one, which the
log gains, and one that is not answered, which it does not. -/
theorem run_heard (Inv : Transcript → σ → Prop)
    (hok : ∀ {request log bin} {s after : σ}, BinInput.answer request s = .ok bin after →
      Inv log s → Inv (log ++ [(request, bin)]) after)
    (herror : ∀ {request log stop} {s after : σ}, BinInput.answer request s = .error stop after →
      Inv log s → Inv log after)
    {log : Transcript} (h : Inv log s) : Inv (log ++ t.heard s) (t.run s).state := by
  induction t generalizing s log with
  | done a => rwa [heard, run, run, List.append_nil]
  | refuse => rwa [heard, run, run, List.append_nil]
  | fault => rwa [heard, run, run, List.append_nil]
  | write item rest ih => exact ih h
  | ask request next ih =>
    rw [run]
    cases hanswer : BinInput.answer request s with
    | ok bin after =>
      rw [heard_ask_of_ok hanswer, List.append_cons]
      exact ih bin (hok hanswer h)
    | error stop after =>
      rw [heard_ask_of_error hanswer, List.append_nil]
      exact herror hanswer h

end BinTree

end AvsEntropy
