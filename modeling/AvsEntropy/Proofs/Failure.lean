import AvsEntropy.Failure

/-!
# Stopping as expected

A computation over bits may always run out of them, and a value may
always be too large. Every other way to stop is a defect: `Expected` and
`Keeps` exclude it, of a result and of a step that changes a state.

`InStep` compares a step with the same step where more bits may follow:
it may run out of them where the other one goes on, and in no other way
can the two part.
-/

namespace AvsEntropy

variable {σ τ α : Type}

/-- Two ends of a computation are compared by their parts. -/
instance decidableEqResult {ε : Type} [DecidableEq ε] [DecidableEq σ] [DecidableEq α] :
    DecidableEq (EStateM.Result ε σ α)
  | .ok a s, .ok b t => decidable_of_iff (a = b ∧ s = t) (by simp)
  | .error e s, .error f t => decidable_of_iff (e = f ∧ s = t) (by simp)
  | .ok .., .error .. => .isFalse (by simp)
  | .error .., .ok .. => .isFalse (by simp)

/-- How a computation may end: with a value that is `Q`, because the bits
ran out, or with a value above its limit. -/
def Expected (Q : α → Prop) : Except Stop α → Prop
  | .ok a => Q a
  | .error (.failed .endOfStream) => True
  | .error (.failed (.outOfRange ..)) => True
  | .error _ => False

/-- A step that keeps an invariant: it succeeds, or the bits run out. -/
def Keeps (Inv : σ → Prop) : EStateM.Result Stop σ α → Prop
  | .ok _ s => Inv s
  | .error stop s => stop = .failed .endOfStream ∧ Inv s

/-- Of two steps the first runs out of bits, or the second ends as it does
and in a related state. -/
def InStep (R : σ → τ → Prop) : EStateM.Result Stop σ α → EStateM.Result Stop τ α → Prop
  | .ok a s, y => ∃ t, y = .ok a t ∧ R s t
  | .error stop s, y => stop = .failed .endOfStream ∨ ∃ t, y = .error stop t ∧ R s t

/-- Steps in step have the same value, the first has no more bits, or they
fail the same way. -/
theorem InStep.cases {R : σ → τ → Prop} {x : EStateM.Result Stop σ α} {y : EStateM.Result Stop τ α}
    (h : InStep R x y) : (∃ a s t, x = .ok a s ∧ y = .ok a t ∧ R s t) ∨
      (∃ s, x = .error (.failed .endOfStream) s) ∨
      ∃ stop s t, x = .error stop s ∧ y = .error stop t ∧ R s t := by
  cases x with
  | ok a s =>
    obtain ⟨t, hy, hR⟩ := h
    exact .inl ⟨a, s, t, rfl, hy, hR⟩
  | error stop s =>
    rcases h with rfl | ⟨t, hy, hR⟩
    · exact .inr (.inl ⟨s, rfl⟩)
    · exact .inr (.inr ⟨stop, s, t, rfl, hy, hR⟩)

end AvsEntropy
