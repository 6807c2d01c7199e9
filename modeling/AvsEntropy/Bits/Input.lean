import AvsEntropy.Failure

/-!
# Sources of bits

A source of bits is a list of bits that is taken from the front:
`pending` is the list, `next?` takes its head, `position` counts what
was taken. All that is read from a source is read through `next?`, or
through `readWord`, which a source that holds whole bytes may answer
faster than bit by bit. The laws say that it makes no difference, except
to where a source stands after a word that ran past its end.

A read is a computation in `EStateM Stop σ`: it keeps the source it
reached also when it fails, so that bits consumed by a failing read stay
consumed.
-/

namespace AvsEntropy

/-- Takes `count` bits with `next?` and appends them below `value`. The
bits before the end are taken also when they are too few. -/
def appendBitsWith {σ : Type} (next? : σ → Option (Bool × σ)) :
    Nat → Nat → σ → EStateM.Result Stop σ Nat
  | 0, value, s => .ok value s
  | count + 1, value, s =>
    match next? s with
    | some (bit, rest) => appendBitsWith next? count (2 * value + bit.toNat) rest
    | none => .error (.failed .endOfStream) s

/-- A word of at most 32 bits, most significant bit first, taken bit by
bit. -/
def serialWord {σ : Type} (next? : σ → Option (Bool × σ)) (bits : Nat) : EStateM Stop σ Nat :=
  fun s =>
    if 32 < bits then .error (.failed (.invalidArgument (.wideWord bits))) s
    else appendBitsWith next? bits 0 s

/-- A source of bits, read from the front. -/
class BitInput (σ : Type) where
  /-- The bits still to come. -/
  pending : σ → List Bool
  /-- How many bits were taken since the source was opened. -/
  position : σ → Nat
  /-- Takes one bit, or nothing at the end. -/
  next? : σ → Option (Bool × σ)
  /-- Reads a word of at most 32 bits, most significant bit first. -/
  readWord : Nat → EStateM Stop σ Nat := serialWord next?
  /-- Only an exhausted source has no next bit. -/
  pending_of_none {s : σ} : next? s = none → pending s = []
  /-- The next bit is the head of what is pending. -/
  pending_of_some {s rest : σ} {bit : Bool} :
    next? s = some (bit, rest) → pending s = bit :: pending rest
  /-- Taking a bit moves one position on. -/
  position_of_some {s rest : σ} {bit : Bool} :
    next? s = some (bit, rest) → position rest = position s + 1
  /-- A word that does not run past the end is read as bit by bit. -/
  readWord_of_le {s : σ} {bits : Nat} :
    bits ≤ (pending s).length → readWord bits s = serialWord next? bits s
  /-- A word that runs past the end fails. -/
  readWord_of_lt {s : σ} {bits : Nat} : bits ≤ 32 → (pending s).length < bits →
    ∃ rest, readWord bits s = .error (.failed .endOfStream) rest

namespace BitInput

variable {σ : Type} [BitInput σ]

/-- Reads one bit. -/
def readBit : EStateM Stop σ Bool := fun s =>
  match next? s with
  | some (bit, rest) => .ok bit rest
  | none => .error (.failed .endOfStream) s

/-- Reads `count` bits and appends them below `value`. -/
def appendBits (count value : Nat) : EStateM Stop σ Nat :=
  appendBitsWith next? count value

/-- A bit taken leaves fewer to come. -/
theorem length_pending_lt {s rest : σ} {bit : Bool} (h : next? s = some (bit, rest)) :
    (pending rest).length < (pending s).length := by
  rw [pending_of_some h]; simp

end BitInput

end AvsEntropy
