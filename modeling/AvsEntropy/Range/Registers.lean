import AvsEntropy.Failure

/-!
# The registers of the range decoder

The decoder narrows a range and asks on which side of the cut a value
lies. Range and value are each kept as a scale and a rest of eight bits,
which stand for the nine-bit number `256 + rest` halved `scale` times.
A cut is then a subtraction on the rest that borrows from the scale, and
the leading zeros of the value are counted instead of stored.

`Registers.split` is the cut; `Registers.isBelow` is the comparison.

How much a decision cuts off is a quarter of its probability state, which
says how unsure the prediction is, on a scale whose top stands for even odds.
Two decisions have a fixed state: bypass bins are decided at even odds, the
stuffing bit at the surest state that still cuts something off.
-/

namespace AvsEntropy

/-! ## Probability states -/

/-- The smallest probability state of a decision: a smaller one would
cut nothing off. -/
def minProbability : Nat := 4

/-- The largest probability state, which stands for even odds. -/
def maxProbability : Nat := 1023

/-- The probability state of a bypass decision. -/
def bypassProbability : Nat := maxProbability

/-- The probability state of a stuffing decision. -/
def stuffingProbability : Nat := minProbability

/-! ## Ranges and cuts -/

/-- The state of a range decoder between two decisions. -/
structure Registers where
  /-- How often the range was halved since it was last renewed. -/
  rangeScale : Nat
  /-- The low eight bits of the range. -/
  rangeRest : Nat
  /-- How many leading zeros the value has. -/
  valueScale : Nat
  /-- The eight bits after the leading one of the value. -/
  valueRest : Nat
  deriving DecidableEq, Repr

/-- What is left of a range after its lower-probability end is cut off. -/
structure Split where
  /-- The scale of the range that is left. -/
  scale : Nat
  /-- The rest of the range that is left. -/
  rest : Nat
  /-- Whether the scale lent to the rest. -/
  borrowed : Bool
  deriving DecidableEq, Repr

namespace Registers

/-- Cuts `width` off the range, borrowing one step of scale where the
rest is too small. -/
def split (r : Registers) (width : Nat) : Split :=
  if width ≤ r.rangeRest then ⟨r.rangeScale, r.rangeRest - width, false⟩
  else ⟨r.rangeScale + 1, 256 + r.rangeRest - width, true⟩

/-- Whether the value lies in the range that a cut leaves. -/
def isBelow (r : Registers) (cut : Split) : Bool :=
  cut.scale < r.valueScale || (cut.scale == r.valueScale && r.valueRest < cut.rest)

/-- The registers with the range that a cut leaves. -/
def narrow (r : Registers) (cut : Split) : Registers :=
  { r with rangeScale := cut.scale, rangeRest := cut.rest }

/-- The width of the end that was cut off, on the scale of the cut. -/
def severed (r : Registers) (cut : Split) (width : Nat) : Nat :=
  width + if cut.borrowed then r.rangeRest else 0

/-- A cut of `width` stays inside the words of the registers: the rest
is not cut below zero, and the scale still fits its word. -/
def Admits (r : Registers) (width : Nat) : Prop :=
  width ≤ 256 + r.rangeRest ∧ (r.split width).scale < wordBound

instance (r : Registers) (width : Nat) : Decidable (r.Admits width) :=
  inferInstanceAs (Decidable (_ ∧ _))

end Registers

/-- How often a width is doubled until it has nine bits. -/
def doublings (width : Nat) : Nat := 8 - width.log2

end AvsEntropy
