import AvsEntropy.Bin.Code

/-!
# Motion vector differences

A component is a magnitude and a sign. Magnitudes up to two have bins of
their own; a larger one is its parity and half of what is left over
three, in an Exp-Golomb code of bypass bins. Zero has no sign.
-/

namespace AvsEntropy

namespace Element

/-- The axis of a motion vector difference. -/
def axis? : Element → Option Axis
  | .motion axis => some axis
  | _ => none

end Element

namespace Macroblock

open BinTree

variable {ω : Type}

/-- The most zeros that an Exp-Golomb code may begin with. -/
def maxMotionZeros : Nat := 16

/-- The step to the first context of a component, from the sum of its
neighbours' magnitudes. -/
def motionStep (sum : Nat) : Nat :=
  if sum < 2 then 0 else if sum < 16 then 1 else 2

/-- The number that an Exp-Golomb code of so many zeros stands for, with the
bits behind its one. -/
def suffixValue? (zeros low : Nat) : Option Nat :=
  if zeros < 32 then do sum? wordBound (← difference? (1 <<< zeros) 1) low else none

/-- It fits its word after as many zeros as a code may begin with. -/
theorem suffixValue?_eq {zeros low : Nat} (hzeros : zeros ≤ maxMotionZeros)
    (hlow : low < 1 <<< zeros) : suffixValue? zeros low = some (1 <<< zeros - 1 + low) := by
  have hword : zeros < 32 := Nat.lt_of_le_of_lt hzeros (by decide)
  have hone : 1 <<< zeros ≤ 1 <<< maxMotionZeros := by
    rw [Nat.one_shiftLeft, Nat.one_shiftLeft]
    exact Nat.pow_le_pow_right (by decide) hzeros
  have hlast : 1 <<< maxMotionZeros = 65536 := rfl
  have hfits : 1 <<< zeros - 1 + low < wordBound := by
    rw [wordBound]
    omega
  rw [suffixValue?, if_pos hword, difference?_of_le (Nat.one_le_of_lt hlow)]
  exact sum?_of_lt hfits

/-- An Exp-Golomb code of bypass bins: zeros, a one, and as many bins as
there were zeros. -/
def motionSuffix (axis : Axis) : BinTree ω Nat := do
  let zeros ← unary (.motion axis) true 0 maxMotionZeros fun _ => .bypass
  let low ← bypassBits zeros
  require (suffixValue? zeros low)

/-- The magnitude of a component that is not zero. -/
def motionMagnitude (axis : Axis) : BinTree ω Nat := do
  let start := (Element.motion axis).start
  if ← symbol (start + 3) then
    if ← symbol (start + 4) then
      let parity ← symbol (start + 5)
      let suffix ← motionSuffix axis
      require (sum? wordBound (3 + parity.toNat) (2 * suffix))
    else return 2
  else return 1

/-- A component of a motion vector difference. The first context is
`step` on from the first of the element, and at most two. -/
def motionDifference (axis : Axis) (step : Nat) : BinTree ω Int := do
  if ← symbol ((Element.motion axis).start + min step 2) then
    let magnitude ← motionMagnitude axis
    let negative ← bypass
    require (signed? negative magnitude)
  else return 0

/-- A component named by its element, which must be one. -/
def motionDifferenceOf (e : Element) (step : Nat) : BinTree ω Int :=
  match e.axis? with
  | some axis => motionDifference axis step
  | none => .fault

/-- A motion vector difference. -/
structure MotionVector where
  /-- The horizontal component. -/
  x : Int
  /-- The vertical component. -/
  y : Int
  deriving DecidableEq, Repr

/-- Both components, the horizontal one first. -/
def motionVector (stepX stepY : Nat) : BinTree ω MotionVector := do
  let x ← motionDifference .x stepX
  return ⟨x, ← motionDifference .y stepY⟩

end Macroblock

end AvsEntropy
