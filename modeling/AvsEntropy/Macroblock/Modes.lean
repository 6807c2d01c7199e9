import AvsEntropy.Bin.Code

/-!
# Skips, types, modes, references and the quantizer

The elements of a macroblock that are plain counts. Each is a unary code
of some kind, and what makes it its own is the choice of contexts: the
first bin often looks at the neighbours, and the later ones share the
last contexts of the element.

What is known of the neighbours is whether the macroblocks to the left and
above meet a condition, which the caller tests. The two answers are the
lowest bits of a byte; its other bits are kept as they come.
-/

namespace AvsEntropy

/-! ## What is known of the neighbours -/

/-- Whether the left and the upper neighbour meet a condition. -/
structure Neighbors where
  /-- The left neighbour's answer in bit 0, the upper one's in bit 1. -/
  word : UInt8
  deriving DecidableEq, Repr

namespace Neighbors

/-- The two answers as flags. -/
def ofConditions (left top : Bool) : Neighbors :=
  ⟨(if left then 1 else 0) ||| (if top then 2 else 0)⟩

/-- The flags without the bits that mean nothing. -/
def truncate (n : Neighbors) : Neighbors := ⟨n.word &&& 3⟩

/-- The flags of a byte in which only the two known bits are set. -/
def ofWord? (word : UInt8) : Option Neighbors :=
  if word &&& 3 = word then some ⟨word⟩ else none

/-- Whether the left neighbour meets the condition. -/
def left (n : Neighbors) : Bool := n.word &&& 1 != 0

/-- Whether the upper neighbour meets the condition. -/
def top (n : Neighbors) : Bool := n.word &&& 2 != 0

/-- How many of the two meet the condition. -/
def tally (n : Neighbors) : Nat := n.left.toNat + n.top.toNat

/-- The whole byte as a number: the left neighbour counts one and the
upper one two. -/
def weight (n : Neighbors) : Nat := n.word.toNat

end Neighbors

namespace Macroblock

open BinTree

variable {ω : Type}

/-! ## Counts -/

/-- The type of a slice. -/
inductive SliceKind where
  /-- Predicted from one side. -/
  | p
  /-- Predicted from two sides. -/
  | b
  deriving DecidableEq, Repr

/-- The largest macroblock type of a slice. -/
def maxType : SliceKind → Nat
  | .p => 4
  | .b => 23

/-- The largest luma mode. -/
def maxLumaMode : Nat := 4

/-- The largest chroma mode. -/
def maxChromaMode : Nat := 3

/-- The number of macroblocks skipped, at most `limit`. -/
def skipRun (limit : Nat) : BinTree ω Nat :=
  unary .skipRun true 0 limit fun count => .symbol (Element.skipRun.start + min count 3)

/-- The type of a macroblock in a P slice. -/
def typeP : BinTree ω Nat :=
  unary .macroblockType true 0 (maxType .p) fun count =>
    .symbol (Element.macroblockType.start + min count 4)

/-- The type of a macroblock in a B slice. The flags tell of each
neighbour whether it is coded with a type of its own. -/
def typeB (neighbors : Neighbors) : BinTree ω Nat := do
  if ← symbol (Element.macroblockType.start + neighbors.tally) then
    checkedUnary .macroblockType true 1 (maxType .b) fun count => do
      let before ← difference? count 1
      return .symbol (Element.macroblockType.start + 8 + min before 6)
  else return 0

/-- The count is at least one where a bin is asked for by the count before. -/
theorem typeB_eq (neighbors : Neighbors) : (typeB neighbors : BinTree ω Nat) = do
    if ← symbol (Element.macroblockType.start + neighbors.tally) then
      unary .macroblockType true 1 (maxType .b) fun count =>
        .symbol (Element.macroblockType.start + 8 + min (count - 1) 6)
    else return 0 := by
  unfold typeB
  rw [checkedUnary_eq fun count hcount => by rw [difference?_of_le hcount]; rfl]

/-- The type of a macroblock. -/
def type (slice : SliceKind) (neighbors : Neighbors) : BinTree ω Nat :=
  match slice with
  | .p => typeP
  | .b => typeB neighbors

/-- The prediction of a quarter of a macroblock: two bins. -/
def partitionType : BinTree ω Nat := do
  let high ← symbol Element.partitionType.start
  let low ← symbol (Element.partitionType.start + 1 + high.toNat)
  return 2 * high.toNat + low.toNat

/-- The intra prediction mode of a luma block: zero for the predicted
mode, and otherwise which of the rest. -/
def lumaMode : BinTree ω Nat :=
  truncatedUnary true maxLumaMode fun count => .symbol (Element.lumaMode.start + count)

/-- The intra prediction mode of the chroma blocks. The flags tell of
each neighbour whether its mode is another than the mean. -/
def chromaMode (neighbors : Neighbors) : BinTree ω Nat :=
  truncatedUnary false maxChromaMode fun count =>
    .symbol (Element.chromaMode.start + if count = 0 then neighbors.tally else 3)

/-- The index of a reference picture, at most `limit`. The flags tell of
each neighbour whether its index is positive, and are taken as a whole
byte. -/
def referenceIndex (neighbors : Neighbors) (limit : Nat) : BinTree ω Nat :=
  truncatedUnary false limit fun count =>
    .symbol (Element.referenceIndex.start +
      if count = 0 then neighbors.weight else if count = 1 then 4 else 5)

/-- Whether prediction is weighted. -/
def weighting : BinTree ω Bool := symbol Element.weighting.start

/-! ## The change of the quantizer -/

/-- The largest count of ones. -/
def maxQuantizerCount : Nat := 64

/-- The change at a place of the order `0, 1, -1, 2, -2, …`. -/
def alternate (count : Nat) : Int :=
  if count % 2 = 1 then ((count + 1) / 2 : Nat) else -((count / 2 : Nat) : Int)

/-- The change of the quantizer. The first context depends on whether
the macroblock before changed it. -/
def quantizerDelta (changed : Bool) : BinTree ω Int := do
  let start := Element.quantizerDelta.start
  let count ← BinTree.unary .quantizerDelta false 0 maxQuantizerCount fun count =>
    .symbol (start + if count = 0 then changed.toNat else if count = 1 then 2 else 3)
  return alternate count

end Macroblock

end AvsEntropy
