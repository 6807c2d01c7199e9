import AvsEntropy.Macroblock.Modes

/-!
# Which blocks are coded

A pattern has a bit for each of the four luma blocks, in raster order,
and two bits for the chroma blocks; with the larger chroma format two
more follow. The context of a luma bin depends on whether the blocks to
the left of it and above it are coded, in this macroblock or in the
neighbouring one. A neighbour that is not available has no coded block.
-/

namespace AvsEntropy

namespace Macroblock

open BinTree

variable {ω : Type}

/-- How chroma is sampled. -/
inductive ChromaFormat where
  /-- Half the rows and half the columns. -/
  | yuv420
  /-- Half the columns. -/
  | yuv422
  deriving DecidableEq, Repr

instance : Inhabited ChromaFormat := ⟨.yuv420⟩

/-- Whether a pattern, if there is one, has a block coded. -/
def isCoded (pattern : Option Nat) (block : Nat) : Bool :=
  pattern.any (·.testBit block)

/-- One luma bin, by the blocks to the left and above. -/
def lumaBlock (left top : Bool) : BinTree ω Bool :=
  symbol (Element.codedBlocks.start + (Neighbors.ofConditions left top).weight)

/-- The luma bits of a pattern. -/
def lumaPattern (left top : Option Nat) : BinTree ω Nat := do
  let topLeft ← lumaBlock (isCoded left 1) (isCoded top 2)
  let topRight ← lumaBlock topLeft (isCoded top 3)
  let bottomLeft ← lumaBlock (isCoded left 3) topLeft
  let bottomRight ← lumaBlock bottomLeft topRight
  return topLeft.toNat + 2 * topRight.toNat + 4 * bottomLeft.toNat + 8 * bottomRight.toNat

/-- The chroma bits of a pattern: none, both, or which one. -/
def chromaPattern : BinTree ω Nat := do
  let start := Element.codedBlocks.start
  if ← symbol (start + 4) then
    if ← symbol (start + 5) then return 3
    else if ← symbol (start + 5) then return 2
    else return 1
  else return 0

/-- The bits of a pattern for the chroma blocks that only the larger
format has. -/
def extraPattern : ChromaFormat → BinTree ω Nat
  | .yuv420 => return 0
  | .yuv422 => bypassBits 2

/-- The pattern of coded blocks of a macroblock, next to those of its
left and upper neighbours. -/
def codedBlocks (left top : Option Nat) (format : ChromaFormat) : BinTree ω Nat := do
  let luma ← lumaPattern left top
  let chroma ← chromaPattern
  let extra ← extraPattern format
  return luma + 16 * chroma + 64 * extra

end Macroblock

end AvsEntropy
