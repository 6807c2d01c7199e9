import AvsEntropy.Bin.Code
import AvsEntropy.Coefficient.Block
import AvsEntropy.Macroblock.CodedBlocks
import AvsEntropy.Macroblock.Motion
import AvsEntropy.Notice

/-!
# Queries

All that can be read from a source of bins, as data: a query is a
syntax element with what its contexts depend on, or a bin by itself.
`Query.tree` gives the tree that reads it, so that what is said of every
query is said of every element.
-/

namespace AvsEntropy

open Macroblock

/-- Something to be read. -/
inductive Query where
  /-- One bin. -/
  | bin (request : BinRequest)
  /-- A number of bypass bins. -/
  | bypassBits (count : Nat)
  /-- The number of macroblocks skipped. -/
  | skipRun (limit : Nat)
  /-- The type of a macroblock. -/
  | macroblockType (slice : SliceKind) (neighbors : Neighbors)
  /-- The prediction of a quarter of a macroblock. -/
  | partitionType
  /-- The intra prediction mode of a luma block. -/
  | lumaMode
  /-- The intra prediction mode of the chroma blocks. -/
  | chromaMode (neighbors : Neighbors)
  /-- The index of a reference picture. -/
  | referenceIndex (neighbors : Neighbors) (limit : Nat)
  /-- A component of a motion vector difference, by its element. -/
  | motionDifference (element : Element) (step : Nat)
  /-- Both components of a motion vector difference. -/
  | motionVector (stepX stepY : Nat)
  /-- The pattern of coded blocks. -/
  | codedBlocks (left top : Option Nat) (format : ChromaFormat)
  /-- The change of the quantizer. -/
  | quantizerDelta (changed : Bool)
  /-- Whether prediction is weighted. -/
  | weighting
  /-- A block of coefficients. -/
  | block (plane : Plane)
  deriving DecidableEq

/-- The value of a query. -/
inductive Answer where
  /-- A bin, or a flag. -/
  | flag (value : Bool)
  /-- A number. -/
  | number (value : Int)
  /-- A motion vector difference. -/
  | motion (vector : MotionVector)
  /-- Where the scan of a block ended. -/
  | scan (scan : Scan)
  deriving DecidableEq, Repr

namespace Query

/-- A count as an answer. -/
def counted (t : BinTree Coefficient Nat) : BinTree Coefficient Answer :=
  (fun n : Nat => .number n) <$> t

/-- The tree that reads a query. -/
def tree : Query → BinTree Coefficient Answer
  | .bin request => .flag <$> BinTree.ask request .done
  | .bypassBits count => counted (BinTree.bypassBits count)
  | .skipRun limit => counted (Macroblock.skipRun limit)
  | .macroblockType slice neighbors => counted (Macroblock.type slice neighbors)
  | .partitionType => counted Macroblock.partitionType
  | .lumaMode => counted Macroblock.lumaMode
  | .chromaMode neighbors => counted (Macroblock.chromaMode neighbors)
  | .referenceIndex neighbors limit => counted (Macroblock.referenceIndex neighbors limit)
  | .motionDifference element step => .number <$> motionDifferenceOf element step
  | .motionVector stepX stepY => .motion <$> Macroblock.motionVector stepX stepY
  | .codedBlocks left top format => counted (Macroblock.codedBlocks left top format)
  | .quantizerDelta changed => .number <$> Macroblock.quantizerDelta changed
  | .weighting => .flag <$> Macroblock.weighting
  | .block plane => .scan <$> Block.read plane

/-- Reads a query from a source of bins. -/
def run {σ : Type} [BinInput σ] (q : Query) (s : σ) : Outcome σ Coefficient Answer :=
  q.tree.run s

/-- What there is to say of a query that was read: that a value exceeded
its limit, or that a block is complete. -/
def notices {σ : Type} (q : Query) (o : Outcome σ Coefficient Answer) : List Notice :=
  match o.result, q with
  | .error (.failed (.outOfRange element value limit)), _ => [.outOfRange element value limit]
  | .ok (.scan scan), .block plane => [.blockEnd plane o.written.length scan]
  | _, _ => []

end Query

end AvsEntropy
