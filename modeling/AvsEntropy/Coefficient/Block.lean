import AvsEntropy.Bin.Code
import AvsEntropy.Coefficient.Scan

/-!
# Coefficient blocks

A block is read one coefficient at a time: a magnitude, a sign and a
run. Before every coefficient but the first a bin tells whether the
block ends; a block whose positions are used up ends without one. Every
coefficient is written as soon as it is complete, so those before a
failure are kept. The list that they are written to is the caller's, who may
have used it before: it is cleared first (`Block.readInto`).
-/

namespace AvsEntropy

namespace Block

open BinTree

variable {ω : Type}

/-- Whether the block ends here. Nothing is asked before the first
coefficient: a block has at least one. -/
def ends (plane : Plane) (scan : Scan) : BinTree ω Bool :=
  let start := (Element.coefficients plane).start
  if 0 < scan.peak then do
    let byTier ← require (scan.endByTier? start)
    blended byTier (scan.endByPosition start)
  else return false

/-- The next coefficient. -/
def coefficient (plane : Plane) (scan : Scan) : BinTree ω Coefficient := do
  let element := Element.coefficients plane
  let level ← unary element true 1 maxLevel fun count =>
    .symbol (scan.levelContext element.start count)
  let negative ← bypass
  let maxRun ← require scan.maxRun?
  let run ← unary element true 0 maxRun fun count =>
    .symbol (scan.runContext element.start level count)
  return ⟨← require (signed? negative level), run⟩

/-- The coefficients from a scan position on. -/
def readFrom (plane : Plane) (scan : Scan) : BinTree Coefficient Scan :=
  if scanLength ≤ scan.position then return scan
  else do
    if ← ends plane scan then return scan
    else
      let c ← coefficient plane scan
      .write c <|
        match _ : scan.advance? c with
        | some next => readFrom plane next
        | none => .fault
termination_by scanLength - scan.position
decreasing_by
  have := Scan.position_lt_of_advance? ‹_›
  omega

/-- A block of a plane: writes its coefficients and ends with the scan. -/
def read (plane : Plane) : BinTree Coefficient Scan := readFrom plane .initial

/-- Reads a block into a list. What the list held before is dropped. -/
def readInto {σ : Type} [BinInput σ] (plane : Plane) (out : List Coefficient) (s : σ) :
    Outcome σ Coefficient Scan :=
  (read plane).runInto (out.take 0) s

end Block

end AvsEntropy
