import AvsEntropy.Element.Basic
import AvsEntropy.Failure

/-!
# The scan of a coefficient block

The coefficients of an 8×8 block are numbered along a scan. Those that
are not zero are listed with the run of zeros before them. `Scan` is
what the choice of contexts depends on: the position, the largest
magnitude so far, its tier, and the last one. The tier is a field of its own
that every coefficient brings up to date.

The contexts of a plane fall into four groups. A tier has three of the
first fourteen, two for magnitudes and one for the end of the block, and
four of the last twenty, for runs; the contexts between are for the end
of the block at each pair of positions.
-/

namespace AvsEntropy

/-- A coefficient that is not zero, and the run of zeros before it. -/
structure Coefficient where
  /-- The value. -/
  level : Int
  /-- How many zeros come before it. -/
  run : Nat
  deriving DecidableEq, Repr

/-- The number of positions in a block. -/
def scanLength : Nat := 64

/-- The largest magnitude. -/
def maxLevel : Nat := 2048

/-- The last tier of contexts. -/
def maxTier : Nat := 4

/-- How far a block is decoded. -/
structure Scan where
  /-- The position of the next coefficient. -/
  position : Nat
  /-- The largest magnitude so far. -/
  peak : Nat
  /-- The tier of contexts in use. -/
  tier : Nat
  /-- The last magnitude. -/
  level : Nat
  deriving DecidableEq, Repr

namespace Scan

/-- The scan before the first coefficient. -/
def initial : Scan := ⟨0, 0, 0, 0⟩

/-- The tier of a largest magnitude: as it is up to three, with four
joined to three and all above in the last tier. -/
def tierOf (peak : Nat) : Nat :=
  if peak ≤ 3 then peak else if peak = 4 then 3 else 4

/-- How many zeros may come before the next coefficient, which must still
have a position. -/
def maxRun? (s : Scan) : Option Nat := difference? (scanLength - 1) s.position

/-- The scan after a coefficient. The tier follows the largest magnitude, and
must be one that has contexts. -/
def advance? (s : Scan) (c : Coefficient) : Option Scan := do
  let peak := max s.peak c.level.natAbs
  let tier := tierOf peak
  let taken ← sum? wordBound c.run 1
  let position ← sum? wordBound s.position taken
  if tier ≤ maxTier then return ⟨position, peak, tier, c.level.natAbs⟩ else none

/-- The end-of-block context of the tier, in a plane that starts at
`start`. It comes last of the tier before. -/
def endByTier? (s : Scan) (start : Nat) : Option Nat := difference? (start + 3 * s.tier) 1

/-- The end-of-block context of the position. -/
def endByPosition (s : Scan) (start : Nat) : Nat :=
  start + 14 + 16 * (s.position / 32) + s.position / 2 % 16

/-- The context of a magnitude's bin, by the count so far. -/
def levelContext (s : Scan) (start count : Nat) : Nat :=
  start + 3 * s.tier + if 1 < count then 1 else 0

/-- The context of a run's bin, by the magnitude before it and the count
so far. -/
def runContext (s : Scan) (start level count : Nat) : Nat :=
  start + 46 + 4 * s.tier + (if 1 < level then 2 else 0) + if 0 < count then 1 else 0

/-- What a checked advance comes to. -/
theorem eq_of_advance? {s next : Scan} {c : Coefficient} (h : s.advance? c = some next) :
    next = ⟨s.position + (c.run + 1), max s.peak c.level.natAbs,
      tierOf (max s.peak c.level.natAbs), c.level.natAbs⟩ := by
  obtain ⟨taken, htaken, h⟩ := Option.bind_eq_some_iff.1 h
  obtain ⟨position, hposition, h⟩ := Option.bind_eq_some_iff.1 h
  obtain ⟨-, rfl⟩ := sum?_eq_some.1 htaken
  obtain ⟨-, rfl⟩ := sum?_eq_some.1 hposition
  exact (Option.some.inj (Option.ite_none_right_eq_some.1 h).2).symm

/-- Every coefficient takes a position. -/
theorem position_lt_of_advance? {s next : Scan} {c : Coefficient}
    (h : s.advance? c = some next) : s.position < next.position := by
  rw [eq_of_advance? h]
  exact Nat.lt_add_of_pos_right (Nat.succ_pos c.run)

end Scan

end AvsEntropy
