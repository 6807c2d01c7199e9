import AvsEntropy.Coefficient.Block
import Mathlib.Tactic.Ring

/-!
# Scans that can be reached

`Scan.advance` is what a checked step of the scan comes to, and `maxRun` and
`endByTier` are the other numbers of a block without their checks.

The tier is a field of its own, and an invariant of the loop keeps it right: a
scan is `Tiered` if its tier is that of its peak. The first scan is, and every
step leaves one that is, whatever it was before (`tiered_of_advance?`). So the
tier is at most four, and at least one as soon as there is a coefficient.

A scan `Fits` while it stays inside the block with magnitudes inside their
limit, and it `Allows` a coefficient that keeps it so: every scan of a block
fits (`Fits.advance`), whatever the coefficients are. No check of the block
fails then: there is always a run (`maxRun?_eq`), a context before that of the
tier (`endByTier?_eq`) and a next scan (`advance?_eq`).

What a block does is read off `ends_eq`, `coefficient_eq` and the two equations
of `readFrom`, in which only the checks are left that depend on the bins.
-/

namespace AvsEntropy

namespace Scan

variable {s next : Scan} {c : Coefficient} {peak start : ℕ}

/-! ## Steps -/

/-- The scan after a coefficient. -/
def advance (s : Scan) (c : Coefficient) : Scan where
  position := s.position + c.run + 1
  peak := max s.peak c.level.natAbs
  tier := tierOf (max s.peak c.level.natAbs)
  level := c.level.natAbs

/-- How many zeros may come before the next coefficient. -/
def maxRun (s : Scan) : ℕ := scanLength - 1 - s.position

/-- The end-of-block context of the tier. -/
def endByTier (s : Scan) (start : ℕ) : ℕ := start + 3 * s.tier - 1

/-- **A checked step is the step**, whatever the scan. -/
theorem eq_advance_of_advance? (h : s.advance? c = some next) : next = s.advance c :=
  eq_of_advance? h

/-- After a coefficient the peak is positive. -/
theorem peak_advance_pos (h : 1 ≤ c.level.natAbs) : 0 < (s.advance c).peak :=
  lt_of_lt_of_le h (le_max_right _ _)

/-- A run that is refused still fits its word. -/
theorem maxRun_lt (s : Scan) : s.maxRun + 1 < wordBound := by
  simp only [maxRun, scanLength, wordBound]
  omega

/-! ## Tiers -/

/-- Every tier has contexts. -/
theorem tierOf_le (peak : ℕ) : tierOf peak ≤ maxTier := by
  unfold tierOf maxTier
  split
  · omega
  · split <;> omega

/-- A magnitude makes a tier that is not the lowest. -/
theorem one_le_tierOf (h : 0 < peak) : 1 ≤ tierOf peak := by
  unfold tierOf
  split
  · exact h
  · split <;> omega

/-- The tier in use is that of the peak. -/
def Tiered (s : Scan) : Prop := s.tier = tierOf s.peak

theorem tiered_initial : initial.Tiered := rfl

theorem tiered_advance (s : Scan) (c : Coefficient) : (s.advance c).Tiered := rfl

/-- **Every step brings the tier up to date.** -/
theorem tiered_of_advance? (h : s.advance? c = some next) : next.Tiered :=
  eq_advance_of_advance? h ▸ s.tiered_advance c

/-- **The tier is right all along the loop.** -/
theorem Tiered.foldl_advance (h : s.Tiered) (pairs : List Coefficient) :
    (pairs.foldl advance s).Tiered := by
  induction pairs generalizing s with
  | nil => exact h
  | cons c cs ih => exact ih (s.tiered_advance c)

theorem Tiered.tier_le (h : s.Tiered) : s.tier ≤ 4 := by
  rw [h]
  exact tierOf_le s.peak

/-- After the first coefficient the tier is not the lowest. -/
theorem Tiered.one_le_tier (h : s.Tiered) (hpeak : 0 < s.peak) : 1 ≤ s.tier := by
  rw [h]
  exact one_le_tierOf hpeak

/-! ## Scans inside the block -/

/-- A scan that can be reached: inside the block, with magnitudes inside
their limit and the tier that belongs to them. -/
structure Fits (s : Scan) : Prop where
  position_le : s.position ≤ scanLength
  peak_le : s.peak ≤ maxLevel
  tiered : s.Tiered
  level_le : s.level ≤ maxLevel

/-- A coefficient that can come next: its magnitude is in range, and its
run leaves a position for it. -/
structure Allows (s : Scan) (c : Coefficient) : Prop where
  one_le : 1 ≤ c.level.natAbs
  le_maxLevel : c.level.natAbs ≤ maxLevel
  run_le : c.run ≤ s.maxRun

theorem fits_initial : initial.Fits := ⟨by decide, by decide, tiered_initial, by decide⟩

/-- What a coefficient that is allowed leaves of the block. -/
theorem Allows.position_advance_le (hc : s.Allows c) (hposition : s.position < scanLength) :
    (s.advance c).position ≤ scanLength := by
  have hrun := hc.run_le
  unfold maxRun at hrun
  show s.position + c.run + 1 ≤ scanLength
  omega

/-- **A coefficient that is allowed leaves a scan that fits.** -/
theorem Fits.advance (h : s.Fits) (hposition : s.position < scanLength) (hc : s.Allows c) :
    (s.advance c).Fits where
  position_le := hc.position_advance_le hposition
  peak_le := max_le h.peak_le hc.le_maxLevel
  tiered := s.tiered_advance c
  level_le := hc.le_maxLevel

/-! ## The checks -/

/-- There is room for a run while there is a position. -/
theorem maxRun?_eq (h : s.position < scanLength) : s.maxRun? = some s.maxRun :=
  difference?_of_le (Nat.le_pred_of_lt h)

/-- There is a context before that of the tier in every plane but one that
begins at the first. -/
theorem endByTier?_eq (s : Scan) (h : 1 ≤ start) :
    s.endByTier? start = some (s.endByTier start) :=
  difference?_of_le (Nat.le_add_right_of_le h)

/-- **No check fails on a coefficient that is allowed.** -/
theorem advance?_eq (hposition : s.position < scanLength) (hc : s.Allows c) :
    s.advance? c = some (s.advance c) := by
  have hfits : s.position + (c.run + 1) < wordBound :=
    lt_of_le_of_lt (hc.position_advance_le hposition) (by decide)
  have htaken : c.run + 1 < wordBound := lt_of_le_of_lt (Nat.le_add_left _ _) hfits
  rw [advance?, sum?_of_lt htaken]
  simp only [Option.bind_eq_bind, Option.bind_some, sum?_of_lt hfits, tierOf_le, if_true]
  rfl

end Scan

namespace Block

open BinTree

variable {ω : Type} {scan : Scan}

theorem one_le_start (plane : Plane) : 1 ≤ (Element.coefficients plane).start :=
  le_trans (by decide : 1 ≤ 58) (Nat.le_add_right _ _)

/-- The end is asked for by the tier and the position, once there is a
coefficient. -/
theorem ends_eq (plane : Plane) (scan : Scan) : (ends plane scan : BinTree ω Bool) =
    if 0 < scan.peak then
      blended (scan.endByTier (Element.coefficients plane).start)
        (scan.endByPosition (Element.coefficients plane).start)
    else return false := by
  simp only [ends, scan.endByTier?_eq (one_le_start plane), require_some_bind]

/-- Where there is a position, a coefficient is a magnitude, a sign and a run. -/
theorem coefficient_eq (plane : Plane) (h : scan.position < scanLength) :
    (coefficient plane scan : BinTree ω Coefficient) = do
      let element := Element.coefficients plane
      let level ← unary element true 1 maxLevel fun count =>
        .symbol (scan.levelContext element.start count)
      let negative ← bypass
      let run ← unary element true 0 scan.maxRun fun count =>
        .symbol (scan.runContext element.start level count)
      return ⟨← require (signed? negative level), run⟩ := by
  unfold coefficient
  rw [Scan.maxRun?_eq h]
  rfl

/-- A magnitude of a coefficient has either sign. -/
theorem signed?_level (negative : Bool) {level : ℕ} (h : level ≤ maxLevel) :
    signed? negative level = some (if negative then -(level : ℤ) else level) :=
  signed?_of_lt negative (lt_of_le_of_lt h (by decide))

/-- A block that is full is complete. -/
theorem readFrom_of_le {plane : Plane} (h : scanLength ≤ scan.position) :
    readFrom plane scan = return scan := by
  rw [readFrom, if_pos h]

/-- One that is not ends here, or reads a coefficient and goes on. -/
theorem readFrom_of_lt {plane : Plane} (h : scan.position < scanLength) :
    readFrom plane scan = (do
      if ← ends plane scan then return scan
      else
        let c ← coefficient plane scan
        .write c (require (scan.advance? c) >>= readFrom plane)) := by
  rw [readFrom, if_neg (Nat.not_le.2 h)]
  refine congrArg (ends plane scan >>= ·) (funext fun ended => ?_)
  cases ended with
  | true => rfl
  | false =>
    refine congrArg (coefficient plane scan >>= ·) (funext fun c => congrArg (write c) ?_)
    split
    · rename_i next hnext
      rw [hnext]
      rfl
    · rename_i hnext
      rw [hnext]
      rfl

end Block

end AvsEntropy
