import AvsEntropy.Proofs.Range.Decisions

/-!
# How deep a range lies

The scale and the rest of a range are one number, its depth: a step of
scale is as deep as all steps of the rest together. A cut takes the range
down by its width, whether it borrows or not (`Registers.depth_split`),
and the value lies below a cut exactly where it is deeper than the cut
(`Registers.isBelow_split_iff`). So the comparison of two scales and two
rests is one linear inequality.
-/

namespace AvsEntropy

/-- How deep the range lies that a cut leaves. -/
def Split.depth (cut : Split) : ℕ := 256 * cut.scale + (255 - cut.rest)

namespace Registers

/-- How deep the range lies: from the widest one down, in steps of the
rest. -/
def rangeDepth (r : Registers) : ℕ := 256 * r.rangeScale + (255 - r.rangeRest)

/-- How deep the value lies. -/
def valueDepth (r : Registers) : ℕ := 256 * r.valueScale + (255 - r.valueRest)

variable {r : Registers} {width : ℕ}

/-- A narrowed range lies where the cut does. -/
@[simp] theorem rangeDepth_narrow (r : Registers) (cut : Split) :
    (r.narrow cut).rangeDepth = cut.depth := rfl

/-- And its value where it was. -/
@[simp] theorem valueDepth_narrow (r : Registers) (cut : Split) :
    (r.narrow cut).valueDepth = r.valueDepth := rfl

/-- **A cut goes down by its width**, with a step of scale or without. -/
theorem depth_split (hr : r.rangeRest < 256) (hw : width ≤ 256) :
    (r.split width).depth = r.rangeDepth + width := by
  unfold Split.depth rangeDepth
  rcases r.split_cases width with ⟨hle, h, -⟩ | ⟨hlt, h, -⟩ <;> rw [h] <;> dsimp only <;> omega

/-- **The value lies below a cut where it lies deeper.** -/
theorem isBelow_split_iff (hr : r.Sound) (hw : 1 ≤ width) (hw' : width ≤ 256) :
    r.isBelow (r.split width) = true ↔ r.rangeDepth + width < r.valueDepth := by
  have hcut := split_rest_lt hr.rangeRest_lt hw
  have hvalue := hr.valueRest_lt
  rw [isBelow_iff, ← depth_split hr.rangeRest_lt hw']
  unfold Split.depth valueDepth
  omega

end Registers

end AvsEntropy
