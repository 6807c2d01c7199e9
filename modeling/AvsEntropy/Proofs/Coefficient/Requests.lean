import AvsEntropy.Coefficient.Block
import AvsEntropy.Proofs.Bin.Codes
import AvsEntropy.Proofs.Coefficient.Scan
import AvsEntropy.Proofs.Element.Ownership

/-!
# What a coefficient block asks for

The contexts of a plane have four roles, and a block keeps to them:
`Block.Asks` says which contexts a magnitude, a run and the two sides of
an end-of-block bin may have. The groups do not meet, so the two contexts
of an end-of-block bin are two (`Asks.ownedBy`).

What carries the proof is that every scan fits: its tier is that of its peak,
so at most four, and at least one after the first coefficient, and its position
stays in the block. No check fails there, which is half of the result.
-/

namespace AvsEntropy

namespace Block

open BinTree BinRequest

variable {ω : Type}

/-- What a block asks for, in a plane whose contexts begin at `start`: by
tier, one of two contexts for a magnitude and four for a run, and for the
end of the block the context of a tier and that of a position. -/
def Asks (start : ℕ) : BinRequest → Prop
  | .symbol context =>
    (∃ tier later, tier ≤ 4 ∧ later ≤ 1 ∧ context = start + 3 * tier + later) ∨
      start + 46 ≤ context ∧ context ≤ start + 65
  | .blended first second =>
    (∃ tier, 1 ≤ tier ∧ tier ≤ 4 ∧ first = start + 3 * tier - 1) ∧
      start + 14 ≤ second ∧ second ≤ start + 45
  | .bypass => True

/-- **A block keeps to its plane**, and the two contexts of an
end-of-block bin are two. -/
theorem Asks.ownedBy {plane : Plane} {request : BinRequest}
    (h : Asks (Element.coefficients plane).start request) :
    request.OwnedBy (.coefficients plane) := by
  cases request with
  | symbol context =>
    rcases h with ⟨tier, later, htier, hlater, rfl⟩ | ⟨hlow, hhigh⟩
    · exact ⟨by omega, by simp only [Element.size]; omega⟩
    · exact ⟨by omega, by simp only [Element.size]; omega⟩
  | blended first second =>
    obtain ⟨⟨tier, hone, hfour, rfl⟩, hlow, hhigh⟩ := h
    exact ⟨⟨by omega, by simp only [Element.size]; omega⟩,
      ⟨by omega, by simp only [Element.size]; omega⟩, by omega⟩
  | bypass => trivial

variable {plane : Plane} {scan : Scan}

/-- The end is asked for by the two groups between magnitudes and runs. -/
theorem within_ends (h : scan.Tiered) (hposition : scan.position < scanLength) :
    (ends plane scan : BinTree ω Bool).Within (Asks (Element.coefficients plane).start)
      fun _ => True := by
  rw [scanLength] at hposition
  rw [ends_eq]
  refine within_ite (fun hpeak => within_blended ⟨?_, ?_, ?_⟩) fun _ => trivial
  · exact ⟨scan.tier, h.one_le_tier hpeak, h.tier_le, rfl⟩
  · rw [Scan.endByPosition]; omega
  · rw [Scan.endByPosition]; omega

/-- A coefficient asks for its magnitude and its run, and fits. -/
theorem within_coefficient (plane : Plane) (h : scan.Tiered)
    (hposition : scan.position < scanLength) :
    (coefficient plane scan : BinTree ω Coefficient).Within
      (Asks (Element.coefficients plane).start) scan.Allows := by
  have htier := h.tier_le
  rw [coefficient_eq plane hposition]
  refine (within_unary (by decide) (by decide) fun count _ _ => ?_).bind fun level hlevel => ?_
  · refine .inl ⟨scan.tier, if 1 < count then 1 else 0, htier, ?_, rfl⟩
    split <;> omega
  refine (within_bypass trivial).bind fun negative _ => ?_
  refine (within_unary (Nat.zero_le _) scan.maxRun_lt fun count _ _ => ?_).bind fun run hrun => ?_
  · refine .inr ?_
    simp only [Scan.runContext]
    constructor <;> split <;> split <;> omega
  · have habs := natAbs_signed negative level
    rw [signed?_level negative hlevel.2, require_some_bind]
    exact ⟨by rw [habs]; exact hlevel.1, by rw [habs]; exact hlevel.2, hrun.2⟩

/-- **From any scan that fits, a block keeps to its groups of contexts**
and its scan keeps fitting. -/
theorem within_readFrom (h : scan.Fits) :
    (readFrom plane scan).Within (Asks (Element.coefficients plane).start) Scan.Fits := by
  induction scan using readFrom.induct with
  | case1 scan hfull =>
    rw [readFrom_of_le hfull]
    exact h
  | case2 scan hroom ih =>
    have hposition := Nat.lt_of_not_le hroom
    rw [readFrom_of_lt hposition]
    refine (within_ends h.tiered hposition).bind fun ended _ => within_ite (fun _ => h) fun _ => ?_
    refine (within_coefficient plane h.tiered hposition).bind fun c hc => ?_
    have hnext := Scan.advance?_eq hposition hc
    rw [hnext, require_some_bind]
    exact ih c (scan.advance c) hnext (h.advance hposition hc)

theorem within_read (plane : Plane) :
    (read plane).Within (Asks (Element.coefficients plane).start) Scan.Fits :=
  within_readFrom Scan.fits_initial

end Block

end AvsEntropy
