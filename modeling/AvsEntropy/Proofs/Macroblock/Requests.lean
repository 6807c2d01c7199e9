import AvsEntropy.Macroblock.CodedBlocks
import AvsEntropy.Macroblock.Modes
import AvsEntropy.Macroblock.Motion
import AvsEntropy.Proofs.Bin.Codes
import AvsEntropy.Proofs.Element.Ownership

/-!
# What the elements of a macroblock ask for

For every element of a macroblock: its tree asks for contexts that the
element owns, its values are bounded, and it never faults. The skip run
needs a limit whose successor fits its word, and the reference index
needs flags without meaningless bits: its first context is chosen by the
whole byte.
-/

namespace AvsEntropy

namespace Macroblock

open BinTree BinRequest

variable {ω : Type}

/-! ## Counts -/

theorem within_skipRun {limit : ℕ} (hlimit : limit + 1 < wordBound) :
    (skipRun limit : BinTree ω ℕ).Within (OwnedBy .skipRun) (· ≤ limit) := by
  refine (within_unary (Nat.zero_le _) hlimit fun count _ _ => ?_).mono (fun _ h => h)
    fun _ h => h.2
  exact ownedBy_symbol rfl (by simp only [Element.size]; omega)

/-- And it asks for nothing else however large its limit is. -/
theorem asks_skipRun (limit : ℕ) : (skipRun limit : BinTree ω ℕ).Asks (OwnedBy .skipRun) :=
  asks_unary fun count => ownedBy_symbol rfl (by simp only [Element.size]; omega)

theorem within_typeP :
    (typeP : BinTree ω ℕ).Within (OwnedBy .macroblockType) (· ≤ maxType .p) := by
  refine (within_unary (Nat.zero_le _) (by decide) fun count _ _ => ?_).mono (fun _ h => h)
    fun _ h => h.2
  exact ownedBy_symbol rfl (by simp only [Element.size]; omega)

/-- At most two neighbours meet a condition. -/
theorem tally_le (neighbors : Neighbors) : neighbors.tally ≤ 2 := by
  have hleft := neighbors.left.toNat_le
  have htop := neighbors.top.toNat_le
  unfold Neighbors.tally
  omega

theorem within_typeB (neighbors : Neighbors) :
    (typeB neighbors : BinTree ω ℕ).Within (OwnedBy .macroblockType) (· ≤ maxType .b) := by
  have htally := tally_le neighbors
  rw [typeB_eq]
  refine (within_symbol (ownedBy_symbol rfl ?_)).bind fun own _ => within_ite (fun _ => ?_)
    fun _ => ?_
  · simp only [Element.size]; omega
  · refine (within_unary (by decide) (by decide) fun count _ _ => ?_).mono (fun _ h => h)
      fun _ h => h.2
    exact ownedBy_symbol (Nat.add_assoc ..) (by simp only [Element.size]; omega)
  · exact Nat.zero_le _

theorem within_type (slice : SliceKind) (neighbors : Neighbors) :
    (type slice neighbors : BinTree ω ℕ).Within (OwnedBy .macroblockType) (· ≤ maxType slice) := by
  cases slice with
  | p => exact within_typeP
  | b => exact within_typeB neighbors

theorem within_partitionType :
    (partitionType : BinTree ω ℕ).Within (OwnedBy .partitionType) (· ≤ 3) := by
  refine (within_symbol (ownedBy_start _)).bind fun high _ => ?_
  have hhigh := high.toNat_le
  refine (within_symbol (ownedBy_symbol (Nat.add_assoc ..) ?_)).bind fun low _ => ?_
  · simp only [Element.size]; omega
  · have hlow := low.toNat_le
    rw [within_pure]
    omega

theorem within_lumaMode :
    (lumaMode : BinTree ω ℕ).Within (OwnedBy .lumaMode) (· ≤ maxLumaMode) :=
  within_truncatedUnary fun _ hcount => ownedBy_symbol rfl hcount

theorem within_chromaMode (neighbors : Neighbors) :
    (chromaMode neighbors : BinTree ω ℕ).Within (OwnedBy .chromaMode) (· ≤ maxChromaMode) := by
  have htally := tally_le neighbors
  refine within_truncatedUnary fun count _ => ownedBy_symbol rfl ?_
  simp only [Element.size]
  split <;> omega

/-- **The reference index keeps to its contexts if its flags do to
theirs**: the weight of the flags is the step to the first context. -/
theorem within_referenceIndex {neighbors : Neighbors} (hflags : neighbors.truncate = neighbors)
    (limit : ℕ) :
    (referenceIndex neighbors limit : BinTree ω ℕ).Within (OwnedBy .referenceIndex)
      (· ≤ limit) := by
  have hweight : neighbors.weight ≤ 3 := by
    rw [← hflags, Neighbors.weight, Neighbors.truncate, UInt8.toNat_and]
    exact Nat.and_le_right
  refine within_truncatedUnary fun count _ => ownedBy_symbol rfl ?_
  simp only [Element.size]
  split
  · omega
  · split <;> omega

theorem within_weighting :
    (weighting : BinTree ω Bool).Within (OwnedBy .weighting) fun _ => True :=
  within_symbol (ownedBy_start _)

/-! ## Motion vector differences -/

/-- The largest magnitude of a component. -/
def maxMotion : ℕ := 262144

theorem within_motionSuffix (axis : Axis) :
    (motionSuffix axis : BinTree ω ℕ).Within (OwnedBy (.motion axis)) (· ≤ 131070) := by
  refine (within_unary (Nat.zero_le _) (by decide) fun _ _ _ => trivial).bind fun zeros hzeros => ?_
  refine (within_bypassBits zeros trivial).bind fun rest hrest => ?_
  have hpow : 2 ^ zeros ≤ 2 ^ 16 := Nat.pow_le_pow_right (by decide) hzeros.2
  have hmin : min zeros 32 = zeros := min_eq_left (le_trans hzeros.2 (by decide))
  rw [hmin] at hrest
  have hvalue : 1 <<< zeros - 1 + rest ≤ 131070 := by
    rw [Nat.one_shiftLeft]
    omega
  exact within_require (suffixValue?_eq hzeros.2 (by rwa [Nat.one_shiftLeft])) hvalue

theorem within_motionMagnitude (axis : Axis) :
    (motionMagnitude axis : BinTree ω ℕ).Within (OwnedBy (.motion axis)) (· ≤ maxMotion) := by
  refine (within_symbol (ownedBy_symbol rfl (by decide : 3 < 6))).bind fun _ _ =>
    within_ite (fun _ => ?_) fun _ => (by decide : 1 ≤ maxMotion)
  refine (within_symbol (ownedBy_symbol rfl (by decide : 4 < 6))).bind fun _ _ =>
    within_ite (fun _ => ?_) fun _ => (by decide : 2 ≤ maxMotion)
  refine (within_symbol (ownedBy_symbol rfl (by decide : 5 < 6))).bind fun parity _ => ?_
  refine (within_motionSuffix axis).bind fun suffix hsuffix => ?_
  have hparity := parity.toNat_le
  have hvalue : 3 + parity.toNat + 2 * suffix ≤ maxMotion := by
    rw [maxMotion]
    omega
  exact within_require (sum?_of_lt (Nat.lt_of_le_of_lt hvalue (by decide))) hvalue

theorem within_motionDifference (axis : Axis) (step : ℕ) :
    (motionDifference axis step : BinTree ω ℤ).Within (OwnedBy (.motion axis))
      fun value => value.natAbs ≤ maxMotion := by
  refine (within_symbol (ownedBy_symbol rfl ?_)).bind fun _ _ =>
    within_ite (fun _ => ?_) fun _ => (by decide : (0 : ℤ).natAbs ≤ maxMotion)
  · simp only [Element.size]; omega
  · refine (within_motionMagnitude axis).bind fun magnitude hmagnitude => ?_
    refine (within_bypass trivial).bind fun negative _ => ?_
    refine within_require
      (signed?_of_lt negative (Nat.lt_of_le_of_lt hmagnitude (by decide))) ?_
    rw [natAbs_signed]
    exact hmagnitude

/-- An element that has an axis names its component. -/
theorem motionDifferenceOf_eq {element : Element} {axis : Axis} (h : element.axis? = some axis)
    (step : ℕ) : (motionDifferenceOf element step : BinTree ω ℤ) = motionDifference axis step := by
  simp only [motionDifferenceOf, h]

/-- And one without an axis names none. -/
theorem motionDifferenceOf_eq_fault {element : Element} (h : element.axis? = none) (step : ℕ) :
    (motionDifferenceOf element step : BinTree ω ℤ) = .fault := by
  simp only [motionDifferenceOf, h]

/-- Both components: the contexts of one and of the other. -/
theorem within_motionVector (stepX stepY : ℕ) :
    (motionVector stepX stepY : BinTree ω MotionVector).Within
      (fun request => ∃ axis, request.OwnedBy (.motion axis))
      fun vector => vector.x.natAbs ≤ maxMotion ∧ vector.y.natAbs ≤ maxMotion := by
  refine ((within_motionDifference .x stepX).mono (fun _ h => ⟨.x, h⟩) fun _ h => h).bind
    fun x hx => ?_
  refine ((within_motionDifference .y stepY).mono (fun _ h => ⟨.y, h⟩) fun _ h => h).bind
    fun y hy => ?_
  exact ⟨hx, hy⟩

/-! ## Coded blocks -/

theorem within_lumaBlock (left top : Bool) :
    (lumaBlock left top : BinTree ω Bool).Within (OwnedBy .codedBlocks) fun _ => True := by
  refine within_symbol (ownedBy_symbol rfl ?_)
  revert left top
  decide

theorem within_lumaPattern (left top : Option ℕ) :
    (lumaPattern left top : BinTree ω ℕ).Within (OwnedBy .codedBlocks) (· < 16) := by
  refine (within_lumaBlock _ _).bind fun topLeft _ => (within_lumaBlock _ _).bind fun topRight _ =>
    (within_lumaBlock _ _).bind fun bottomLeft _ => (within_lumaBlock _ _).bind
      fun bottomRight _ => ?_
  rw [within_pure]
  revert topLeft topRight bottomLeft bottomRight
  decide

theorem within_chromaPattern :
    (chromaPattern : BinTree ω ℕ).Within (OwnedBy .codedBlocks) (· < 4) := by
  have hrest : (symbol (Element.codedBlocks.start + 5) : BinTree ω Bool).Within
      (OwnedBy .codedBlocks) fun _ => True :=
    within_symbol (ownedBy_symbol rfl (by decide))
  refine (within_symbol (ownedBy_symbol rfl (by decide))).bind fun _ _ =>
    within_ite (fun _ => ?_) fun _ => (by decide : 0 < 4)
  refine hrest.bind fun _ _ => within_ite (fun _ => (by decide : 3 < 4)) fun _ => ?_
  exact hrest.bind fun _ _ => within_ite (fun _ => (by decide : 2 < 4)) fun _ =>
    (by decide : 1 < 4)

theorem within_extraPattern (format : ChromaFormat) :
    (extraPattern format : BinTree ω ℕ).Within (OwnedBy .codedBlocks) (· < 4) := by
  cases format with
  | yuv420 => exact (by decide : 0 < 4)
  | yuv422 => exact within_bypassBits 2 trivial

/-- A pattern has eight bits. -/
theorem within_codedBlocks (left top : Option ℕ) (format : ChromaFormat) :
    (codedBlocks left top format : BinTree ω ℕ).Within (OwnedBy .codedBlocks) (· ≤ 255) := by
  refine (within_lumaPattern left top).bind fun luma hluma => within_chromaPattern.bind
    fun chroma hchroma => (within_extraPattern format).bind fun extra hextra => ?_
  rw [within_pure]
  omega

/-! ## The quantizer -/

theorem within_quantizerDelta (changed : Bool) :
    (quantizerDelta changed : BinTree ω ℤ).Within (OwnedBy .quantizerDelta)
      fun value => -32 ≤ value ∧ value ≤ 32 := by
  have hchanged := changed.toNat_le
  refine (within_unary (Nat.zero_le _) (by decide) fun count _ _ => ownedBy_symbol rfl ?_).bind
    fun count hcount => ?_
  · simp only [Element.size]
    split
    · omega
    · split <;> omega
  · have hle : count ≤ 64 := hcount.2
    rw [within_pure, alternate]
    split <;> omega

end Macroblock

end AvsEntropy
