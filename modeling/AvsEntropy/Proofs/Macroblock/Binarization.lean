import AvsEntropy.Macroblock.CodedBlocks
import AvsEntropy.Macroblock.Modes
import AvsEntropy.Macroblock.Motion
import AvsEntropy.Proofs.Bin.Codes
import Mathlib.Data.List.Basic

/-!
# The codes of the elements of a macroblock

For every element of a macroblock the bins of each of its values, written
down without any tree or context, and the theorem that the tree of the
element reads exactly these: `codes_x` says that bins are a code of a
value if and only if the value is in range and the bins are its own. So a
value has one code, and what is no code is read as no value.

The numbers in this file are those of the syntax, not the limits of the
readers.
-/

namespace AvsEntropy

namespace Macroblock

open BinTree

variable {ω : Type} {bins : List Bool}

/-! ## Counts -/

/-- A macroblock type. In a B slice the first bin tells zero from the
others. -/
def typeCode : SliceKind → ℕ → List Bool
  | .p, n => unaryCode true n
  | .b, 0 => [false]
  | .b, n + 1 => true :: unaryCode true n

/-- The largest macroblock type of a slice. -/
def typeBound : SliceKind → ℕ
  | .p => 4
  | .b => 23

theorem codes_skipRun {limit n : ℕ} :
    (skipRun limit : BinTree ω ℕ).Codes bins n ↔ n ≤ limit ∧ bins = unaryCode true n := by
  unfold skipRun
  rw [codes_unary (Nat.zero_le limit), Nat.sub_zero]
  exact and_iff_right (Nat.zero_le n)

theorem codes_type {slice : SliceKind} {neighbors : Neighbors} {n : ℕ} :
    (type slice neighbors : BinTree ω ℕ).Codes bins n ↔
      n ≤ typeBound slice ∧ bins = typeCode slice n := by
  cases slice with
  | p =>
    unfold type typeP
    rw [codes_unary (Nat.zero_le _), Nat.sub_zero]
    exact and_iff_right (Nat.zero_le n)
  | b =>
    unfold type
    rw [typeB_eq, codes_symbol_ite]
    simp only [codes_unary (by decide : 1 ≤ maxType .b), codes_pure]
    constructor
    · rintro (⟨_, rfl, hone, hle, rfl⟩ | ⟨_, rfl, rfl, rfl⟩)
      · obtain ⟨n, rfl⟩ := Nat.exists_eq_add_of_le' hone
        exact ⟨hle, rfl⟩
      · exact ⟨by decide, rfl⟩
    · rintro ⟨hle, rfl⟩
      rcases n with _ | n
      · exact .inr ⟨[], rfl, rfl, rfl⟩
      · exact .inl ⟨_, rfl, Nat.succ_pos n, hle, rfl⟩

theorem codes_partitionType {n : ℕ} :
    (partitionType : BinTree ω ℕ).Codes bins n ↔ n ≤ 3 ∧ bins = bitsOf 2 n := by
  have hbits : n ≤ 3 ∧ bins = bitsOf 2 n ↔ bins.length = 2 ∧ appended 0 bins = n := by
    rw [appended_eq_iff_bitsOf]
    exact and_congr_left' (by omega)
  rw [hbits, partitionType]
  simp only [codes_symbol_bind, codes_pure]
  constructor
  · rintro ⟨high, _, rfl, low, _, rfl, rfl, rfl⟩
    exact ⟨rfl, by simp [appended]⟩
  · rintro ⟨hlen, rfl⟩
    obtain ⟨high, low, rfl⟩ := List.length_eq_two.1 hlen
    exact ⟨high, [low], rfl, low, [], rfl, rfl, by simp [appended]⟩

theorem codes_lumaMode {n : ℕ} :
    (lumaMode : BinTree ω ℕ).Codes bins n ↔ n ≤ 4 ∧ bins = truncatedCode true 4 n :=
  codes_truncatedUnary

theorem codes_chromaMode {neighbors : Neighbors} {n : ℕ} :
    (chromaMode neighbors : BinTree ω ℕ).Codes bins n ↔ n ≤ 3 ∧ bins = truncatedCode false 3 n :=
  codes_truncatedUnary

theorem codes_referenceIndex {neighbors : Neighbors} {limit n : ℕ} :
    (referenceIndex neighbors limit : BinTree ω ℕ).Codes bins n ↔
      n ≤ limit ∧ bins = truncatedCode false limit n :=
  codes_truncatedUnary

theorem codes_weighting {flag : Bool} :
    (weighting : BinTree ω Bool).Codes bins flag ↔ bins = [flag] :=
  codes_ask_done

/-! ## The quantizer -/

/-- A change of the quantizer: its place in the order `0, 1, -1, 2, -2, …`,
as so many ones. -/
def quantizerCode (delta : ℤ) : List Bool :=
  unaryCode false (if 0 < delta then 2 * delta - 1 else -2 * delta).toNat

/-- The places of the order are those of the changes. -/
theorem alternate_eq_iff {count : ℕ} {delta : ℤ} :
    delta = alternate count ↔ count = (if 0 < delta then 2 * delta - 1 else -2 * delta).toNat := by
  unfold alternate
  constructor
  · rintro rfl
    split <;> split <;> omega
  · rintro rfl
    split <;> split <;> omega

theorem codes_quantizerDelta {changed : Bool} {delta : ℤ} :
    (quantizerDelta changed : BinTree ω ℤ).Codes bins delta ↔
      (-32 ≤ delta ∧ delta ≤ 32) ∧ bins = quantizerCode delta := by
  unfold quantizerDelta
  rw [codes_bind]
  simp only [codes_unary (Nat.zero_le maxQuantizerCount), codes_pure, alternate_eq_iff]
  constructor
  · rintro ⟨_, _, count, rfl, ⟨-, hle, rfl⟩, rfl, rfl⟩
    refine ⟨?_, List.append_nil _⟩
    rw [maxQuantizerCount] at hle
    split at hle <;> omega
  · rintro ⟨hdelta, rfl⟩
    refine ⟨_, [], (if 0 < delta then 2 * delta - 1 else -2 * delta).toNat,
      (List.append_nil _).symm, ⟨Nat.zero_le _, ?_, rfl⟩, rfl, rfl⟩
    rw [maxQuantizerCount]
    split <;> omega

/-! ## Motion vector differences -/

/-- An Exp-Golomb code: as many zeros as its number, plus one, has bits
below the leading one, then that number. -/
def golombCode (n : ℕ) : List Bool :=
  let zeros := (n + 1).log2
  List.replicate zeros false ++ [true] ++ bitsOf zeros (n + 1 - 2 ^ zeros)

/-- A magnitude that is not zero. From three on, its parity and half of
what it has over three. -/
def magnitudeCode : ℕ → List Bool
  | 0 => []
  | 1 => [false]
  | 2 => [true, false]
  | m + 3 => [true, true, m % 2 = 1] ++ golombCode (m / 2)

/-- A component of a motion vector difference. -/
def motionCode (d : ℤ) : List Bool :=
  if d = 0 then [false] else [true] ++ magnitudeCode d.natAbs ++ [decide (d < 0)]

/-- **A suffix of the motion vector code** counts the bits below the leading
one of its number, plus one. -/
theorem codes_motionSuffix {axis : Axis} {n : ℕ} :
    (motionSuffix axis : BinTree ω ℕ).Codes bins n ↔ n ≤ 131070 ∧ bins = golombCode n := by
  unfold motionSuffix
  rw [codes_bind]
  simp only [codes_unary (Nat.zero_le maxMotionZeros)]
  constructor
  · rintro ⟨_, _, zeros, rfl, ⟨-, hzeros, rfl⟩, h⟩
    have hle : zeros ≤ 16 := hzeros
    rw [codes_bind] at h
    simp only [codes_bypassBits (by omega : zeros ≤ 32), codes_require] at h
    obtain ⟨_, _, low, rfl, ⟨hlow, rfl⟩, rfl, hvalue⟩ := h
    have hpow : 2 ^ zeros ≤ 2 ^ 16 := Nat.pow_le_pow_right (by decide) hle
    rw [suffixValue?_eq hle (by rwa [Nat.one_shiftLeft])] at hvalue
    obtain rfl := Option.some.inj hvalue
    -- the number with its leading one back
    have hsum : 1 <<< zeros - 1 + low + 1 = 2 ^ zeros + low := by
      have := Nat.two_pow_pos zeros
      rw [Nat.one_shiftLeft]
      omega
    have hlog : (2 ^ zeros + low).log2 = zeros := by
      rw [Nat.log2_eq_iff (by have := Nat.two_pow_pos zeros; omega), pow_succ]
      omega
    refine ⟨by omega, ?_⟩
    simp only [golombCode, hsum, hlog, Nat.add_sub_cancel_left, Nat.sub_zero, unaryCode,
      Bool.not_true, List.append_nil]
  · rintro ⟨hle, rfl⟩
    have hne : n + 1 ≠ 0 := Nat.succ_ne_zero n
    have hlow : 2 ^ (n + 1).log2 ≤ n + 1 := Nat.log2_self_le hne
    have hhigh : n + 1 < 2 ^ ((n + 1).log2 + 1) := Nat.lt_log2_self
    have hzeros : (n + 1).log2 ≤ 16 := by
      have := (Nat.log2_lt hne).2 (by omega : n + 1 < 2 ^ 17)
      omega
    rw [pow_succ] at hhigh
    refine ⟨_, _, (n + 1).log2, rfl, ⟨Nat.zero_le _, hzeros, rfl⟩, ?_⟩
    rw [codes_bind]
    simp only [codes_bypassBits (by omega : (n + 1).log2 ≤ 32), codes_require]
    refine ⟨_, [], _, (List.append_nil _).symm, ⟨by omega, rfl⟩, rfl, ?_⟩
    have hvalue : 1 <<< (n + 1).log2 - 1 + (n + 1 - 2 ^ (n + 1).log2) = n := by
      rw [Nat.one_shiftLeft]
      omega
    rw [suffixValue?_eq hzeros (by rw [Nat.one_shiftLeft]; omega), hvalue]

/-- From three on: the parity, and the suffix. -/
theorem codes_parity_suffix {axis : Axis} {context m : ℕ} :
    (symbol context >>= fun parity => motionSuffix axis >>= fun suffix =>
        (require (sum? wordBound (3 + parity.toNat) (2 * suffix)) : BinTree ω ℕ)).Codes bins m ↔
      (3 ≤ m ∧ m ≤ 262144) ∧ bins = decide ((m - 3) % 2 = 1) :: golombCode ((m - 3) / 2) := by
  rw [codes_symbol_bind]
  simp only [codes_bind, codes_motionSuffix, codes_require, sum?_eq_some]
  constructor
  · rintro ⟨parity, _, rfl, _, _, suffix, rfl, ⟨hle, rfl⟩, rfl, -, rfl⟩
    have hparity := Bool.toNat_le parity
    have hodd : decide ((3 + parity.toNat + 2 * suffix - 3) % 2 = 1) = parity := by
      cases parity with
      | false => exact decide_eq_false (by rw [Bool.toNat_false]; omega)
      | true => exact decide_eq_true (by rw [Bool.toNat_true]; omega)
    have hhalf : (3 + parity.toNat + 2 * suffix - 3) / 2 = suffix := by omega
    refine ⟨by omega, ?_⟩
    rw [hodd, hhalf, List.append_nil]
  · rintro ⟨⟨hthree, hmax⟩, rfl⟩
    have hsum : 3 + (decide ((m - 3) % 2 = 1)).toNat + 2 * ((m - 3) / 2) = m := by
      rcases Nat.mod_two_eq_zero_or_one (m - 3) with h | h
      · rw [h, decide_eq_false (by decide), Bool.toNat_false]
        omega
      · rw [h, decide_eq_true rfl, Bool.toNat_true]
        omega
    refine ⟨_, _, rfl, _, [], (m - 3) / 2, (List.append_nil _).symm, ⟨by omega, rfl⟩, rfl, ?_, hsum⟩
    rw [hsum]
    exact Nat.lt_of_le_of_lt hmax (by decide)

theorem codes_motionMagnitude {axis : Axis} {m : ℕ} :
    (motionMagnitude axis : BinTree ω ℕ).Codes bins m ↔
      (1 ≤ m ∧ m ≤ 262144) ∧ bins = magnitudeCode m := by
  unfold motionMagnitude
  rw [codes_symbol_ite]
  simp only [codes_symbol_ite, codes_parity_suffix, codes_pure]
  constructor
  · rintro (⟨_, rfl, ⟨_, rfl, ⟨hthree, hmax⟩, rfl⟩ | ⟨_, rfl, rfl, rfl⟩⟩ | ⟨_, rfl, rfl, rfl⟩)
    · obtain ⟨m, rfl⟩ := Nat.exists_eq_add_of_le' hthree
      exact ⟨⟨by omega, hmax⟩, rfl⟩
    · exact ⟨⟨by decide, by decide⟩, rfl⟩
    · exact ⟨⟨by decide, by decide⟩, rfl⟩
  · rintro ⟨⟨hone, hmax⟩, rfl⟩
    rcases m with _ | _ | _ | m
    · omega
    · exact .inr ⟨[], rfl, rfl, rfl⟩
    · exact .inl ⟨[false], rfl, .inr ⟨[], rfl, rfl, rfl⟩⟩
    · exact .inl ⟨_, rfl, .inl ⟨_, rfl, ⟨by omega, hmax⟩, rfl⟩⟩

/-- **A component of a motion vector difference**: zero is one bin, and
everything else a magnitude and a sign. -/
theorem codes_motionDifference {axis : Axis} {step : ℕ} {d : ℤ} :
    (motionDifference axis step : BinTree ω ℤ).Codes bins d ↔
      d.natAbs ≤ 262144 ∧ bins = motionCode d := by
  unfold motionDifference
  rw [codes_symbol_ite]
  simp only [codes_bind, codes_motionMagnitude, bypass, codes_ask_done, codes_pure, codes_require,
    signed?_eq_some]
  constructor
  · rintro (⟨_, rfl, _, _, m, rfl, ⟨⟨hone, hmax⟩, rfl⟩, _, _, negative, rfl, rfl, rfl, -, rfl⟩ |
      ⟨_, rfl, rfl, rfl⟩)
    · have habs := natAbs_signed negative m
      have hne : (if negative = true then -(m : ℤ) else m) ≠ 0 := by
        intro h
        rw [h] at habs
        exact absurd habs (by omega)
      refine ⟨by rwa [habs], ?_⟩
      unfold motionCode
      rw [if_neg hne, habs, decide_signed_lt_zero negative hone]
      rfl
    · exact ⟨by decide, rfl⟩
  · rintro ⟨hmax, rfl⟩
    unfold motionCode
    by_cases hd : d = 0
    · rw [if_pos hd]
      exact .inr ⟨[], rfl, rfl, hd⟩
    · rw [if_neg hd]
      exact .inl ⟨_, rfl, _, _, d.natAbs, rfl, ⟨⟨by omega, hmax⟩, rfl⟩, [_], [], decide (d < 0),
        rfl, rfl, rfl, Nat.lt_of_le_of_lt hmax (by decide), signed_natAbs d⟩

theorem codes_motionVector {stepX stepY : ℕ} {v : MotionVector} :
    (motionVector stepX stepY : BinTree ω MotionVector).Codes bins v ↔
      (v.x.natAbs ≤ 262144 ∧ v.y.natAbs ≤ 262144) ∧ bins = motionCode v.x ++ motionCode v.y := by
  unfold motionVector
  rw [codes_bind]
  simp only [codes_bind, codes_motionDifference, codes_pure]
  constructor
  · rintro ⟨_, _, x, rfl, ⟨hx, rfl⟩, _, _, y, rfl, ⟨hy, rfl⟩, rfl, rfl⟩
    exact ⟨⟨hx, hy⟩, by rw [List.append_nil]⟩
  · rintro ⟨⟨hx, hy⟩, rfl⟩
    exact ⟨_, _, v.x, rfl, ⟨hx, rfl⟩, _, [], v.y, (List.append_nil _).symm, ⟨hy, rfl⟩, rfl, rfl⟩

/-! ## Coded blocks -/

/-- The luma blocks, in order. -/
def lumaCode (n : ℕ) : List Bool := [n.testBit 0, n.testBit 1, n.testBit 2, n.testBit 3]

/-- The chroma blocks: none, both, or which one. -/
def chromaCode : ℕ → List Bool
  | 0 => [false]
  | 1 => [true, false, false]
  | 2 => [true, false, true]
  | _ => [true, true]

/-- The chroma blocks of the larger format alone. -/
def extraCode : ChromaFormat → ℕ → List Bool
  | .yuv420, _ => []
  | .yuv422, n => bitsOf 2 n

/-- The number of bits of a pattern. -/
def patternBits : ChromaFormat → ℕ
  | .yuv420 => 6
  | .yuv422 => 8

/-- A pattern of coded blocks. -/
def codedBlocksCode (format : ChromaFormat) (n : ℕ) : List Bool :=
  lumaCode (n % 16) ++ chromaCode (n / 16 % 4) ++ extraCode format (n / 64)

theorem codes_lumaPattern {left top : Option ℕ} {n : ℕ} :
    (lumaPattern left top : BinTree ω ℕ).Codes bins n ↔ n < 16 ∧ bins = lumaCode n := by
  simp only [lumaPattern, lumaBlock, codes_symbol_bind, codes_pure]
  constructor
  · rintro ⟨b₀, _, rfl, b₁, _, rfl, b₂, _, rfl, b₃, _, rfl, rfl, rfl⟩
    revert b₀ b₁ b₂ b₃
    decide
  · rintro ⟨hn, rfl⟩
    refine ⟨_, _, rfl, _, _, rfl, _, _, rfl, _, [], rfl, rfl, ?_⟩
    revert n
    decide

theorem codes_chromaPattern {n : ℕ} :
    (chromaPattern : BinTree ω ℕ).Codes bins n ↔ n < 4 ∧ bins = chromaCode n := by
  unfold chromaPattern
  rw [codes_symbol_ite]
  simp only [codes_symbol_ite, codes_pure]
  constructor
  · rintro (⟨_, rfl, ⟨_, rfl, rfl, rfl⟩ | ⟨_, rfl, ⟨_, rfl, rfl, rfl⟩ | ⟨_, rfl, rfl, rfl⟩⟩⟩ |
      ⟨_, rfl, rfl, rfl⟩) <;> exact ⟨by decide, rfl⟩
  · rintro ⟨hn, rfl⟩
    rcases n with _ | _ | _ | _ | n
    · exact .inr ⟨[], rfl, rfl, rfl⟩
    · exact .inl ⟨_, rfl, .inr ⟨_, rfl, .inr ⟨[], rfl, rfl, rfl⟩⟩⟩
    · exact .inl ⟨_, rfl, .inr ⟨_, rfl, .inl ⟨[], rfl, rfl, rfl⟩⟩⟩
    · exact .inl ⟨_, rfl, .inl ⟨[], rfl, rfl, rfl⟩⟩
    · omega

theorem codes_extraPattern {format : ChromaFormat} {n : ℕ} :
    (extraPattern format : BinTree ω ℕ).Codes bins n ↔
      64 * n < 2 ^ patternBits format ∧ bins = extraCode format n := by
  cases format with
  | yuv420 =>
    unfold extraPattern
    rw [codes_pure, and_comm]
    exact and_congr_left' (by rw [patternBits]; omega)
  | yuv422 =>
    unfold extraPattern
    rw [codes_bypassBits (by decide)]
    exact and_congr_left' (by rw [patternBits]; omega)

/-- **A pattern is its luma blocks, its chroma blocks and those that only
the larger format has**, in this order. -/
theorem codes_codedBlocks {left top : Option ℕ} {format : ChromaFormat} {n : ℕ} :
    (codedBlocks left top format : BinTree ω ℕ).Codes bins n ↔
      n < 2 ^ patternBits format ∧ bins = codedBlocksCode format n := by
  unfold codedBlocks
  rw [codes_bind]
  simp only [codes_lumaPattern, codes_bind, codes_chromaPattern, codes_extraPattern, codes_pure]
  have hdvd : 64 ∣ 2 ^ patternBits format := by cases format <;> decide
  constructor
  · rintro ⟨_, _, luma, rfl, ⟨hluma, rfl⟩, _, _, chroma, rfl, ⟨hchroma, rfl⟩, _, _, extra, rfl,
      ⟨hextra, rfl⟩, rfl, rfl⟩
    refine ⟨by omega, ?_⟩
    -- the number holds its three parts, one above the other
    rw [codedBlocksCode, show (luma + 16 * chroma + 64 * extra) % 16 = luma by omega,
      show (luma + 16 * chroma + 64 * extra) / 16 % 4 = chroma by omega,
      show (luma + 16 * chroma + 64 * extra) / 64 = extra by omega, List.append_nil,
      List.append_assoc]
  · rintro ⟨hn, rfl⟩
    refine ⟨_, _, n % 16, List.append_assoc .., ⟨by omega, rfl⟩, _, _, n / 16 % 4, rfl,
      ⟨by omega, rfl⟩, _, [], n / 64, (List.append_nil _).symm, ⟨by omega, rfl⟩, rfl, by omega⟩

end Macroblock

end AvsEntropy
