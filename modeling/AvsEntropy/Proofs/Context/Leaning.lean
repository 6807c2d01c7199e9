import AvsEntropy.Proofs.Context.Bounds
import Mathlib.Algebra.Order.Group.Abs
import Mathlib.Algebra.Order.Group.Int

/-!
# The scale of predictions

A prediction is a symbol and how unsure it is of it. Both together are one
place on a scale that has a symbol at either end and even odds in the middle
(`leaning`). Nothing is special about the middle there: a context that turns
around has only gone on past it.

Two contexts predict together what lies halfway between them
(`blend_halfway`). The rule has three branches because the scale is folded in
the middle, and each branch rounds in its own way, but none is off by more
than half a step. Which of the two contexts is asked first matters in one case
alone: if they are equally unsure of different symbols.
-/

namespace AvsEntropy

/-- How far a prediction is from the end of the scale that stands for a
symbol. -/
def distanceFrom (bin : Bool) (prediction : Bool × ℕ) : ℕ :=
  if prediction.1 = bin then prediction.2 else 2 * maxProbability + 1 - prediction.2

/-- Where a prediction stands on the scale, counted from the end of the
symbol `0`. -/
def leaning (prediction : Bool × ℕ) : ℕ := distanceFrom false prediction

section Scale

variable {bin favored : Bool} {prediction : Bool × ℕ} {near far : ℕ}

theorem distanceFrom_self (favored : Bool) (probability : ℕ) :
    distanceFrom favored (favored, probability) = probability := if_pos rfl

theorem distanceFrom_of_ne (h : favored ≠ bin) (probability : ℕ) :
    distanceFrom bin (favored, probability) = 2 * maxProbability + 1 - probability := if_neg h

/-- The two ends are a whole scale apart. -/
theorem distanceFrom_true_add (h : prediction.2 ≤ maxProbability) :
    distanceFrom true prediction + leaning prediction = 2 * maxProbability + 1 := by
  obtain ⟨favored, probability⟩ := prediction
  dsimp only at h
  cases favored
  · rw [leaning, distanceFrom_self, distanceFrom_of_ne Bool.noConfusion]
    omega
  · rw [leaning, distanceFrom_self, distanceFrom_of_ne Bool.noConfusion]
    omega

/-- A symbol is predicted on its own half of the scale. -/
theorem distanceFrom_le_iff (h : prediction.2 ≤ maxProbability) :
    distanceFrom bin prediction ≤ maxProbability ↔ prediction.1 = bin := by
  rw [distanceFrom]
  by_cases hown : prediction.1 = bin
  · rw [if_pos hown]
    exact iff_of_true h hown
  · rw [if_neg hown]
    exact iff_of_false (by omega) hown

/-- On one half of the scale the mean of two places is the mean of their
probability states. -/
theorem halfway_same (bin favored : Bool) (hnear : near ≤ maxProbability)
    (hfar : far ≤ maxProbability) :
    |2 * (distanceFrom bin (favored, (near + far) / 2) : ℤ) -
      (distanceFrom bin (favored, near) + distanceFrom bin (favored, far))| ≤ 1 := by
  rw [abs_le]
  by_cases h : favored = bin
  · subst h
    simp only [distanceFrom_self]
    omega
  · simp only [distanceFrom_of_ne h]
    omega

/-- Of two places on either side of the middle, the mean is on the side of
the one that is further out, by half of what it is further out. -/
theorem halfway_opposite (bin favored : Bool) (hle : near ≤ far) (hfar : far ≤ maxProbability) :
    |2 * (distanceFrom bin (favored, maxProbability - (far - near) / 2) : ℤ) -
      (distanceFrom bin (favored, near) + distanceFrom bin (!favored, far))| ≤ 1 := by
  rw [abs_le]
  by_cases h : favored = bin
  · subst h
    simp only [distanceFrom_self, distanceFrom_of_ne (Bool.not_ne_self favored)]
    omega
  · obtain rfl : bin = !favored := Bool.eq_not_of_ne (Ne.symm h)
    simp only [distanceFrom_self, distanceFrom_of_ne h]
    omega

end Scale

namespace Context

variable {a b : Context}

/-- What a context predicts. -/
def prediction (c : Context) : Bool × ℕ := (c.favored, c.probability)

/-! ## What two contexts predict together -/

theorem blend_of_eq (h : a.favored = b.favored) :
    a.blend b = (a.favored, (a.probability + b.probability) / 2) := if_pos h

theorem blend_of_lt (hne : a.favored ≠ b.favored) (hlt : a.probability < b.probability) :
    a.blend b = (a.favored, maxProbability - (b.probability - a.probability) / 2) := by
  rw [blend, if_neg hne, if_pos hlt]

theorem blend_of_ge (hne : a.favored ≠ b.favored) (hle : b.probability ≤ a.probability) :
    a.blend b = (b.favored, maxProbability - (a.probability - b.probability) / 2) := by
  rw [blend, if_neg hne, if_neg (not_lt_of_ge hle)]

/-- Between two contexts that are equally unsure of different symbols the
odds are even, and the second has the say. -/
theorem blend_of_tie (hne : a.favored ≠ b.favored) (heq : a.probability = b.probability) :
    a.blend b = (b.favored, maxProbability) := by
  rw [blend_of_ge hne heq.ge, heq, Nat.sub_self, Nat.zero_div, Nat.sub_zero]

/-- **The order of two contexts makes no difference** but at a tie. -/
theorem blend_comm_iff :
    b.blend a = a.blend b ↔ ¬ (a.favored ≠ b.favored ∧ a.probability = b.probability) := by
  constructor
  · rintro hcomm ⟨hne, heq⟩
    rw [blend_of_tie hne heq, blend_of_tie hne.symm heq.symm] at hcomm
    exact hne (congrArg Prod.fst hcomm)
  · intro h
    by_cases hfavored : a.favored = b.favored
    · rw [blend_of_eq hfavored, blend_of_eq hfavored.symm, hfavored, Nat.add_comm]
    · rcases lt_trichotomy a.probability b.probability with hlt | heq | hlt
      · rw [blend_of_lt hfavored hlt, blend_of_ge (Ne.symm hfavored) hlt.le]
      · exact absurd ⟨hfavored, heq⟩ h
      · rw [blend_of_ge hfavored hlt.le, blend_of_lt (Ne.symm hfavored) hlt]

/-- **Two contexts predict what lies halfway between them**, seen from
either end of the scale. -/
theorem distanceFrom_blend (ha : a.probability ≤ maxProbability)
    (hb : b.probability ≤ maxProbability) (bin : Bool) :
    |2 * (distanceFrom bin (a.blend b) : ℤ) -
      (distanceFrom bin a.prediction + distanceFrom bin b.prediction)| ≤ 1 := by
  unfold prediction
  by_cases hfavored : a.favored = b.favored
  · rw [blend_of_eq hfavored, ← hfavored]
    exact halfway_same bin a.favored ha hb
  · rcases Nat.lt_or_ge a.probability b.probability with hlt | hle
    · rw [blend_of_lt hfavored hlt, Bool.eq_not_of_ne (Ne.symm hfavored)]
      exact halfway_opposite bin a.favored hlt.le hb
    · rw [blend_of_ge hfavored hle, Bool.eq_not_of_ne hfavored, add_comm (distanceFrom bin _ : ℤ)]
      exact halfway_opposite bin b.favored hle ha

/-- **Weighting two contexts is averaging on the scale.** The prediction is
within half a step of the mean, no surer than the surer of the two and no less
sure than even odds, and on the side of the surer one if they disagree. The
order of the two makes a difference only where they are equally unsure of
different symbols: there the second decides the symbol, at even odds. -/
theorem blend_halfway (ha : a.probability ≤ maxProbability)
    (hb : b.probability ≤ maxProbability) :
    a.blend? b = some (a.blend b) ∧
    |2 * (leaning (a.blend b) : ℤ) - (leaning a.prediction + leaning b.prediction)| ≤ 1 ∧
    (min a.probability b.probability ≤ (a.blend b).2 ∧ (a.blend b).2 ≤ maxProbability) ∧
    (a.favored ≠ b.favored →
      (a.probability < b.probability → (a.blend b).1 = a.favored) ∧
      (b.probability < a.probability → (a.blend b).1 = b.favored)) ∧
    (b.blend a = a.blend b ↔ ¬ (a.favored ≠ b.favored ∧ a.probability = b.probability)) ∧
    (a.favored ≠ b.favored → a.probability = b.probability →
      a.blend b = (b.favored, maxProbability)) := by
  refine ⟨blend?_of_le ha hb, distanceFrom_blend ha hb false, blend_bounds ha hb,
    fun hne => ⟨fun hlt => ?_, fun hlt => ?_⟩, blend_comm_iff, blend_of_tie⟩
  · rw [blend_of_lt hne hlt]
  · rw [blend_of_ge hne hlt.le]

/-- Two contexts that are equally unsure of different symbols. The mean falls
between two steps. -/
theorem blend_halfway_tie :
    let a : Context := ⟨false, 1, 500⟩
    let b : Context := ⟨true, 3, 500⟩
    a.blend? b = some (true, 1023) ∧ b.blend? a = some (false, 1023) ∧
      leaning a.prediction + leaning b.prediction = 2047 ∧ leaning (a.blend b) = 1024 := by
  intro a b
  have ha : a.probability ≤ maxProbability := by decide
  have hb : b.probability ≤ maxProbability := by decide
  obtain ⟨hsome, -, -, -, -, htie⟩ := blend_halfway ha hb
  obtain ⟨hsome', -, -, -, -, htie'⟩ := blend_halfway hb ha
  have hblend := htie (by decide) rfl
  refine ⟨hsome.trans (congrArg some hblend),
    hsome'.trans (congrArg some (htie' (by decide) rfl)), by decide, ?_⟩
  rw [hblend]
  decide

end Context

end AvsEntropy
