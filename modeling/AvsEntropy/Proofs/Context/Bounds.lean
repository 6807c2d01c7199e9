import AvsEntropy.Context.Table
import Mathlib.Tactic.Ring

/-!
# The bounds of contexts

`Context.adapt` and `Context.blend` are what the checked steps come to where
no check fails. A context in range adapts to every symbol, and any two of them
predict something together (`Valid.adapt?_eq`, `blend?_of_le`).

A context never gets surer than a probability state of seven: below
eight an agreeing symbol takes nothing off any more. With the bounds that
`Context.Valid` states, seven is what makes every prediction, of one
context or of two, a probability state that a decision can have.

`ContextTable.Sound` is the same of a whole table. A sound table can be
trained at every index, and stays sound.
-/

namespace AvsEntropy

namespace Context

/-! ## The rule -/

/-- What a disagreeing symbol adds to the probability state. -/
def gain (c : Context) : ℕ :=
  if c.cycle ≤ 1 then 197 else if c.cycle = 2 then 95 else 46

/-- The context after a symbol that agrees with it. -/
def agree (c : Context) : Context :=
  { c with
    cycle := max c.cycle 1
    probability := c.probability - c.probability >>> c.rate - c.probability >>> (c.rate + 2) }

/-- The context after a symbol that disagrees with it. -/
def disagree (c : Context) : Context :=
  let cycle := min (c.cycle + 1) maxCycle
  let raised := c.probability + c.gain
  if maxProbability < raised then ⟨!c.favored, cycle, 2 * maxProbability + 1 - raised⟩
  else ⟨c.favored, cycle, raised⟩

/-- The context after a symbol. -/
def adapt (c : Context) (bin : Bool) : Context :=
  if bin = c.favored then c.agree else c.disagree

/-- The prediction of two contexts together, and its probability state. -/
def blend (a b : Context) : Bool × ℕ :=
  if a.favored = b.favored then (a.favored, (a.probability + b.probability) / 2)
  else if a.probability < b.probability then
    (a.favored, maxProbability - (b.probability - a.probability) / 2)
  else (b.favored, maxProbability - (a.probability - b.probability) / 2)

/-! ## Contexts as adaptation leaves them -/

/-- The smallest probability state that a context reaches. -/
def surest : ℕ := 7

/-- A context as adaptation leaves it. -/
structure Sound (c : Context) : Prop where
  surest_le : surest ≤ c.probability
  probability_le : c.probability ≤ maxProbability
  cycle_le : c.cycle ≤ maxCycle

theorem sound_fresh : fresh.Sound := ⟨by decide, by decide, by decide⟩

variable {a b c : Context}

theorem Sound.valid (h : c.Sound) : c.Valid := ⟨h.cycle_le, h.probability_le⟩

/-- The rates at which contexts learn, each with what a disagreeing
symbol adds at it. -/
theorem rate_gain_cases (c : Context) :
    c.rate = 3 ∧ c.gain = 197 ∨ c.rate = 4 ∧ c.gain = 95 ∨ c.rate = 5 ∧ c.gain = 46 := by
  unfold rate gain
  split
  · exact .inl ⟨rfl, rfl⟩
  · split
    · exact .inr (.inl ⟨rfl, rfl⟩)
    · exact .inr (.inr ⟨rfl, rfl⟩)

/-- The gain of a context is in the table, at its rate. -/
theorem gains_rate (c : Context) : gains[c.rate]? = some c.gain := by
  rcases c.rate_gain_cases with ⟨hrate, hgain⟩ | ⟨hrate, hgain⟩ | ⟨hrate, hgain⟩ <;>
    rw [hrate, hgain] <;> rfl

/-- The fastest rate gains most. A step of it from even odds does not get past
the other end of the scale. -/
theorem gain_le (c : Context) : c.gain ≤ 197 := by
  rcases c.rate_gain_cases with ⟨-, h⟩ | ⟨-, h⟩ | ⟨-, h⟩ <;> rw [h] <;> decide

/-- The slowest rate gains least. -/
theorem le_gain (c : Context) : 46 ≤ c.gain := by
  rcases c.rate_gain_cases with ⟨-, h⟩ | ⟨-, h⟩ | ⟨-, h⟩ <;> rw [h] <;> decide

/-- Where the rates cut off: what is below, they leave alone. -/
theorem cut_bounds (c : Context) : 8 ≤ 2 ^ c.rate ∧ 2 ^ c.rate ≤ 32 := by
  rcases c.rate_gain_cases with ⟨h, -⟩ | ⟨h, -⟩ | ⟨h, -⟩ <;> rw [h] <;> decide

/-- **What an agreeing symbol takes off**: nothing below the cut, and something
above it, though never more than to the last state below. -/
theorem agree_cases (c : Context) :
    c.probability < 2 ^ c.rate ∧ c.agree.probability = c.probability ∨
      2 ^ c.rate ≤ c.probability ∧ c.agree.probability < c.probability ∧
        2 ^ c.rate ≤ c.agree.probability + 1 := by
  have hagree : c.agree.probability =
      c.probability - c.probability >>> c.rate - c.probability >>> (c.rate + 2) := rfl
  rw [hagree]
  rcases c.rate_gain_cases with ⟨h, -⟩ | ⟨h, -⟩ | ⟨h, -⟩ <;> rw [h] <;>
    simp only [Nat.shiftRight_eq_div_pow] <;> omega

theorem probability_agree_le (c : Context) : c.agree.probability ≤ c.probability := by
  rcases c.agree_cases with ⟨-, h⟩ | ⟨-, h, -⟩
  · exact h.le
  · exact h.le

/-! ## The checks -/

/-- What an agreeing symbol takes off is there. -/
theorem agree?_eq (c : Context) : c.agree? = some c.agree := by
  have honce : c.probability >>> c.rate ≤ c.probability := by
    rw [Nat.shiftRight_eq_div_pow]
    exact Nat.div_le_self _ _
  have htwice : c.probability >>> (c.rate + 2) ≤ c.probability - c.probability >>> c.rate := by
    rcases c.rate_gain_cases with ⟨h, -⟩ | ⟨h, -⟩ | ⟨h, -⟩ <;> rw [h] <;>
      simp only [Nat.shiftRight_eq_div_pow] <;> omega
  rw [agree?, difference?_of_le honce, Option.bind_eq_bind, Option.bind_some,
    difference?_of_le htwice]
  rfl

/-- A disagreeing symbol raises a context as the rule says, if it does. -/
theorem eq_disagree_of_disagree? (h : c.disagree? = some a) : a = c.disagree := by
  obtain ⟨cycle, hcycle, h⟩ := Option.bind_eq_some_iff.1 h
  obtain ⟨gain, hgain, h⟩ := Option.bind_eq_some_iff.1 h
  obtain ⟨raised, hraised, h⟩ := Option.bind_eq_some_iff.1 h
  obtain ⟨-, rfl⟩ := sum?_eq_some.1 hcycle
  obtain rfl : c.gain = gain := Option.some.inj (c.gains_rate.symm.trans hgain)
  obtain ⟨-, rfl⟩ := sum?_eq_some.1 hraised
  unfold disagree
  split at h
  · rename_i hturns
    obtain ⟨reflected, hreflected, h⟩ := Option.bind_eq_some_iff.1 h
    obtain ⟨-, rfl⟩ := difference?_eq_some.1 hreflected
    simp only [if_pos hturns]
    exact (Option.some.inj h).symm
  · rename_i hstays
    simp only [if_neg hstays]
    exact (Option.some.inj h).symm

/-- It does where the fields stay inside their words, and a context that
turns around stays on the scale. -/
theorem disagree?_eq (hcycle : c.cycle + 1 < byteBound)
    (hraised : c.probability + c.gain ≤ 2 * maxProbability + 1) :
    c.disagree? = some c.disagree := by
  have hword : c.probability + c.gain < halfBound := lt_of_le_of_lt hraised (by decide)
  rw [disagree?, disagree, sum?_of_lt hcycle, gains_rate]
  simp only [Option.bind_eq_bind, Option.bind_some, sum?_of_lt hword, difference?_of_le hraised]
  split
  · rfl
  · rfl

/-- **A checked step is a step of the rule**, whatever the context. -/
theorem eq_adapt_of_adapt? {bin : Bool} (h : c.adapt? bin = some a) : a = c.adapt bin := by
  obtain ⟨after, hafter, h⟩ := Option.bind_eq_some_iff.1 h
  obtain rfl := Option.some.inj (Option.ite_none_right_eq_some.1 h).2
  unfold adapt
  split at hafter
  · rename_i hagrees
    rw [if_pos hagrees]
    exact Option.some.inj (hafter.symm.trans c.agree?_eq)
  · rename_i hdisagrees
    rw [if_neg hdisagrees]
    exact eq_disagree_of_disagree? hafter

/-! ## Contexts in range -/

theorem Valid.agree (h : c.Valid) : c.agree.Valid :=
  ⟨max_le h.1 (by decide), le_trans c.probability_agree_le h.2⟩

/-- A disagreeing symbol turns a context around at even odds. -/
theorem valid_disagree (c : Context) : c.disagree.Valid := by
  have hcycle : min (c.cycle + 1) maxCycle ≤ maxCycle := min_le_right _ _
  simp only [Context.disagree]
  split
  · exact ⟨hcycle, by dsimp only; omega⟩
  · exact ⟨hcycle, by dsimp only; omega⟩

/-- **Adaptation stays in range.** -/
theorem Valid.adapt (h : c.Valid) (bin : Bool) : (c.adapt bin).Valid := by
  unfold Context.adapt
  split
  · exact h.agree
  · exact c.valid_disagree

/-- **A context in range adapts to every symbol**, and no check fails. -/
theorem Valid.adapt?_eq (h : c.Valid) (bin : Bool) : c.adapt? bin = some (c.adapt bin) := by
  have hcycle : c.cycle + 1 < byteBound := lt_of_le_of_lt (Nat.succ_le_succ h.1) (by decide)
  have hraised : c.probability + c.gain ≤ 2 * maxProbability + 1 := by
    have hhigh := h.2
    have hgain := c.gain_le
    rw [maxProbability] at hhigh ⊢
    omega
  have hstep : (if bin = c.favored then c.agree? else c.disagree?) = some (c.adapt bin) := by
    rw [agree?_eq, disagree?_eq hcycle hraised, ← apply_ite some]
    rfl
  rw [adapt?, hstep, Option.bind_eq_bind, Option.bind_some, if_pos (h.adapt bin)]
  rfl

/-- **Two contexts in range predict something together.** Of two that disagree
the surer one is never further out than the other, so the distance between them
is there, and half of it is on the scale. -/
theorem blend?_of_le (ha : a.probability ≤ maxProbability) (hb : b.probability ≤ maxProbability) :
    a.blend? b = some (a.blend b) := by
  unfold blend? blend
  split
  · rfl
  · split
    · rename_i hlt
      have hhalf : (b.probability - a.probability) / 2 ≤ maxProbability := by omega
      rw [difference?_of_le hlt.le, Option.bind_eq_bind, Option.bind_some, difference?_of_le hhalf]
      rfl
    · rename_i hge
      have hhalf : (a.probability - b.probability) / 2 ≤ maxProbability := by omega
      rw [difference?_of_le (not_lt.1 hge), Option.bind_eq_bind, Option.bind_some,
        difference?_of_le hhalf]
      rfl

/-- **What two contexts predict together is on the scale**, and no surer
than the surer of the two. -/
theorem blend_bounds (ha : a.probability ≤ maxProbability) (hb : b.probability ≤ maxProbability) :
    min a.probability b.probability ≤ (a.blend b).2 ∧ (a.blend b).2 ≤ maxProbability := by
  unfold blend
  split
  · dsimp only; omega
  · split <;> dsimp only <;> omega

/-! ## Contexts that have adapted -/

/-- **An agreeing symbol stops at the surest state.** -/
theorem Sound.agree (h : c.Sound) : c.agree.Sound := by
  have hlow := h.surest_le
  have hcut := c.cut_bounds.1
  rw [surest] at hlow
  refine ⟨?_, h.valid.agree.2, h.valid.agree.1⟩
  rw [surest]
  rcases c.agree_cases with ⟨-, hsame⟩ | ⟨-, -, hlast⟩
  · rw [hsame]
    exact hlow
  · omega

/-- A disagreeing symbol only makes a context less sure, or turns it
around at even odds. -/
theorem Sound.disagree (h : c.Sound) : c.disagree.Sound := by
  refine ⟨?_, c.valid_disagree.2, c.valid_disagree.1⟩
  obtain ⟨hlow, hhigh, -⟩ := h
  have hgain := c.gain_le
  have hmax : maxProbability = 1023 := rfl
  rw [surest] at hlow ⊢
  simp only [Context.disagree]
  split <;> dsimp only <;> omega

/-- **Adaptation keeps to the bounds.** -/
theorem Sound.adapt (h : c.Sound) (bin : Bool) : (c.adapt bin).Sound := by
  unfold Context.adapt
  split
  · exact h.agree
  · exact h.disagree

/-- What a context predicts can be decided. -/
theorem Sound.decidable (h : c.Sound) :
    minProbability ≤ c.probability ∧ c.probability ≤ maxProbability :=
  ⟨le_trans (by decide) h.surest_le, h.probability_le⟩

/-- Two contexts that have adapted predict something together that can be
decided. -/
theorem Sound.blend?_eq (ha : a.Sound) (hb : b.Sound) :
    a.blend? b = some (a.blend b) ∧ surest ≤ (a.blend b).2 ∧ (a.blend b).2 ≤ maxProbability := by
  obtain ⟨hlow, hhigh⟩ := blend_bounds ha.probability_le hb.probability_le
  exact ⟨blend?_of_le ha.probability_le hb.probability_le,
    le_trans (le_min ha.surest_le hb.surest_le) hlow, hhigh⟩

end Context

namespace ContextTable

/-- Every context of the table is sound. -/
def Sound (t : ContextTable) : Prop := ∀ index (h : index < contextCount), t.contexts[index].Sound

theorem sound_fresh : fresh.Sound := fun index h => by
  rw [fresh, Vector.getElem_replicate]
  exact Context.sound_fresh

variable {t : ContextTable} {index first second : ℕ}

/-- An index of the table has a context. -/
theorem get?_eq (t : ContextTable) (h : index < contextCount) :
    t.get? index = some t.contexts[index] :=
  Vector.getElem?_eq_getElem h

/-- **A sound table is trained at one index** and nowhere else. -/
theorem Sound.train?_eq (ht : t.Sound) (h : index < contextCount) (bin : Bool) :
    t.train? index bin = some ⟨t.contexts.set index (t.contexts[index].adapt bin) h⟩ := by
  rw [train?, get?_eq t h]
  simp only [Option.bind_eq_bind, Option.bind_some, (ht index h).valid.adapt?_eq bin, set?,
    dif_pos h]

/-- Training keeps a table sound. -/
theorem Sound.train? (ht : t.Sound) (h : index < contextCount) (bin : Bool) :
    ∃ after, t.train? index bin = some after ∧ after.Sound := by
  refine ⟨_, ht.train?_eq h bin, fun other hother => ?_⟩
  rw [Vector.getElem_set]
  split
  · exact (ht index h).adapt bin
  · exact ht other hother

/-- Training two contexts does. -/
theorem Sound.trainPair? (ht : t.Sound) (hfirst : first < contextCount)
    (hsecond : second < contextCount) (hne : first ≠ second) (binFirst binSecond : Bool) :
    ∃ after, t.trainPair? first second binFirst binSecond = some after ∧ after.Sound := by
  obtain ⟨between, hbetween, hsound⟩ := ht.train? hfirst binFirst
  obtain ⟨after, hafter, hsound'⟩ := hsound.train? hsecond binSecond
  refine ⟨after, ?_, hsound'⟩
  unfold ContextTable.trainPair?
  rw [if_neg hne, hbetween]
  exact hafter

/-- Two indices of the table have two contexts. -/
theorem pair?_eq (t : ContextTable) (hfirst : first < contextCount)
    (hsecond : second < contextCount) (hne : first ≠ second) :
    t.pair? first second = some (t.contexts[first], t.contexts[second]) := by
  unfold pair?
  rw [if_neg hne, get?_eq t hfirst, get?_eq t hsecond]
  rfl

end ContextTable

end AvsEntropy
