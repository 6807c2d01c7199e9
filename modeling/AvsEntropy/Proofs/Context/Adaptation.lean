import AvsEntropy.Proofs.Context.Leaning
import Mathlib.Data.Nat.Find

/-!
# Where adaptation leads

On the scale of predictions a symbol takes a context towards its own end, and
never away from it. One that disagrees does so by the gain of the rate, even
where the context turns around (`Valid.distanceFrom_disagree`); one that agrees, by
a part of what is left.

A symbol that comes again and again therefore has the context on its side
after 23 times at most, as no gain is below 46 and the scale is 2047 long
(`Valid.exists_turn`). From there on the context gets surer by every symbol
until a rate takes nothing off any more. Where that is, the context knows when
it turns: agreeing symbols do not change its `floor`.
-/

namespace AvsEntropy

namespace Context

variable {c after : Context} {bin : Bool}

/-! ## One symbol -/

theorem adapt_of_eq (h : c.favored = bin) : c.adapt bin = c.agree := if_pos h.symm

theorem adapt_of_ne (h : c.favored ≠ bin) : c.adapt bin = c.disagree := if_neg (Ne.symm h)

/-- An agreeing symbol takes something off where the rate does not cut off. -/
theorem probability_agree_lt_iff (c : Context) :
    c.agree.probability < c.probability ↔ 2 ^ c.rate ≤ c.probability := by
  rcases c.agree_cases with ⟨hbelow, hsame⟩ | ⟨habove, hlt, -⟩
  · rw [hsame]
    exact ⟨fun h => absurd h (lt_irrefl _), fun h => absurd hbelow (not_lt_of_ge h)⟩
  · exact ⟨fun _ => habove, fun _ => hlt⟩

/-- An agreeing symbol may begin the first cycle, which is as fast as none. -/
theorem rate_agree (c : Context) : c.agree.rate = c.rate := by
  have hone : max c.cycle 1 ≤ 1 ↔ c.cycle ≤ 1 := by omega
  have htwo : max c.cycle 1 = 2 ↔ c.cycle = 2 := by omega
  simp only [rate, agree, hone, htwo]

/-- **A disagreeing symbol is a step of one gain** towards its end of the
scale, over the middle as anywhere else. -/
theorem Valid.distanceFrom_disagree (hc : c.Valid) (h : c.favored ≠ bin) :
    distanceFrom bin c.disagree.prediction + c.gain = distanceFrom bin c.prediction := by
  have hhigh := hc.2
  have hgain := c.gain_le
  have hmax : maxProbability = 1023 := rfl
  rw [prediction, prediction, distanceFrom_of_ne h]
  simp only [disagree]
  split
  · have hturned : (!c.favored) = bin := (Bool.eq_not_of_ne (Ne.symm h)).symm
    rw [hturned, distanceFrom_self]
    dsimp only
    omega
  · rw [distanceFrom_of_ne h]
    dsimp only
    omega

/-- **No symbol takes a context away** from its end of the scale. -/
theorem Valid.distanceFrom_adapt_le (hc : c.Valid) (bin : Bool) :
    distanceFrom bin (c.adapt bin).prediction ≤ distanceFrom bin c.prediction := by
  by_cases h : c.favored = bin
  · subst h
    rw [adapt_of_eq rfl, prediction, prediction, distanceFrom_self]
    exact le_trans (distanceFrom_self c.favored _).le c.probability_agree_le
  · rw [adapt_of_ne h, ← hc.distanceFrom_disagree h]
    exact Nat.le_add_right _ _

/-- Learning only slows down. -/
theorem Valid.cycle_le_adapt (hc : c.Valid) (bin : Bool) : c.cycle ≤ (c.adapt bin).cycle := by
  have hcycle := hc.1
  by_cases h : c.favored = bin
  · rw [adapt_of_eq h]
    exact le_max_left _ _
  · rw [adapt_of_ne h]
    have hmin : c.cycle ≤ min (c.cycle + 1) maxCycle := le_min (Nat.le_succ _) hcycle
    simp only [disagree]
    split <;> exact hmin

/-- What a symbol may do to a context, by its place on the scale. -/
structure Towards (bin : Bool) (c after : Context) : Prop where
  /-- A one never takes it down. -/
  leaning_le : bin = true → leaning c.prediction ≤ leaning after.prediction
  /-- A zero never takes it up. -/
  le_leaning : bin = false → leaning after.prediction ≤ leaning c.prediction
  /-- A one that it did not predict takes it up by the gain. -/
  leaning_add : c.favored ≠ bin → bin = true →
    leaning after.prediction = leaning c.prediction + c.gain
  /-- A zero that it did not predict takes it down by the gain. -/
  leaning_sub : c.favored ≠ bin → bin = false →
    leaning after.prediction + c.gain = leaning c.prediction
  cycle_le : c.cycle ≤ after.cycle
  valid : after.Valid

/-- **A symbol takes a context towards its end of the scale.** -/
theorem Valid.towards_adapt (hc : c.Valid) (bin : Bool) : Towards bin c (c.adapt bin) := by
  have hafter := hc.adapt bin
  have hscale : distanceFrom true c.prediction + leaning c.prediction = 2 * maxProbability + 1 :=
    distanceFrom_true_add hc.2
  have hscale' : distanceFrom true (c.adapt bin).prediction + leaning (c.adapt bin).prediction =
      2 * maxProbability + 1 := distanceFrom_true_add hafter.2
  refine ⟨?_, ?_, fun h => ?_, fun h => ?_, hc.cycle_le_adapt bin, hafter⟩
  · rintro rfl
    have hle := hc.distanceFrom_adapt_le true
    omega
  · rintro rfl
    exact hc.distanceFrom_adapt_le false
  · rintro rfl
    have hstep := hc.distanceFrom_disagree h
    rw [← adapt_of_ne h] at hstep
    omega
  · rintro rfl
    rw [adapt_of_ne h]
    exact hc.distanceFrom_disagree h

/-! ## Many symbols -/

/-- Adaptation in range goes on for any symbols. -/
theorem Valid.foldlM_adapt? (hc : c.Valid) (bins : List Bool) :
    bins.foldlM Context.adapt? c = some (bins.foldl Context.adapt c) := by
  induction bins generalizing c with
  | nil => rfl
  | cons bin bins ih =>
    rw [List.foldlM_cons, hc.adapt?_eq bin]
    exact ih (hc.adapt bin)

/-- The context after a symbol that came a number of times. -/
def fed (c : Context) (bin : Bool) (n : ℕ) : Context := (List.replicate n bin).foldl adapt c

theorem fed_zero (c : Context) (bin : Bool) : c.fed bin 0 = c := rfl

theorem fed_succ (c : Context) (bin : Bool) (n : ℕ) :
    c.fed bin (n + 1) = (c.fed bin n).adapt bin := by
  rw [fed, List.replicate_succ', List.foldl_append]
  rfl

theorem fed_add (c : Context) (bin : Bool) (m n : ℕ) :
    c.fed bin (m + n) = (c.fed bin m).fed bin n := by
  rw [fed, ← List.replicate_append_replicate, List.foldl_append]
  rfl

theorem Valid.fed (hc : c.Valid) (bin : Bool) (n : ℕ) : (c.fed bin n).Valid := by
  induction n with
  | zero => exact hc
  | succ n ih =>
    rw [fed_succ]
    exact ih.adapt bin

/-! ## Up to the turn -/

/-- Every symbol that disagrees is a gain of 46 at least, up to the first
that does not. -/
theorem Valid.distanceFrom_fed_le (hc : c.Valid) (bin : Bool) (n : ℕ) :
    (c.fed bin n).favored = bin ∨
      distanceFrom bin (c.fed bin n).prediction + 46 * n ≤ 2 * maxProbability + 1 := by
  induction n with
  | zero =>
    by_cases h : c.favored = bin
    · exact .inl h
    · refine .inr ?_
      rw [fed_zero, prediction, distanceFrom_of_ne h]
      omega
  | succ n ih =>
    rw [fed_succ]
    by_cases h : (c.fed bin n).favored = bin
    · rw [adapt_of_eq h]
      exact .inl h
    · have hstep := (hc.fed bin n).distanceFrom_disagree h
      have hgain := (c.fed bin n).le_gain
      have hsofar := ih.resolve_left h
      rw [adapt_of_ne h]
      exact .inr (by omega)

/-- The middle of the scale is no further than that. -/
theorem Valid.favored_fed (hc : c.Valid) (bin : Bool) : (c.fed bin 23).favored = bin := by
  rcases hc.distanceFrom_fed_le bin 23 with h | h
  · exact h
  · have hhigh : (c.fed bin 23).prediction.2 ≤ maxProbability := (hc.fed bin 23).2
    refine (distanceFrom_le_iff hhigh).1 ?_
    rw [maxProbability] at h ⊢
    omega

/-! ## From the turn on -/

/-- Where agreeing symbols leave off: they take a probability state down to
the last from which the rate takes nothing off. -/
def floor (c : Context) : ℕ := min c.probability (2 ^ c.rate - 1)

theorem floor_lt (c : Context) : c.floor < 32 := by
  have hfloor : c.floor ≤ 2 ^ c.rate - 1 := min_le_right _ _
  have hcut := c.cut_bounds
  omega

/-- A context below the cut is at its floor. -/
theorem floor_eq (h : ¬ 2 ^ c.rate ≤ c.probability) : c.floor = c.probability :=
  min_eq_left (by omega)

/-- **No agreeing symbol goes through the floor**, or moves it. -/
theorem floor_agree (c : Context) : c.agree.floor = c.floor := by
  rw [floor, floor, rate_agree]
  rcases c.agree_cases with ⟨-, hsame⟩ | ⟨habove, -, hlast⟩
  · rw [hsame]
  · omega

/-- What agreeing symbols make of a context: they leave its symbol, rate and
floor alone, and take it down at most. -/
structure Surer (c after : Context) : Prop where
  favored_eq : after.favored = c.favored
  rate_eq : after.rate = c.rate
  floor_eq : after.floor = c.floor
  probability_le : after.probability ≤ c.probability

theorem surer_agree (c : Context) : Surer c c.agree :=
  ⟨rfl, c.rate_agree, c.floor_agree, c.probability_agree_le⟩

theorem Surer.trans {between : Context} (h : Surer c between) (h' : Surer between after) :
    Surer c after :=
  ⟨h'.favored_eq.trans h.favored_eq, h'.rate_eq.trans h.rate_eq, h'.floor_eq.trans h.floor_eq,
    h'.probability_le.trans h.probability_le⟩

/-- **A context that predicts a symbol gets surer by it**, however often it
comes. -/
theorem surer_fed (h : c.favored = bin) (n : ℕ) : Surer c (c.fed bin n) := by
  induction n with
  | zero => exact ⟨rfl, rfl, rfl, le_rfl⟩
  | succ n ih =>
    rw [fed_succ, adapt_of_eq (ih.favored_eq.trans h)]
    exact ih.trans (surer_agree _)

/-- **It comes to rest on its floor.** Each symbol takes something off before
that, so there are no more of them than states. -/
theorem exists_settled (h : c.favored = bin) :
    ∃ settled ≤ c.probability, ∀ n ≥ settled, (c.fed bin n).probability = c.floor := by
  induction hp : c.probability using Nat.strong_induction_on generalizing c with
  | _ p ih =>
    subst hp
    by_cases hcut : 2 ^ c.rate ≤ c.probability
    · have hlt := c.probability_agree_lt_iff.2 hcut
      obtain ⟨settled, hle, hrest⟩ := ih _ hlt (c := c.agree) h rfl
      refine ⟨1 + settled, by omega, fun n hn => ?_⟩
      obtain ⟨m, rfl⟩ := Nat.exists_eq_add_of_le (le_trans (Nat.le_add_right 1 settled) hn)
      rw [fed_add, fed_succ, fed_zero, adapt_of_eq h, hrest m (by omega), floor_agree]
    · -- the cut is the same for what comes of it, which lies no higher
      refine ⟨0, Nat.zero_le _, fun n _ => ?_⟩
      have hsurer := surer_fed h n
      have hbelow : ¬ 2 ^ (c.fed bin n).rate ≤ (c.fed bin n).probability := by
        rw [hsurer.rate_eq]
        exact fun hle => hcut (le_trans hle hsurer.probability_le)
      rw [← floor_eq hbelow, hsurer.floor_eq]

/-- **A context turns to a symbol that keeps coming**, at one point, after at
most 23 times. -/
theorem Valid.exists_turn (hc : c.Valid) (bin : Bool) :
    ∃ turn ≤ 23, ∀ n, (c.fed bin n).favored = bin ↔ turn ≤ n := by
  have hturns : ∃ n, (c.fed bin n).favored = bin := ⟨23, hc.favored_fed bin⟩
  refine ⟨Nat.find hturns, Nat.find_min' hturns (hc.favored_fed bin), fun n =>
    ⟨fun h => Nat.find_min' hturns h, fun hn => ?_⟩⟩
  obtain ⟨m, rfl⟩ := Nat.exists_eq_add_of_le hn
  rw [fed_add]
  exact (surer_fed (Nat.find_spec hturns) m).favored_eq.trans (Nat.find_spec hturns)

/-- **Adaptation goes towards what it sees, and settles.** A context in range
adapts to any symbol and stays in range. The symbol takes it towards its own
end of the scale, by the gain if it disagrees, and learning never gets faster.
If the symbol keeps coming, the context turns to it after at most 23 times and
for good. It never gets less sure from there on, and surer each time above
what the rate cuts off, until it has come down to a floor below 32, where it
stays. -/
theorem adaptation_settles (hc : c.Valid) (bin : Bool) :
    (c.adapt? bin = some (c.adapt bin) ∧ Towards bin c (c.adapt bin)) ∧
    (∀ n, (List.replicate n bin).foldlM adapt? c = some (c.fed bin n)) ∧
    ∃ turn ≤ 23, (∀ n, (c.fed bin n).favored = bin ↔ turn ≤ n) ∧
      (∀ n ≥ turn, (c.fed bin (n + 1)).probability ≤ (c.fed bin n).probability ∧
        ((c.fed bin (n + 1)).probability < (c.fed bin n).probability ↔
          2 ^ (c.fed bin n).rate ≤ (c.fed bin n).probability)) ∧
      (c.fed bin turn).floor < 32 ∧
      ∃ settled ≤ turn + maxProbability,
        ∀ n ≥ settled, (c.fed bin n).probability = (c.fed bin turn).floor := by
  obtain ⟨turn, hle, hturn⟩ := hc.exists_turn bin
  refine ⟨⟨hc.adapt?_eq bin, hc.towards_adapt bin⟩, fun n => hc.foldlM_adapt? _,
    turn, hle, hturn, fun n hn => ?_, floor_lt _, ?_⟩
  · rw [fed_succ, adapt_of_eq ((hturn n).2 hn)]
    exact ⟨probability_agree_le _, probability_agree_lt_iff _⟩
  · obtain ⟨settled, hsettled, hrest⟩ := exists_settled ((hturn turn).2 le_rfl)
    have hhigh := (hc.fed bin turn).2
    refine ⟨turn + settled, by omega, fun n hn => ?_⟩
    obtain ⟨m, rfl⟩ := Nat.exists_eq_add_of_le (le_trans (Nat.le_add_right turn settled) hn)
    rw [fed_add, hrest m (by omega)]

/-- The surest context, at the slowest rate, takes all 23 symbols to turn, and
ends at the highest floor. -/
theorem adaptation_settles_slowest :
    let c : Context := ⟨false, 3, 0⟩
    c.Valid ∧ (c.fed true 22).favored = false ∧ (c.fed true 23).favored = true ∧
      ∃ settled ≤ 1046, ∀ n ≥ settled, (c.fed true n).probability = 31 := by
  intro c
  have hc : c.Valid := by decide
  have hbefore : (c.fed true 22).favored = false := by decide
  obtain ⟨-, -, turn, hle, hturn, -, -, settled, hsettled, hrest⟩ := adaptation_settles hc true
  -- it has not turned before, so it does now
  have hlate : ¬ turn ≤ 22 := by
    rw [← hturn 22, hbefore]
    decide
  obtain rfl : turn = 23 := by omega
  refine ⟨hc, hbefore, (hturn 23).2 le_rfl, settled, hsettled, fun n hn => ?_⟩
  rw [hrest n hn]
  decide

end Context

end AvsEntropy
