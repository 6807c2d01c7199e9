import AvsEntropy.Range.Registers

/-!
# Adaptive contexts

A context remembers which symbol it saw more often and how sure it is.
Its probability state falls towards zero with every symbol that agrees
and rises by a fixed gain with every one that does not; past even odds
the favored symbol changes sides. How fast it learns depends on a cycle
count that grows with the disagreements and stops at three.

Every step is checked: a field that leaves its word, a gain that is not in
the table, and a context that comes out of range are `none`. A context that
starts in range never gets there.
-/

namespace AvsEntropy

/-- What is known about a class of binary symbols. -/
structure Context where
  /-- The symbol predicted. -/
  favored : Bool
  /-- How far learning has slowed down. -/
  cycle : Nat
  /-- How unsure the prediction is, up to `maxProbability` for even odds. -/
  probability : Nat
  deriving DecidableEq, Repr

namespace Context

/-- A context that has seen nothing: even odds on the symbol `0`. -/
def fresh : Context := ⟨false, 0, maxProbability⟩

/-- The largest cycle count. -/
def maxCycle : Nat := 3

/-- The fields are in their range. -/
def Valid (c : Context) : Prop := c.cycle ≤ maxCycle ∧ c.probability ≤ maxProbability

instance (c : Context) : Decidable c.Valid := inferInstanceAs (Decidable (_ ∧ _))

/-- The learning rate: an agreeing symbol takes off about `2 ^ -rate` of
the probability state. -/
def rate (c : Context) : Nat :=
  if c.cycle ≤ 1 then 3 else if c.cycle = 2 then 4 else 5

/-- What a disagreeing symbol adds to the probability state, by the rate. -/
def gains : List Nat := [46, 46, 46, 197, 95, 46]

/-- The context after a symbol that agrees with it. -/
def agree? (c : Context) : Option Context := do
  let once ← difference? c.probability (c.probability >>> c.rate)
  let twice ← difference? once (c.probability >>> (c.rate + 2))
  return ⟨c.favored, max c.cycle 1, twice⟩

/-- The context after a symbol that disagrees with it. -/
def disagree? (c : Context) : Option Context := do
  let cycle ← sum? byteBound c.cycle 1
  let gain ← gains[c.rate]?
  let raised ← sum? halfBound c.probability gain
  if maxProbability < raised then
    let reflected ← difference? (2 * maxProbability + 1) raised
    return ⟨!c.favored, min cycle maxCycle, reflected⟩
  else return ⟨c.favored, min cycle maxCycle, raised⟩

/-- The context after a symbol, which must be in range. -/
def adapt? (c : Context) (bin : Bool) : Option Context := do
  let after ← (if bin = c.favored then c.agree? else c.disagree?)
  if after.Valid then return after else none

/-- The prediction of two contexts together, and its probability state.
Where they agree it is their mean; where they do not, the surer one
prevails, the less so the closer they are. -/
def blend? (a b : Context) : Option (Bool × Nat) :=
  if a.favored = b.favored then some (a.favored, (a.probability + b.probability) / 2)
  else if a.probability < b.probability then do
    let apart ← difference? b.probability a.probability
    return (a.favored, ← difference? maxProbability (apart / 2))
  else do
    let apart ← difference? a.probability b.probability
    return (b.favored, ← difference? maxProbability (apart / 2))

end Context

end AvsEntropy
