import AvsEntropy.Proofs.Failure
import AvsEntropy.Proofs.Range.Renewal

/-!
# Runs of decisions

A `Decision` is what a range decoder can be asked for, and `trail` the
run of a list of them: after each decision its answer and the decoder it
left, failures included, after which the run goes on. `afterAll` is the
decoder at the end of it. `decide_cases` is `decideBin_cases` for a
decision.

A decoder whose registers are inside their words, and which has no more
bits to come than its words can count, is `Sound`. It starts so
(`ofSource_cases`) and every decision keeps it so (`Sound.decideBin`).
-/

namespace AvsEntropy

open BitInput

/-- A decision that can be asked for. -/
inductive Decision where
  /-- A symbol, as predicted and how surely. -/
  | bin (predicted : Bool) (probability : ℕ)
  /-- A symbol at even odds. -/
  | bypass
  /-- The stuffing bit. -/
  | stuffing
  deriving DecidableEq, Repr

namespace Decision

/-- The symbol that is predicted. -/
def predicted : Decision → Bool
  | .bin predicted _ => predicted
  | .bypass => false
  | .stuffing => false

/-- The probability state. -/
def probability : Decision → ℕ
  | .bin _ probability => probability
  | .bypass => bypassProbability
  | .stuffing => stuffingProbability

/-- The width that is cut off the range. -/
def width (q : Decision) : ℕ := q.probability / 4

/-- The probability state is one that a decision can have. -/
def InRange (q : Decision) : Prop :=
  minProbability ≤ q.probability ∧ q.probability ≤ maxProbability

instance (q : Decision) : Decidable q.InRange := inferInstanceAs (Decidable (_ ∧ _))

variable {σ : Type} [BitInput σ]

/-- Lets a range decoder decide. -/
def decide : Decision → EStateM Stop (RangeDecoder σ) Bool
  | .bin predicted probability => RangeDecoder.decideBin predicted probability
  | .bypass => RangeDecoder.bypass
  | .stuffing => RangeDecoder.stuffing

/-- Every decision is one of a predicted symbol. -/
theorem decide_eq (q : Decision) :
    (q.decide : EStateM Stop (RangeDecoder σ) Bool) =
      RangeDecoder.decideBin q.predicted q.probability := by
  cases q <;> rfl

theorem InRange.width_bounds {q : Decision} (h : q.InRange) : 1 ≤ q.width ∧ q.width ≤ 255 :=
  RangeDecoder.width_bounds h.1 h.2

end Decision

namespace RangeDecoder

variable {σ : Type} [BitInput σ] {d : RangeDecoder σ} {q : Decision}

/-- **What a decision in its range does**: it narrows the range, renews
it, runs out of bits, or overruns a word. -/
theorem decide_cases (hr : d.registers.Sound) (hq : q.InRange) :
    (d.registers.isBelow (d.registers.split q.width) = true ∧
      q.decide d = .ok q.predicted ⟨d.source, d.registers.narrow (d.registers.split q.width)⟩) ∨
    (¬ d.registers.isBelow (d.registers.split q.width) = true ∧
      ((∃ bits rest value after, Takes d.source bits rest ∧
        Renewed d.registers q.width bits value after ∧
        q.decide d = .ok (!q.predicted) ⟨rest, after⟩) ∨
      ∃ rest, Takes d.source (pending d.source) rest ∧
        q.decide d = .error (.failed .endOfStream) ⟨rest, d.registers⟩)) ∨
    (wordBound ≤ d.registers.rangeScale + 1 ∨ wordBound ≤ (pending d.source).length) ∧
      ∃ after, q.decide d = .error .fault after := by
  rw [q.decide_eq]
  exact decideBin_cases hr hq.1 hq.2 q.predicted

/-- An answered decision is a narrowing or a renewal. -/
theorem decide_ok (hr : d.registers.Sound) (hq : q.InRange) {bin : Bool} {after : RangeDecoder σ}
    (h : q.decide d = .ok bin after) :
    (d.registers.isBelow (d.registers.split q.width) = true ∧ bin = q.predicted ∧
      after = ⟨d.source, d.registers.narrow (d.registers.split q.width)⟩) ∨
    ¬ d.registers.isBelow (d.registers.split q.width) = true ∧ bin = !q.predicted ∧
      ∃ bits value, Takes d.source bits after.source ∧
        Renewed d.registers q.width bits value after.registers := by
  rcases decide_cases hr hq with ⟨hb, hd⟩ | ⟨hb, ⟨bits, rest, value, regs, ht, hren, hd⟩ |
    ⟨rest, -, hd⟩⟩ | ⟨-, stopped, hd⟩ <;> rw [hd] at h <;> cases h
  · exact .inl ⟨hb, rfl, rfl⟩
  · exact .inr ⟨hb, rfl, bits, value, ht, hren⟩

/-- A decision whose renewal succeeds is answered against its prediction. -/
theorem decide_of_renew_ok {after : Registers} {rest : σ} (hq : q.InRange)
    (hadm : d.registers.Admits q.width)
    (hb : ¬ d.registers.isBelow (d.registers.split q.width) = true)
    (hok : renew d.registers (d.registers.split q.width) q.width d.source = .ok after rest) :
    q.decide d = .ok (!q.predicted) ⟨rest, after⟩ := by
  unfold Decision.width at hadm hb hok
  rw [q.decide_eq]
  simp only [decideBin, if_pos (And.intro hq.1 hq.2), if_pos hadm, if_neg hb, hok]

/-- A decision is answered only in its range. -/
theorem inRange_of_decide_ok {bin : Bool} {after : RangeDecoder σ}
    (h : q.decide d = .ok bin after) : q.InRange := by
  rw [q.decide_eq] at h
  unfold decideBin at h
  by_contra hq
  rw [Decision.InRange] at hq
  dsimp only at h
  rw [if_neg hq] at h
  cases h

/-- **A decision that fails leaves the registers as they were**, however
far its source has moved. -/
theorem registers_of_error {stop : Stop} {after : RangeDecoder σ}
    (h : q.decide d = .error stop after) : after.registers = d.registers := by
  rw [q.decide_eq] at h
  unfold decideBin at h
  dsimp only at h
  split at h
  · split at h
    · split at h
      · cases h
      · split at h
        · cases h
        · cases h
          rfl
    · cases h
      rfl
  · cases h
    rfl

/-- An answered decision leaves registers inside their words. -/
theorem sound_of_decide_ok (hr : d.registers.Sound) (hq : q.InRange) {bin : Bool}
    {after : RangeDecoder σ} (h : q.decide d = .ok bin after) : after.registers.Sound := by
  have hw := hq.width_bounds
  rcases decide_ok hr hq h with ⟨hb, -, rfl⟩ | ⟨-, -, bits, value, -, hren⟩
  · exact hr.narrow hw.1 hb
  · exact hren.sound hw.1 (by omega)

/-- A decoder that has started has its registers inside their words, and
has taken the bits up to the ninth from the first one on. -/
theorem ofSource_ok {source s : σ} (h : ofSource source = .ok d s) :
    ∃ bits scale, Takes source bits d.source ∧ bits.length = 9 + scale ∧
      256 ≤ appended 0 bits ∧ appended 0 bits < 512 ∧
      d.registers = ⟨0, 255, scale, appended 0 bits % 256⟩ := by
  simp only [ofSource] at h
  rcases start_cases source with ⟨bits, rest, scale, ht, hlen, hge, hlt, hok⟩ |
    ⟨rest, -, he⟩ | ⟨rest, -, he⟩
  · rw [bind_ok hok] at h
    cases h
    exact ⟨bits, scale, ht, hlen, hge, hlt, rfl⟩
  · rw [bind_error he] at h
    cases h
  · rw [bind_error he] at h
    cases h

theorem sound_of_ofSource {source s : σ} (h : ofSource source = .ok d s) :
    d.registers.Sound := by
  obtain ⟨bits, scale, -, -, -, -, hr⟩ := ofSource_ok h
  rw [hr]
  exact ⟨by dsimp only; omega, by dsimp only; omega, by dsimp only; omega⟩

/-- What there is to say of a decoder that has started is how many bits it
took. -/
theorem openSource_of_ok {source s : σ} (h : ofSource source = .ok d s) :
    openSource source =
      ⟨.ok d, [.started (BitInput.position d.source - BitInput.position source) d.registers]⟩ := by
  obtain ⟨bits, scale, ht, -⟩ := ofSource_ok h
  have hle : BitInput.position source ≤ BitInput.position d.source := by
    rw [ht.position_eq]
    exact Nat.le_add_right _ _
  unfold openSource
  rw [h]
  simp only [RangeDecoder.position, difference?_of_le hle]

theorem openSource_of_error {source s : σ} {stop : Stop} (h : ofSource source = .error stop s) :
    openSource source = ⟨.error stop, []⟩ := by
  unfold openSource
  rw [h]

/-! ## Decoders that keep working -/

/-- A decoder between two decisions: its registers are inside their words,
and the scale of its value stays there whatever bits are to come. -/
structure Sound (d : RangeDecoder σ) : Prop where
  registers : d.registers.Sound
  room : d.registers.valueScale + 1 + (pending d.source).length < wordBound

/-- **A decoder starts out sound**, unless the bits run out first. -/
theorem ofSource_cases {source : σ} (hlen : (pending source).length < wordBound) :
    (∃ d s, ofSource source = .ok d s ∧ d.Sound) ∨
      ∃ s, ofSource source = .error (.failed .endOfStream) s := by
  cases hopen : ofSource source with
  | ok d s =>
    refine .inl ⟨d, s, rfl, sound_of_ofSource hopen, ?_⟩
    obtain ⟨bits, scale, ht, hbits, -, -, hr⟩ := ofSource_ok hopen
    rw [ht.length_pending, hbits] at hlen
    rw [hr]
    dsimp only
    omega
  | error stop s =>
    refine .inr ⟨s, ?_⟩
    simp only [ofSource] at hopen
    rcases start_cases source with ⟨bits, rest, scale, -, -, -, -, hok⟩ | ⟨rest, -, he⟩ |
      ⟨rest, hlong, -⟩
    · rw [bind_ok hok] at hopen
      cases hopen
    · rw [bind_error he] at hopen
      cases hopen
      rfl
    · omega

/-- A decoder that has started is sound. -/
theorem Sound.of_ofSource {source s : σ} (hlen : (pending source).length < wordBound)
    (hopen : ofSource source = .ok d s) : d.Sound := by
  rcases ofSource_cases hlen with ⟨d', s', hopen', hd⟩ | ⟨s', hopen'⟩ <;> rw [hopen] at hopen' <;>
    cases hopen'
  exact hd

/-- **A decision keeps a decoder sound**: it is answered, or the bits run
out. -/
theorem Sound.decideBin (h : d.Sound) {probability : ℕ} (hmin : minProbability ≤ probability)
    (hmax : probability ≤ maxProbability) (predicted : Bool) :
    Keeps Sound (decideBin predicted probability d) := by
  have hroom := h.room
  have hscale := h.registers.rangeScale_le
  have hw := width_bounds hmin hmax
  rcases decideBin_cases h.registers hmin hmax predicted with ⟨hb, hd⟩ |
    ⟨hb, ⟨bits, rest, value, after, ht, hren, hd⟩ | ⟨rest, ht, hd⟩⟩ | ⟨hlong, after, hd⟩
  · rw [hd]
    exact ⟨h.registers.narrow hw.1 hb, hroom⟩
  · rw [hd]
    have hlen := hren.length_eq
    rw [ht.length_pending] at hroom
    exact ⟨hren.sound hw.1 (by omega), by dsimp only; omega⟩
  · rw [hd]
    refine ⟨rfl, h.registers, ?_⟩
    rw [ht.pending_eq_nil]
    exact lt_of_le_of_lt (Nat.le_add_right _ _) hroom
  · omega

/-- **What a sound decoder does with a decision in its range**: it narrows
the range, renews it, or runs out of bits. -/
theorem Sound.decide_cases (h : d.Sound) (hq : q.InRange) :
    (d.registers.isBelow (d.registers.split q.width) = true ∧
      q.decide d = .ok q.predicted ⟨d.source, d.registers.narrow (d.registers.split q.width)⟩) ∨
    ¬ d.registers.isBelow (d.registers.split q.width) = true ∧
      ((∃ bits rest value after, Takes d.source bits rest ∧
        Renewed d.registers q.width bits value after ∧
        q.decide d = .ok (!q.predicted) ⟨rest, after⟩) ∨
      ∃ rest, Takes d.source (pending d.source) rest ∧
        q.decide d = .error (.failed .endOfStream) ⟨rest, d.registers⟩) := by
  rcases RangeDecoder.decide_cases h.registers hq with hnarrow | hrenew | ⟨hlong, -⟩
  · exact .inl hnarrow
  · exact .inr hrenew
  · -- there is room for every count
    have hroom := h.room
    have hscale := h.registers.rangeScale_le
    omega

/-- **A decision outside its range is refused**, and nothing is touched. -/
theorem decide_of_not_inRange (hq : ¬ q.InRange) (d : RangeDecoder σ) :
    q.decide d = .error (.failed (.invalidArgument (.probability q.probability))) d := by
  rw [q.decide_eq]
  exact if_neg hq

/-! ## Trails -/

/-- The answer of a decision and the decoder it leaves. -/
def outcome (q : Decision) (d : RangeDecoder σ) : Except Stop Bool × RangeDecoder σ :=
  match q.decide d with
  | .ok bin after => (.ok bin, after)
  | .error stop after => (.error stop, after)

/-- An outcome that is an answer is the decision's. -/
theorem decide_of_outcome (h : (outcome q d).1.isOk = true) :
    ∃ bin, (outcome q d).1 = .ok bin ∧ q.decide d = .ok bin (outcome q d).2 := by
  unfold outcome at h ⊢
  cases hd : q.decide d with
  | ok bin after => exact ⟨bin, rfl, rfl⟩
  | error stop after =>
    rw [hd] at h
    cases h

/-- Whatever comes of a decision, the registers stay inside their words. -/
theorem sound_outcome (hr : d.registers.Sound) (q : Decision) :
    (outcome q d).2.registers.Sound := by
  unfold outcome
  cases hd : q.decide d with
  | ok bin after => exact sound_of_decide_ok hr (inRange_of_decide_ok hd) hd
  | error stop after =>
    rw [registers_of_error hd]
    exact hr

/-- Whatever is asked of a sound decoder, it stays sound. -/
theorem Sound.after (h : d.Sound) (q : Decision) : (outcome q d).2.Sound := by
  by_cases hq : q.InRange
  · have hkeeps := h.decideBin hq.1 hq.2 q.predicted
    unfold outcome
    rw [q.decide_eq]
    cases hd : RangeDecoder.decideBin q.predicted q.probability d with
    | ok bin after =>
      rw [hd] at hkeeps
      exact hkeeps
    | error stop after =>
      rw [hd] at hkeeps
      exact hkeeps.2
  · unfold outcome
    rw [decide_of_not_inRange hq]
    exact h

/-- The decoder after a list of decisions. A failure does not end the
run. -/
def afterAll (d : RangeDecoder σ) (qs : List Decision) : RangeDecoder σ :=
  qs.foldl (fun d q => (outcome q d).2) d

@[simp] theorem afterAll_nil (d : RangeDecoder σ) : d.afterAll [] = d := rfl

@[simp] theorem afterAll_cons (d : RangeDecoder σ) (q : Decision) (qs : List Decision) :
    d.afterAll (q :: qs) = (outcome q d).2.afterAll qs := rfl

/-- A run goes on from where it was left. -/
theorem afterAll_append (d : RangeDecoder σ) (qs more : List Decision) :
    d.afterAll (qs ++ more) = (d.afterAll qs).afterAll more :=
  List.foldl_append

/-- The registers stay inside their words over a whole run. -/
theorem sound_afterAll (hr : d.registers.Sound) (qs : List Decision) :
    (d.afterAll qs).registers.Sound := by
  induction qs generalizing d with
  | nil => exact hr
  | cons q qs ih => exact ih (sound_outcome hr q)

/-- A sound decoder stays sound over a whole run. -/
theorem Sound.afterAll (h : d.Sound) (qs : List Decision) : (d.afterAll qs).Sound := by
  induction qs generalizing d with
  | nil => exact h
  | cons q qs ih => exact ih (h.after q)

/-- The answers of a list of decisions, each with the decoder it leaves.
A failure does not end the run. -/
def trail : List Decision → RangeDecoder σ → List (Except Stop Bool × RangeDecoder σ)
  | [], _ => []
  | q :: qs, d => outcome q d :: trail qs (outcome q d).2

/-- Every decision has its outcome. -/
theorem length_trail (qs : List Decision) (d : RangeDecoder σ) :
    (trail qs d).length = qs.length := by
  induction qs generalizing d with
  | nil => rfl
  | cons q qs ih => rw [trail, List.length_cons, ih, List.length_cons]

end RangeDecoder

end AvsEntropy
