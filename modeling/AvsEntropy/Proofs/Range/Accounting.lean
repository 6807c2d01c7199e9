import AvsEntropy.Bits.ByteCursor
import AvsEntropy.Bits.Tape
import AvsEntropy.Proofs.Range.Decisions

/-!
# What decisions cost

A decision that is answered as predicted takes no bit. One that is not
takes what its renewal costs (`Registers.renewalCost`), which the range
alone determines, and the leading zeros that the value gains or loses.
So the bits of a whole run are those of the start, the scale of the value,
and what its decisions cost (`position_afterAll`).

The range itself goes by the decisions and their answers. Two decoders
that were asked the same and answered the same hold the same range, and
have paid the same for it, whatever bits they read
(`inStep_of_trail`).
-/

namespace AvsEntropy

open BitInput

namespace Registers

variable {r r' : Registers} {width : ℕ}

/-- Two registers hold the same range, whatever their values are. -/
def SameRange (r r' : Registers) : Prop :=
  r.rangeScale = r'.rangeScale ∧ r.rangeRest = r'.rangeRest

instance : DecidableRel SameRange := fun _ _ => inferInstanceAs (Decidable (_ ∧ _))

/-- A cut reads the range and nothing else. -/
theorem SameRange.split_eq (h : r.SameRange r') (width : ℕ) : r.split width = r'.split width := by
  obtain ⟨hscale, hrest⟩ := h
  unfold split
  rw [hscale, hrest]

/-- And so does the width of the end that is cut off. -/
theorem SameRange.severed_eq (h : r.SameRange r') (cut : Split) (width : ℕ) :
    r.severed cut width = r'.severed cut width := by
  unfold severed
  rw [h.2]

/-- The bits that a renewal costs: one for each step of scale at which the
cut lies, and one for each doubling of the severed end. -/
def renewalCost (r : Registers) (width : ℕ) : ℕ :=
  (r.split width).scale + doublings (r.severed (r.split width) width)

theorem SameRange.renewalCost_eq (h : r.SameRange r') (width : ℕ) :
    r.renewalCost width = r'.renewalCost width := by
  unfold renewalCost
  rw [h.split_eq, h.severed_eq]

end Registers

namespace RangeDecoder

variable {σ τ : Type} [BitInput σ] [BitInput τ] {d : RangeDecoder σ} {d' : RangeDecoder τ}

/-! ## One decision -/

section Decision

variable {q : Decision} {bin : Bool} {after : RangeDecoder σ} {after' : RangeDecoder τ}

/-- What a decision costs: nothing where it is answered as predicted, and
a renewal where it is not. -/
def cost (q : Decision) (d : RangeDecoder σ) : ℕ :=
  match (outcome q d).1 with
  | .ok bin => if bin = q.predicted then 0 else d.registers.renewalCost q.width
  | .error _ => 0

/-- The cost of a decision that is answered. -/
theorem cost_of_decide_ok (hok : q.decide d = .ok bin after) :
    cost q d = if bin = q.predicted then 0 else d.registers.renewalCost q.width := by
  unfold cost outcome
  rw [hok]

/-- **Bits are neither read twice nor skipped.** What a decision takes is
its cost and the leading zeros of the new value, less those of the old. -/
theorem position_of_decide_ok (hr : d.registers.Sound)
    (hok : q.decide d = .ok bin after) :
    after.position + d.registers.valueScale =
      d.position + after.registers.valueScale + cost q d := by
  have hq := inRange_of_decide_ok hok
  rw [cost_of_decide_ok hok]
  rcases decide_ok hr hq hok with ⟨-, rfl, rfl⟩ | ⟨hb, rfl, bits, value, ht, hren⟩
  · rw [if_pos rfl]
    rfl
  · have hle := Registers.valueScale_le_of_not_isBelow hb
    have hposition := ht.position_eq
    have hlen := hren.length_eq
    rw [if_neg (Bool.not_ne_self _)]
    unfold RangeDecoder.position Registers.renewalCost
    omega

/-- **An answer as predicted takes no bit, and any other takes one at
least.** -/
theorem reads_of_decide_ok (hr : d.registers.Sound)
    (hok : q.decide d = .ok bin after) :
    (bin = q.predicted → after.position = d.position) ∧
      (bin = !q.predicted → d.position < after.position) := by
  have hq := inRange_of_decide_ok hok
  rcases decide_ok hr hq hok with ⟨-, rfl, rfl⟩ | ⟨-, rfl, bits, value, ht, hren⟩
  · exact ⟨fun _ => rfl, fun h => absurd h.symm (Bool.not_ne_self _)⟩
  · refine ⟨fun h => absurd h (Bool.not_ne_self _), fun _ => ?_⟩
    have hposition := ht.position_eq
    have hsome := List.length_pos_iff.2 (hren.bits_ne_nil hr)
    unfold RangeDecoder.position
    omega

/-- **The same answer to the same decision leaves the same range.** -/
theorem sameRange_of_decide_ok (hr : d.registers.Sound) (hr' : d'.registers.Sound)
    (hsame : d.registers.SameRange d'.registers)
    (hok : q.decide d = .ok bin after) (hok' : q.decide d' = .ok bin after') :
    after.registers.SameRange after'.registers := by
  have hq := inRange_of_decide_ok hok
  rcases decide_ok hr hq hok with ⟨-, hbin, rfl⟩ | ⟨-, hbin, bits, value, -, hren⟩ <;>
    rcases decide_ok hr' hq hok' with ⟨-, hbin', rfl⟩ | ⟨-, hbin', bits', value', -, hren'⟩
  · unfold Registers.SameRange Registers.narrow
    rw [hsame.split_eq]
    exact ⟨rfl, rfl⟩
  · exact absurd (hbin'.symm.trans hbin) (Bool.not_ne_self _)
  · exact absurd (hbin.symm.trans hbin') (Bool.not_ne_self _)
  · have hrest := hren.rangeRest_eq
    have hrest' := hren'.rangeRest_eq
    rw [hsame.split_eq, hsame.severed_eq] at hrest
    exact ⟨hren.rangeScale_eq.trans hren'.rangeScale_eq.symm, by omega⟩

end Decision

/-! ## Whole runs -/

section Runs

variable {qs : List Decision}

/-- What the decisions of a run cost together. -/
def spent : List Decision → RangeDecoder σ → ℕ
  | [], _ => 0
  | q :: qs, d => cost q d + spent qs (outcome q d).2

/-- A run that is cut short is the beginning of the run. -/
theorem trail_take (qs : List Decision) (d : RangeDecoder σ) (n : ℕ) :
    trail (qs.take n) d = (trail qs d).take n := by
  induction qs generalizing d n with
  | nil => rw [List.take_nil, trail, List.take_nil]
  | cons q qs ih =>
    cases n with
    | zero => rfl
    | succ n => rw [List.take_succ_cons, trail, trail, List.take_succ_cons, ih]

/-- The beginning of a run that is answered throughout is. -/
theorem isOk_trail_take (hok : ∀ o ∈ trail qs d, o.1.isOk = true) (n : ℕ) :
    ∀ o ∈ trail (qs.take n) d, o.1.isOk = true := by
  intro o ho
  rw [trail_take] at ho
  exact hok o (List.mem_of_mem_take ho)

/-- A run that answers like one that is answered throughout is. -/
theorem isOk_trail_of_map_eq (hok : ∀ o ∈ trail qs d, o.1.isOk = true)
    (hans : (trail qs d).map Prod.fst = (trail qs d').map Prod.fst) :
    ∀ o ∈ trail qs d', o.1.isOk = true := by
  intro o ho
  have hmem : o.1 ∈ (trail qs d).map Prod.fst := by
    rw [hans]
    exact List.mem_map_of_mem ho
  obtain ⟨o', ho', heq⟩ := List.mem_map.1 hmem
  rw [← heq]
  exact hok o' ho'

/-- **The bits of a run** that is answered throughout are what its
decisions cost, and the leading zeros of the last value, less those of
the first. -/
theorem position_afterAll (hr : d.registers.Sound)
    (hok : ∀ o ∈ trail qs d, o.1.isOk = true) :
    (d.afterAll qs).position + d.registers.valueScale =
      d.position + (d.afterAll qs).registers.valueScale + spent qs d := by
  induction qs generalizing d with
  | nil => rfl
  | cons q qs ih =>
    obtain ⟨bin, -, hd⟩ := decide_of_outcome (hok _ List.mem_cons_self)
    have hstep := position_of_decide_ok hr hd
    have hrest := ih (sound_outcome hr q) fun o ho => hok o (List.mem_cons_of_mem _ ho)
    rw [afterAll_cons, spent]
    omega

/-- **Decoders that answer alike stay in step**: they hold the same range
and have spent the same. -/
theorem inStep_of_trail (hr : d.registers.Sound) (hr' : d'.registers.Sound)
    (hsame : d.registers.SameRange d'.registers)
    (hok : ∀ o ∈ trail qs d, o.1.isOk = true)
    (hans : (trail qs d).map Prod.fst = (trail qs d').map Prod.fst) :
    (d.afterAll qs).registers.SameRange (d'.afterAll qs).registers ∧
      spent qs d = spent qs d' := by
  induction qs generalizing d d' with
  | nil => exact ⟨hsame, rfl⟩
  | cons q qs ih =>
    rw [trail, trail, List.map_cons, List.map_cons, List.cons.injEq] at hans
    obtain ⟨hfirst, hothers⟩ := hans
    -- the first decision is answered on both sides, and alike
    obtain ⟨bin, hbin, hd⟩ := decide_of_outcome (hok _ List.mem_cons_self)
    rw [hbin] at hfirst
    obtain ⟨bin', hbin', hd'⟩ := decide_of_outcome (q := q) (d := d') (by rw [← hfirst]; rfl)
    obtain rfl : bin = bin' := by
      rw [hbin'] at hfirst
      exact Except.ok.inj hfirst
    obtain ⟨hrange, hspent⟩ := ih (sound_outcome hr q) (sound_outcome hr' q)
      (sameRange_of_decide_ok hr hr' hsame hd hd')
      (fun o ho => hok o (List.mem_cons_of_mem _ ho)) hothers
    refine ⟨hrange, ?_⟩
    rw [spent, spent, hspent, cost_of_decide_ok hd, cost_of_decide_ok hd',
      hsame.renewalCost_eq]

end Runs

/-- All decoders start with the same range. -/
theorem sameRange_ofSource {source s : σ} {source' s' : τ} (hopen : ofSource source = .ok d s)
    (hopen' : ofSource source' = .ok d' s') : d.registers.SameRange d'.registers := by
  obtain ⟨_, _, -, -, -, -, hr⟩ := ofSource_ok hopen
  obtain ⟨_, _, -, -, -, -, hr'⟩ := ofSource_ok hopen'
  rw [hr, hr']
  exact ⟨rfl, rfl⟩

/-- What a decoder has taken at its start. -/
theorem position_ofSource {source s : σ} (hopen : ofSource source = .ok d s) :
    d.position = BitInput.position source + 9 + d.registers.valueScale := by
  obtain ⟨bits, scale, ht, hlen, -, -, hr⟩ := ofSource_ok hopen
  rw [RangeDecoder.position, ht.position_eq, hlen, hr]
  exact (Nat.add_assoc _ _ _).symm

/-- The bits taken since a position, without the leading zeros of the
value. -/
def netBits (d : RangeDecoder σ) (start : ℕ) : ℤ :=
  d.position - start - d.registers.valueScale

/-- **Range and bits go by the decisions and their answers alone.** Two
decoders that answer alike hold the same range after every decision and
have taken the same bits but for the leading zeros of their values: nine,
and the cost of the decisions. -/
theorem accounting_of_answers {source s : σ} {source' s' : τ} {qs : List Decision}
    (hopen : ofSource source = .ok d s) (hopen' : ofSource source' = .ok d' s')
    (hok : ∀ o ∈ trail qs d, o.1.isOk = true)
    (hans : (trail qs d).map Prod.fst = (trail qs d').map Prod.fst) :
    (∀ n ≤ qs.length,
      (d.afterAll (qs.take n)).registers.SameRange (d'.afterAll (qs.take n)).registers ∧
      (d.afterAll (qs.take n)).netBits (BitInput.position source) =
        (d'.afterAll (qs.take n)).netBits (BitInput.position source') ∧
      (d.afterAll (qs.take n)).position = BitInput.position source + 9 +
        (d.afterAll (qs.take n)).registers.valueScale + spent (qs.take n) d ∧
      (d'.afterAll (qs.take n)).position = BitInput.position source' + 9 +
        (d'.afterAll (qs.take n)).registers.valueScale + spent (qs.take n) d') ∧
    ∀ (before : List Decision) (q : Decision) (bin : Bool) (after : RangeDecoder σ),
      q.decide (d.afterAll before) = .ok bin after →
        (bin = q.predicted → after.position = (d.afterAll before).position) ∧
        (bin = !q.predicted → (d.afterAll before).position < after.position) := by
  have hr := sound_of_ofSource hopen
  have hr' := sound_of_ofSource hopen'
  refine ⟨?_, ?_⟩
  · intro n _
    have hok' := isOk_trail_take hok n
    have hans' : (trail (qs.take n) d).map Prod.fst = (trail (qs.take n) d').map Prod.fst := by
      rw [trail_take, trail_take, List.map_take, List.map_take, hans]
    obtain ⟨hrange, hspent⟩ :=
      inStep_of_trail hr hr' (sameRange_ofSource hopen hopen') hok' hans'
    have hposition := position_afterAll hr hok'
    have hposition' := position_afterAll hr' (isOk_trail_of_map_eq hok' hans')
    rw [position_ofSource hopen] at hposition
    rw [position_ofSource hopen'] at hposition'
    refine ⟨hrange, ?_, by omega, by omega⟩
    unfold netBits
    omega
  · intro before q bin after hd
    exact reads_of_decide_ok (sound_afterAll hr before) hd

/-- Bits on a tape and bytes behind a cursor that are answered alike, and
end with values of different scale. -/
theorem accounting_of_answers_four :
    let source := BitTape.ofList [true, true, false, true, false, false, true, true, false, true,
      true, false]
    let source' := ByteCursor.ofBytes #[0xC1, 0xD0]
    let qs : List Decision := [.bypass, .bin true 700, .bypass, .bin true 900]
    let d : RangeDecoder BitTape := ⟨⟨[true, true, false], 9⟩, ⟨0, 255, 0, 166⟩⟩
    let d' : RangeDecoder ByteCursor := ⟨source'.advance 9 (by decide), ⟨0, 255, 0, 131⟩⟩
    ofSource source = .ok d d.source ∧ ofSource source' = .ok d' d'.source ∧
      (trail qs d).map Prod.fst = (trail qs d').map Prod.fst ∧
      (d.afterAll qs).registers.valueScale = 0 ∧ (d'.afterAll qs).registers.valueScale = 4 ∧
      (d.afterAll qs).registers.SameRange (d'.afterAll qs).registers ∧
      (d.afterAll qs).netBits 0 = (d'.afterAll qs).netBits 0 ∧
      (d.afterAll qs).position = 0 + 9 + 0 + spent qs d ∧
      (d'.afterAll qs).position = 0 + 9 + 4 + spent qs d' := by
  intro source source' qs d d'
  have hopen : ofSource source = .ok d d.source := by decide +kernel
  have hopen' : ofSource source' = .ok d' d'.source := by decide +kernel
  have hans : (trail qs d).map Prod.fst = (trail qs d').map Prod.fst := by decide +kernel
  have hok : ∀ o ∈ trail qs d, o.1.isOk = true := by decide +kernel
  have hscale : (d.afterAll qs).registers.valueScale = 0 := by decide +kernel
  have hscale' : (d'.afterAll qs).registers.valueScale = 4 := by decide +kernel
  have hall := (accounting_of_answers hopen hopen' hok hans).1 qs.length le_rfl
  have hstart : BitInput.position source = 0 := rfl
  have hstart' : BitInput.position source' = 0 := rfl
  rw [List.take_length, hscale, hscale', hstart, hstart'] at hall
  exact ⟨hopen, hopen', hans, hscale, hscale', hall⟩

end RangeDecoder

end AvsEntropy
