import AvsEntropy.Bits.Tape
import AvsEntropy.Proofs.Range.Decisions

/-!
# The value inside the range

The registers keep eight bits of the value, and a renewal cuts the value
it finds to these eight. Nothing is lost as long as the value lies inside
the range, `Registers.Inside`: it then has nine bits after a renewal, the
first of which is a one, and lies inside the new range
(`Renewed.inside_iff`). Every decision keeps it there.

A code starts with its value inside the range, unless it starts with nine
ones (`inside_ofSource_iff`). The value is then as large as the range,
every answer goes against the prediction, and a renewal may find a value
of more than nine bits (`nine_ones_lose_bits`).
-/

namespace AvsEntropy

open BitInput

namespace Registers

/-- The value lies inside the range: it has more leading zeros, or as many
and a smaller rest. -/
def Inside (r : Registers) : Prop :=
  r.rangeScale < r.valueScale ∨ r.rangeScale = r.valueScale ∧ r.valueRest < r.rangeRest

instance : DecidablePred Inside := fun _ => inferInstanceAs (Decidable (_ ∨ _))

variable {r : Registers} {width : ℕ}

/-- The value lies inside a narrowed range exactly where it is below the
cut. -/
theorem inside_narrow_iff {cut : Split} : (r.narrow cut).Inside ↔ r.isBelow cut = true :=
  isBelow_iff.symm

/-- In a range that was not halved yet, the value is compared as a number
with as many places more as it has leading zeros. -/
theorem inside_iff_lt (hscale : r.rangeScale = 0) (hrest : r.valueRest < 256) :
    r.Inside ↔ 256 + r.valueRest < (256 + r.rangeRest) * 2 ^ r.valueScale := by
  rw [Inside, hscale]
  rcases Nat.eq_zero_or_pos r.valueScale with hzero | hpos
  · rw [hzero, pow_zero, Nat.mul_one]
    omega
  · have hdouble : 512 ≤ (256 + r.rangeRest) * 2 ^ r.valueScale := by
      calc 512 = 256 * 2 ^ 1 := rfl
        _ ≤ (256 + r.rangeRest) * 2 ^ r.valueScale :=
          Nat.mul_le_mul (Nat.le_add_right _ _) (Nat.pow_le_pow_right (by decide) hpos)
    omega

/-- **The range ends where the severed end does.** A value that is not
below the cut lies inside the range exactly where it is below that end,
after any bits that follow it. -/
theorem inside_iff_appended_lt (hr : r.Sound) (hw : width ≤ 256)
    (hle : r.valueScale ≤ (r.split width).scale) {bits : List Bool} {places : ℕ}
    (hlen : bits.length = (r.split width).scale - r.valueScale + places) :
    r.Inside ↔ appended (256 + r.valueRest) bits <
      (256 + (r.split width).rest + r.severed (r.split width) width) * 2 ^ places := by
  have hrest := hr.valueRest_lt
  have hscale := hr.rangeScale_le
  rcases r.split_cases width with ⟨hle', hs, hn⟩ | ⟨hlt, hs, hn⟩
  · rw [hs] at hle hlen
    rw [hn, hs]
    dsimp only at hle hlen ⊢
    have hplaces : bits.length = places := by omega
    have hend : 256 + (r.rangeRest - width) + width = 256 + r.rangeRest := by omega
    rw [hend, ← hplaces, appended_lt_iff, Inside]
    omega
  · rw [hs] at hle hlen
    rw [hn, hs]
    dsimp only at hle hlen ⊢
    have hend : 256 + (256 + r.rangeRest - width) + (width + r.rangeRest) =
        (256 + r.rangeRest) * 2 := by omega
    -- the cut lies a step of scale deeper than the range, the value with one or the other
    by_cases heq : r.valueScale = r.rangeScale
    · have hplaces : bits.length = places + 1 := by omega
      rw [hend, Nat.mul_assoc, ← pow_succ', ← hplaces, appended_lt_iff, Inside]
      omega
    · have hplaces : bits.length = places := by omega
      rw [hend, ← hplaces, appended_lt_iff, Inside]
      omega

end Registers

namespace RangeDecoder

variable {σ : Type} [BitInput σ] {d : RangeDecoder σ}

/-! ## One renewal -/

section Renewal

variable {r after : Registers} {width value : ℕ} {bits : List Bool}

/-- **A renewal finds a value of nine bits inside the new range exactly
where the old value lay inside the old range.** -/
theorem Renewed.inside_iff (h : Renewed r width bits value after) (hr : r.Sound) (hw : 1 ≤ width)
    (hw' : width ≤ 256) (hb : ¬ r.isBelow (r.split width) = true) :
    r.Inside ↔ value < 512 ∧ after.Inside := by
  have hle := Registers.valueScale_le_of_not_isBelow hb
  have hlen : bits.length = (r.split width).scale - r.valueScale +
      (doublings (r.severed (r.split width) width) + after.valueScale) := by
    rw [h.length_eq, Nat.add_assoc]
  -- the severed end and the new range are one width
  have hwidth : r.severed (r.split width) width *
      2 ^ (doublings (r.severed (r.split width) width) + after.valueScale) =
        (256 + after.rangeRest) * 2 ^ after.valueScale := by
    rw [pow_add, ← Nat.mul_assoc, ← h.rangeRest_eq]
  rw [Registers.inside_iff_appended_lt hr hw' hle hlen, h.appended_eq,
    Nat.add_mul (256 + _) (r.severed _ _), hwidth, Nat.add_comm value, Nat.add_lt_add_iff_left]
  have hsound := h.sound hw hw'
  have hnine := h.le_value
  have hrest := h.valueRest_eq
  rcases Nat.lt_or_ge value 512 with hlt | hge
  · have hvalue : value = 256 + after.valueRest := by omega
    rw [Registers.inside_iff_lt h.rangeScale_eq hsound.valueRest_lt, ← hvalue]
    exact (and_iff_right hlt).symm
  · -- a tenth bit comes from the bits above the nine, not from the count
    have hzero : after.valueScale = 0 := by
      by_contra hne
      exact absurd (h.value_lt (Nat.pos_of_ne_zero hne)) (Nat.not_lt.2 hge)
    have hrange := hsound.rangeRest_lt
    rw [hzero, pow_zero, Nat.mul_one]
    omega

end Renewal

/-! ## One decision -/

section Decision

variable {q : Decision} {bin : Bool} {after : RangeDecoder σ}

/-- A decision that is answered against its prediction is a renewal. -/
theorem renew_of_decide_ok (hb : ¬ d.registers.isBelow (d.registers.split q.width) = true)
    (hok : q.decide d = .ok bin after) :
    renew d.registers (d.registers.split q.width) q.width d.source =
      .ok after.registers after.source := by
  unfold Decision.width at hb ⊢
  rw [q.decide_eq] at hok
  unfold decideBin at hok
  dsimp only at hok
  split at hok
  · split at hok
    · split at hok
      · cases hok
        assumption
      · cases hok
    · cases hok
  · cases hok

/-- **The value that a renewal finds**, and what the registers keep of
it. -/
theorem renewal_of_decide_ok (hr : d.registers.Sound)
    (hok : q.decide d = .ok (!q.predicted) after) :
    ¬ d.registers.isBelow (d.registers.split q.width) = true ∧
      ∃ bits scale value, Renewed d.registers q.width bits value after.registers ∧
        renewalValue d.registers (d.registers.split q.width) q.width d.source =
          .ok (scale, value) after.source := by
  have hq := inRange_of_decide_ok hok
  have hw := hq.width_bounds
  have hb : ¬ d.registers.isBelow (d.registers.split q.width) = true := by
    rcases decide_ok hr hq hok with ⟨-, hbin, -⟩ | ⟨hb, -, -⟩
    · exact absurd hbin (Bool.not_ne_self _)
    · exact hb
  have hren := renew_of_decide_ok hb hok
  rw [renew] at hren
  refine ⟨hb, ?_⟩
  rcases renewalValue_cases hr hw.1 (by omega) hb d.source with
    ⟨bits, rest, scale, value, -, hrenewed, hfound⟩ | ⟨rest, -, -, he⟩ | ⟨rest, -, he⟩
  · rw [bind_ok hfound] at hren
    injection hren with hregs hrest
    rw [hregs] at hrenewed
    rw [hrest] at hfound
    exact ⟨bits, scale, value, hrenewed, hfound⟩
  · rw [bind_error he] at hren
    cases hren
  · rw [bind_error he] at hren
    cases hren

/-- **An answered decision keeps the value inside the range.** -/
theorem inside_of_decide_ok (hr : d.registers.Sound) (hin : d.registers.Inside)
    (hok : q.decide d = .ok bin after) : after.registers.Inside := by
  have hq := inRange_of_decide_ok hok
  have hw := hq.width_bounds
  rcases decide_ok hr hq hok with ⟨hb, -, rfl⟩ | ⟨hb, -, bits, value, -, hren⟩
  · exact Registers.inside_narrow_iff.2 hb
  · exact ((hren.inside_iff hr hw.1 (by omega) hb).1 hin).2

end Decision

/-- Whatever comes of a decision, the value stays inside the range. -/
theorem inside_outcome (hr : d.registers.Sound) (hin : d.registers.Inside) (q : Decision) :
    (outcome q d).2.registers.Inside := by
  unfold outcome
  cases hd : q.decide d with
  | ok bin after => exact inside_of_decide_ok hr hin hd
  | error stop after =>
    rw [registers_of_error hd]
    exact hin

/-! ## Whole runs -/

/-- Once the value is inside the range, it stays there. -/
theorem inside_afterAll (hr : d.registers.Sound) (hin : d.registers.Inside) (qs : List Decision) :
    (d.afterAll qs).registers.Inside := by
  induction qs generalizing d with
  | nil => exact hin
  | cons q qs ih => exact ih (sound_outcome hr q) (inside_outcome hr hin q)

/-- **A code starts with its value inside the range, unless it starts with
nine ones.** -/
theorem inside_ofSource_iff {source s : σ} (hopen : ofSource source = .ok d s) :
    d.registers.Inside ↔ (pending source).take 9 ≠ List.replicate 9 true := by
  obtain ⟨bits, scale, ht, hlen, hge, hlt, hr⟩ := ofSource_ok hopen
  have hfirst : (pending source).take 9 = bits.take 9 := by
    rw [ht.pending_eq, List.take_append_of_le_length (by omega)]
  have hlong : (bits.take 9).length = 9 := by
    rw [List.length_take]
    omega
  have hones : appended 0 (List.replicate 9 true) = 511 := rfl
  rw [hfirst, hr, Registers.Inside]
  dsimp only
  constructor
  · intro hin hnine
    -- nine ones are nine bits already, and the largest number they make
    have hsplit := appended_append 0 (bits.take 9) (bits.drop 9)
    rw [List.take_append_drop, hnine, hones, appended_eq 511, List.length_drop, hlen,
      Nat.add_sub_cancel_left] at hsplit
    rcases Nat.eq_zero_or_pos scale with rfl | hpos
    · rw [pow_zero, Nat.mul_one] at hsplit
      omega
    · have hpow : 2 ^ 1 ≤ 2 ^ scale := Nat.pow_le_pow_right (by decide) hpos
      omega
  · intro hnine
    rcases Nat.eq_zero_or_pos scale with rfl | hpos
    · rw [List.take_of_length_le (by omega)] at hnine
      have hne : bits ≠ List.replicate bits.length true := by rwa [hlen]
      have hlast := appended_zero_succ_lt hne
      rw [hlen] at hlast
      omega
    · exact .inl hpos

/-- The value was inside the range at some point of a run. -/
def WasInside (d : RangeDecoder σ) (qs : List Decision) : Prop :=
  ∃ n ≤ qs.length, (d.afterAll (qs.take n)).registers.Inside

/-- A value that was inside the range once is inside it at the end. -/
theorem WasInside.inside_afterAll {qs : List Decision} (h : WasInside d qs)
    (hr : d.registers.Sound) : (d.afterAll qs).registers.Inside := by
  obtain ⟨n, -, hin⟩ := h
  have hlater := RangeDecoder.inside_afterAll (sound_afterAll hr _) hin (qs.drop n)
  rwa [← afterAll_append, List.take_append_drop] at hlater

/-- **What is cut off the value is its leading one, and nothing else**, from
the point on where the value lies inside the range; and there it stays.
That point is the start, unless the code starts with nine ones. -/
theorem renewal_keeps_value {source s : σ} (hopen : ofSource source = .ok d s) :
    (d.registers.Inside ↔ (pending source).take 9 ≠ List.replicate 9 true) ∧
    ∀ {qs : List Decision} {q : Decision} {bin : Bool} {after : RangeDecoder σ},
      q.decide (d.afterAll qs) = .ok bin after →
      (WasInside d qs → after.registers.Inside) ∧
      (bin = !q.predicted → ∃ scale value,
        renewalValue (d.afterAll qs).registers ((d.afterAll qs).registers.split q.width) q.width
          (d.afterAll qs).source = .ok (scale, value) after.source ∧
        after.registers.valueRest = value % 256 ∧ 256 ≤ value ∧
        (WasInside d qs → value < 512 ∧ value = 256 + after.registers.valueRest)) := by
  refine ⟨inside_ofSource_iff hopen, fun {qs q bin after} hok => ?_⟩
  have hstart := sound_of_ofSource hopen
  have hsound := sound_afterAll hstart qs
  have hw := (inRange_of_decide_ok hok).width_bounds
  constructor
  · intro hwas
    exact inside_of_decide_ok hsound (hwas.inside_afterAll hstart) hok
  · rintro rfl
    obtain ⟨hb, bits, scale, value, hren, hfound⟩ := renewal_of_decide_ok hsound hok
    have hrest := hren.valueRest_eq
    have hnine := hren.le_value
    refine ⟨scale, value, hfound, hrest, hnine, fun hwas => ?_⟩
    have hin := (hren.inside_iff hsound hw.1 (by omega) hb).1 (hwas.inside_afterAll hstart)
    exact ⟨hin.1, by omega⟩

/-- A code of ones alone: its value is inside the range after the second
decision, and its third is a renewal that loses nothing. -/
theorem renewal_keeps_value_ones :
    let source := BitTape.ofList (List.replicate 20 true)
    let d : RangeDecoder BitTape := ⟨⟨List.replicate 11 true, 9⟩, ⟨0, 255, 0, 255⟩⟩
    let qs : List Decision := [.bin false 4, .bin false 1023]
    let after : RangeDecoder BitTape := ⟨⟨[], 20⟩, ⟨0, 253, 0, 252⟩⟩
    ofSource source = .ok d d.source ∧
      Decision.bypass.decide (d.afterAll qs) = .ok true after ∧ WasInside d qs ∧
      after.registers.Inside ∧ ∃ scale value,
        renewalValue (d.afterAll qs).registers
          ((d.afterAll qs).registers.split Decision.bypass.width) Decision.bypass.width
          (d.afterAll qs).source = .ok (scale, value) after.source ∧ 256 ≤ value ∧ value < 512 := by
  intro source d qs after
  have hopen : ofSource source = .ok d d.source := by decide +kernel
  have hok : Decision.bypass.decide (d.afterAll qs) = .ok true after := by decide +kernel
  have hwas : WasInside d qs := ⟨2, by decide, by decide +kernel⟩
  obtain ⟨hinside, hvalue⟩ := (renewal_keeps_value hopen).2 hok
  obtain ⟨scale, value, hfound, -, hnine, hlt⟩ := hvalue rfl
  exact ⟨hopen, hok, hwas, hinside hwas, scale, value, hfound, hnine, (hlt hwas).1⟩

/-- **Nine ones lose bits.** The value starts as large as the range. After
one renewal it is past the range, and the next one finds a value of
eleven bits, of which three are cut off. -/
theorem nine_ones_lose_bits :
    let source := BitTape.ofList (List.replicate 20 true)
    let d : RangeDecoder BitTape := ⟨⟨List.replicate 11 true, 9⟩, ⟨0, 255, 0, 255⟩⟩
    let first : Decision := .bin false 4
    let second : Decision := .bin false 1023
    let between : RangeDecoder BitTape := ⟨⟨List.replicate 3 true, 17⟩, ⟨0, 0, 0, 255⟩⟩
    let after : RangeDecoder BitTape := ⟨⟨[true], 19⟩, ⟨0, 254, 0, 253⟩⟩
    ofSource source = .ok d d.source ∧ first.InRange ∧ second.InRange ∧
      first.decide d = .ok (!first.predicted) between ∧ ¬ between.registers.Inside ∧
      second.decide between = .ok (!second.predicted) after ∧
      renewalValue between.registers (between.registers.split second.width) second.width
        between.source = .ok (0, 1533) after.source ∧ ¬ 1533 < 512 := by
  intro source d first second between after
  have hopen : ofSource source = .ok d d.source := by decide +kernel
  have hfirst : first.decide d = .ok (!first.predicted) between := by decide +kernel
  have hsecond : second.decide between = .ok (!second.predicted) after := by decide +kernel
  have hvalue : renewalValue between.registers (between.registers.split second.width) second.width
      between.source = .ok (0, 1533) after.source := by decide +kernel
  exact ⟨hopen, by decide, by decide, hfirst, by decide, hsecond, hvalue, by decide⟩

end RangeDecoder

end AvsEntropy
