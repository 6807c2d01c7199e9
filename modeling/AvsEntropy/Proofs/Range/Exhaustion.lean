import AvsEntropy.Bits.ByteCursor
import AvsEntropy.Proofs.Range.Depth

/-!
# After the last bit

A decision that fails leaves the registers as they were, but the bits it
consumed stay consumed. So it may have emptied the source, and what it
wanted to know is lost. It does no harm, for every renewal needs a fresh
bit (`Renewed.bits_ne_nil`): at the end of its bits a decoder answers as
predicted or not at all, and its source stays what it is
(`Sound.decide_of_atEnd`). All that can still change is the range, which
comes down (`Fades`), and a decision that failed once fails from then on.
-/

namespace AvsEntropy

open BitInput

namespace RangeDecoder

variable {σ : Type} [BitInput σ]

/-! ## The steps of a renewal -/

section Renewal

variable {s : σ}

theorem idle_normalize (hend : pending s = []) (scale value : ℕ) :
    Idle (normalize (σ := σ) scale value) s := by
  unfold Idle
  fun_cases normalize scale value s with
  | case1 h => rfl
  | case2 h hn => rfl
  | case3 h bit rest hn hscale => rw [next?_eq_none hend] at hn; cases hn
  | case4 h bit rest hn hscale => rw [next?_eq_none hend] at hn; cases hn

omit [BitInput σ] in
theorem idle_distance (s : σ) (value cut : ℕ) : Idle (distance (σ := σ) value cut) s := by
  unfold distance
  cases difference? value cut with
  | some above => rfl
  | none => rfl

theorem idle_excess (hend : pending s = []) (r : Registers) (cut : Split) :
    Idle (excess (σ := σ) r cut) s := by
  unfold excess
  split
  · exact idle_distance s _ _
  · exact (idle_readBit hend).bind fun bit => idle_distance s _ _

/-- **A renewal at the end of the bits leaves the source as it is.** -/
theorem idle_renew (hend : pending s = []) (r : Registers) (cut : Split) (width : ℕ) :
    Idle (renew (σ := σ) r cut width) s := by
  refine Idle.bind ?_ fun found => rfl
  unfold renewalValue
  by_cases hsevered : r.severed cut width = 0
  · simp only [if_pos hsevered]
    rfl
  · simp only [if_neg hsevered]
    refine (idle_excess hend r cut).bind fun above => ?_
    refine (idle_appendBits hend _ above).bind fun above => ?_
    exact (idle_normalize hend 0 above).bind fun found => rfl

end Renewal

variable {d d' : RangeDecoder σ} {q : Decision}

/-- A decision at the end of the bits leaves the source as it is. -/
theorem source_outcome (hend : pending d.source = []) (q : Decision) :
    (outcome q d).2.source = d.source := by
  have hidle := idle_renew hend d.registers (d.registers.split (q.probability / 4))
    (q.probability / 4)
  unfold outcome
  rw [q.decide_eq]
  unfold decideBin
  dsimp only
  by_cases hq : minProbability ≤ q.probability ∧ q.probability ≤ maxProbability
  swap
  · rw [if_neg hq]
  rw [if_pos hq]
  by_cases hadm : d.registers.Admits (q.probability / 4)
  swap
  · rw [if_neg hadm]
  rw [if_pos hadm]
  by_cases hb : d.registers.isBelow (d.registers.split (q.probability / 4)) = true
  · rw [if_pos hb]
  rw [if_neg hb]
  unfold Idle at hidle
  cases hren : renew d.registers (d.registers.split (q.probability / 4)) (q.probability / 4)
      d.source with
  | ok registers rest =>
    rw [hren] at hidle
    exact hidle
  | error stop rest =>
    rw [hren] at hidle
    exact hidle

/-- **At the end of its bits a decoder answers as predicted, or not at
all**, and if not, it stays what it is. -/
theorem Sound.decide_of_atEnd (h : d.Sound) (hend : pending d.source = []) (hq : q.InRange) :
    (d.registers.isBelow (d.registers.split q.width) = true ∧
      q.decide d = .ok q.predicted ⟨d.source, d.registers.narrow (d.registers.split q.width)⟩) ∨
    ¬ d.registers.isBelow (d.registers.split q.width) = true ∧
      q.decide d = .error (.failed .endOfStream) d := by
  rcases h.decide_cases hq with hnarrow | ⟨hb, ⟨bits, rest, value, after, ht, hren, -⟩ |
    ⟨rest, -, hd⟩⟩
  · exact .inl hnarrow
  · -- a renewal would need a bit
    have hnone := ht.pending_eq
    rw [hend] at hnone
    exact absurd (List.append_eq_nil_iff.1 hnone.symm).1 (hren.bits_ne_nil h.registers)
  · refine .inr ⟨hb, ?_⟩
    have hsource := source_outcome hend q
    unfold outcome at hsource
    rw [hd] at hsource
    rw [hd, show rest = d.source from hsource]

/-- A decision in its range that fails has taken the bits to the end, and
its value was not below the cut. -/
theorem Sound.of_decide_error (h : d.Sound) (hq : q.InRange) {stop : Stop}
    (he : q.decide d = .error stop d') :
    stop = .failed .endOfStream ∧ d'.registers = d.registers ∧ pending d'.source = [] ∧
      d'.Sound ∧ ¬ d'.registers.isBelow (d'.registers.split q.width) = true := by
  have hkept := h.after q
  unfold outcome at hkept
  rw [he] at hkept
  rcases h.decide_cases hq with ⟨-, hd⟩ | ⟨hb, ⟨_, _, _, _, -, -, hd⟩ | ⟨rest, ht, hd⟩⟩ <;>
    rw [hd] at he <;> cases he
  exact ⟨rfl, rfl, ht.pending_eq_nil, hkept, hb⟩

/-! ## What is left to happen -/

/-- A decoder with nothing changed but its range, which lies as deep or
deeper. -/
structure Fades (d d' : RangeDecoder σ) : Prop where
  source_eq : d'.source = d.source
  valueDepth_eq : d'.registers.valueDepth = d.registers.valueDepth
  rangeDepth_le : d.registers.rangeDepth ≤ d'.registers.rangeDepth

omit [BitInput σ] in
theorem Fades.refl (d : RangeDecoder σ) : Fades d d := ⟨rfl, rfl, le_rfl⟩

omit [BitInput σ] in
theorem Fades.trans {d'' : RangeDecoder σ} (h : Fades d d') (h' : Fades d' d'') : Fades d d'' where
  source_eq := h'.source_eq.trans h.source_eq
  valueDepth_eq := h'.valueDepth_eq.trans h.valueDepth_eq
  rangeDepth_le := h.rangeDepth_le.trans h'.rangeDepth_le

/-- Whatever is asked of a decoder at the end of its bits, it fades. -/
theorem Sound.fades_outcome (h : d.Sound) (hend : pending d.source = []) (q : Decision) :
    Fades d (outcome q d).2 := by
  by_cases hq : q.InRange
  · have hw := hq.width_bounds
    unfold outcome
    rcases h.decide_of_atEnd hend hq with ⟨-, hd⟩ | ⟨-, hd⟩
    · rw [hd]
      refine ⟨rfl, rfl, ?_⟩
      rw [Registers.rangeDepth_narrow,
        Registers.depth_split h.registers.rangeRest_lt (by omega : q.width ≤ 256)]
      exact Nat.le_add_right _ _
    · rw [hd]
      exact .refl d
  · unfold outcome
    rw [decide_of_not_inRange hq]
    exact .refl d

/-- And so it does over a whole run. -/
theorem Sound.fades_afterAll (h : d.Sound) (hend : pending d.source = []) (qs : List Decision) :
    Fades d (d.afterAll qs) := by
  induction qs generalizing d with
  | nil => exact .refl d
  | cons q qs ih =>
    have hfirst := h.fades_outcome hend q
    exact hfirst.trans (ih (h.after q) (hfirst.source_eq ▸ hend))

omit [BitInput σ] in
/-- **What has failed fails again**: a range that lies deeper is cut
deeper. -/
theorem Fades.not_isBelow (h : Fades d d') (hr : d.registers.Sound) (hr' : d'.registers.Sound)
    (hq : q.InRange) (hb : ¬ d.registers.isBelow (d.registers.split q.width) = true) :
    ¬ d'.registers.isBelow (d'.registers.split q.width) = true := by
  have hw := hq.width_bounds
  have hvalue := h.valueDepth_eq
  have hrange := h.rangeDepth_le
  rw [Registers.isBelow_split_iff hr hw.1 (by omega)] at hb
  rw [Registers.isBelow_split_iff hr' hw.1 (by omega)]
  omega

/-- **A decision that fails is a refusal or the end of the bits**, and
changes no register. A probability state out of range is refused, and
nothing is touched. The end of the bits is for good: whatever is asked
from then on, the position stays, the decision fails again, and any other
is answered as predicted by narrowing the range, or fails and changes
nothing. -/
theorem decide_error_cases {source s : σ} (hlen : (pending source).length < wordBound)
    (hopen : ofSource source = .ok d s) (before : List Decision) (q : Decision) :
    (¬ q.InRange → q.decide (d.afterAll before) =
      .error (.failed (.invalidArgument (.probability q.probability))) (d.afterAll before)) ∧
    ∀ (stop : Stop) (after : RangeDecoder σ), q.decide (d.afterAll before) = .error stop after →
      after.registers = (d.afterAll before).registers ∧
      ((∃ cause, stop = .failed (.invalidArgument cause)) ↔ ¬ q.InRange) ∧
      (¬ q.InRange → after.position = (d.afterAll before).position) ∧
      (q.InRange → stop = .failed .endOfStream ∧ pending after.source = [] ∧
        ∀ later : List Decision,
          (after.afterAll later).position = after.position ∧
          q.decide (after.afterAll later) =
            .error (.failed .endOfStream) (after.afterAll later) ∧
          ∀ q' : Decision, q'.InRange →
            q'.decide (after.afterAll later) = .ok q'.predicted
              ⟨(after.afterAll later).source, (after.afterAll later).registers.narrow
                ((after.afterAll later).registers.split q'.width)⟩ ∨
            q'.decide (after.afterAll later) =
              .error (.failed .endOfStream) (after.afterAll later)) := by
  have hsound := (Sound.of_ofSource hlen hopen).afterAll before
  refine ⟨fun hq => decide_of_not_inRange hq _, fun stop after herror => ?_⟩
  by_cases hq : q.InRange
  · obtain ⟨rfl, hregisters, hend, hsound', hb⟩ := hsound.of_decide_error hq herror
    have hfailed : ¬ ∃ cause, Stop.failed .endOfStream = .failed (.invalidArgument cause) := nofun
    refine ⟨hregisters, iff_of_false hfailed (not_not_intro hq), fun h => absurd hq h,
      fun _ => ⟨rfl, hend, fun later => ?_⟩⟩
    have hfades := hsound'.fades_afterAll hend later
    have hlater := hsound'.afterAll later
    have hend' : pending (after.afterAll later).source = [] := by
      rw [hfades.source_eq]
      exact hend
    refine ⟨?_, ?_, fun q' hq' => ?_⟩
    · unfold RangeDecoder.position
      rw [hfades.source_eq]
    · have hb' := hfades.not_isBelow hsound'.registers hlater.registers hq hb
      exact ((hlater.decide_of_atEnd hend' hq).resolve_left fun hbelow => hb' hbelow.1).2
    · exact (hlater.decide_of_atEnd hend' hq').imp And.right And.right
  · rw [decide_of_not_inRange hq] at herror
    cases herror
    exact ⟨rfl, iff_of_true ⟨_, rfl⟩ hq, fun _ => rfl, fun h => absurd h hq⟩

/-- A bypass bin that takes the last two bits and fails. The stuffing bit
after it is answered, and the bypass bin fails again. -/
theorem decide_error_cases_bypass :
    let source := ByteCursor.ofBytes #[0x9A, 0x53, 0x0B]
    let d : RangeDecoder ByteCursor := ⟨source.advance 9 (by decide), ⟨0, 255, 0, 52⟩⟩
    let before : List Decision := .bin true 700 :: List.replicate 12 .bypass
    let after : RangeDecoder ByteCursor := ⟨source.advance 24 (by decide), ⟨1, 76, 2, 110⟩⟩
    (pending source).length < wordBound ∧ ofSource source = .ok d d.source ∧
      Decision.bypass.InRange ∧ (d.afterAll before).position = 22 ∧
      Decision.bypass.decide (d.afterAll before) = .error (.failed .endOfStream) after ∧
      after.registers = (d.afterAll before).registers ∧ pending after.source = [] ∧
      Decision.stuffing.decide after = .ok false (after.afterAll [.stuffing]) ∧
      Decision.bypass.decide (after.afterAll [.stuffing]) =
        .error (.failed .endOfStream) (after.afterAll [.stuffing]) := by
  intro source d before after
  have hlen : (pending source).length < wordBound := by decide
  have hopen : ofSource source = .ok d d.source := by decide +kernel
  have hq : Decision.bypass.InRange := by decide
  have hbefore : (d.afterAll before).position = 22 := by decide +kernel
  have herror : Decision.bypass.decide (d.afterAll before) =
      .error (.failed .endOfStream) after := by decide +kernel
  have hstuffing : Decision.stuffing.decide after = .ok false (after.afterAll [.stuffing]) := by
    decide +kernel
  obtain ⟨hregisters, -, -, hend⟩ := (decide_error_cases hlen hopen before .bypass).2 _ _ herror
  obtain ⟨-, hpending, hlater⟩ := hend hq
  exact ⟨hlen, hopen, hq, hbefore, herror, hregisters, hpending, hstuffing,
    (hlater [.stuffing]).2.1⟩

end RangeDecoder

end AvsEntropy
