import AvsEntropy.Proofs.Bits.Extension
import AvsEntropy.Range.Decoder

/-!
# Decoding a source cut short

A decoder does not look ahead: it knows how many bits are left only when
there are none. So on a source that was cut short it does what it does on
the whole one, up to the decision that misses a bit. `Agrees` relates the
two decoders, and every step of a renewal, the start and the decision are
`InStep`.
-/

namespace AvsEntropy

open BitInput

namespace RangeDecoder

variable {σ τ : Type} [BitInput σ] [BitInput τ] {more : List Bool} {s : σ} {s' : τ}

/-- Two decoders with the same registers, of which the second has `more`
bits to come after those of the first. -/
structure Agrees (more : List Bool) (d : RangeDecoder σ) (d' : RangeDecoder τ) : Prop where
  registers_eq : d'.registers = d.registers
  source : Extends more d.source d'.source

/-! ## The steps of a renewal -/

/-- Short of nine bits, a value goes on with the next one. -/
theorem normalize_of_next? {scale value : ℕ} {bit : Bool} {rest : σ} (hvalue : ¬ 256 ≤ value)
    (hn : next? s = some (bit, rest)) :
    normalize scale value s =
      if scale + 1 < wordBound then normalize (scale + 1) (2 * value + bit.toNat) rest
      else .error .fault rest := by
  rw [normalize, if_neg hvalue]
  split
  · rename_i hnone
    rw [hn] at hnone
    cases hnone
  · rename_i hsome
    rw [hn] at hsome
    cases hsome
    rfl

theorem inStep_normalize (h : Extends more s s') (scale value : ℕ) :
    InStep (Extends more) (normalize scale value s) (normalize scale value s') := by
  -- by the bits of the shorter source, each of which the longer one has too
  fun_induction normalize scale value s generalizing s' with
  | case1 scale value s hvalue =>
    rw [normalize, if_pos hvalue]
    exact ⟨s', rfl, h⟩
  | case2 scale value s hvalue hn => exact .inl rfl
  | case3 scale value s hvalue bit rest hn hscale ih =>
    obtain ⟨rest', hn', hrest⟩ := h.next? hn
    rw [normalize_of_next? hvalue hn', if_pos hscale]
    exact ih hrest
  | case4 scale value s hvalue bit rest hn hscale =>
    obtain ⟨rest', hn', hrest⟩ := h.next? hn
    rw [normalize_of_next? hvalue hn', if_neg hscale]
    exact .inr ⟨rest', rfl, hrest⟩

theorem inStep_distance (h : Extends more s s') (value cut : ℕ) :
    InStep (Extends more) (distance value cut s) (distance value cut s') := by
  unfold distance
  cases difference? value cut with
  | some above => exact ⟨s', rfl, h⟩
  | none => exact .inr ⟨s', rfl, h⟩

theorem inStep_excess (h : Extends more s s') (r : Registers) (cut : Split) :
    InStep (Extends more) (excess r cut s) (excess r cut s') := by
  unfold excess
  by_cases hscale : cut.scale = r.valueScale
  · rw [if_pos hscale, if_pos hscale]
    exact inStep_distance h _ _
  · rw [if_neg hscale, if_neg hscale]
    exact h.readBit.bind fun bit t t' ht => inStep_distance ht _ _

/-- **A renewal that has its bits needs no more.** -/
theorem inStep_renew (h : Extends more s s') (r : Registers) (cut : Split) (width : ℕ) :
    InStep (Extends more) (renew r cut width s) (renew r cut width s') := by
  refine InStep.bind ?_ fun found t t' ht => ⟨t', rfl, ht⟩
  unfold renewalValue
  by_cases hsevered : r.severed cut width = 0
  · simp only [if_pos hsevered]
    exact .inr ⟨s', rfl, h⟩
  · simp only [if_neg hsevered]
    refine (inStep_excess h r cut).bind fun above t t' ht => ?_
    refine (ht.appendBits _ above).bind fun above t t' ht => ?_
    exact (inStep_normalize ht 0 above).bind fun found t t' ht => ⟨t', rfl, ht⟩

/-! ## The decoder -/

theorem inStep_start (h : Extends more s s') : InStep (Extends more) (start s) (start s') := by
  unfold start
  refine (h.readWord (by decide)).bind fun word t t' ht => ?_
  exact (inStep_normalize ht 0 word).bind fun found t t' ht => ⟨t', rfl, ht⟩

/-- **A decoder starts the same on the longer source**, if it does not
miss a bit already. -/
theorem ofSource_inStep (h : Extends more s s') :
    (∃ t, ofSource s = .error (.failed .endOfStream) t) ∨
    (∃ stop t t', ofSource s = .error stop t ∧ ofSource s' = .error stop t') ∨
    ∃ d t d' t', ofSource s = .ok d t ∧ ofSource s' = .ok d' t' ∧ Agrees more d d' := by
  have hstart := inStep_start h
  unfold ofSource
  rcases hstart.cases with ⟨registers, t, t', hs, hs', ht⟩ | ⟨t, hs⟩ | ⟨stop, t, t', hs, hs', -⟩
  · rw [bind_ok hs, bind_ok hs']
    exact .inr (.inr ⟨_, _, _, _, rfl, rfl, rfl, ht⟩)
  · rw [bind_error hs]
    exact .inl ⟨t, rfl⟩
  · rw [bind_error hs, bind_error hs']
    exact .inr (.inl ⟨stop, t, t', rfl, rfl⟩)

/-- **A decision that has its bits needs no more.** -/
theorem Agrees.decideBin {d : RangeDecoder σ} {d' : RangeDecoder τ} (h : Agrees more d d')
    (predicted : Bool) (probability : ℕ) :
    InStep (Agrees more) (decideBin predicted probability d)
      (decideBin predicted probability d') := by
  unfold RangeDecoder.decideBin
  dsimp only
  -- the registers choose the branch, and only a renewal looks at the source
  rw [h.registers_eq]
  by_cases hp : minProbability ≤ probability ∧ probability ≤ maxProbability
  swap
  · rw [if_neg hp, if_neg hp]
    exact .inr ⟨d', rfl, h⟩
  rw [if_pos hp, if_pos hp]
  by_cases hadm : d.registers.Admits (probability / 4)
  swap
  · rw [if_neg hadm, if_neg hadm]
    exact .inr ⟨d', rfl, h⟩
  rw [if_pos hadm, if_pos hadm]
  by_cases hb : d.registers.isBelow (d.registers.split (probability / 4)) = true
  · rw [if_pos hb, if_pos hb]
    exact ⟨_, rfl, rfl, h.source⟩
  rw [if_neg hb, if_neg hb]
  have hrenew := inStep_renew h.source d.registers (d.registers.split (probability / 4))
    (probability / 4)
  rcases hrenew.cases with ⟨registers, t, t', hr, hr', ht⟩ | ⟨t, hr⟩ | ⟨stop, t, t', hr, hr', ht⟩
  · rw [hr, hr']
    exact ⟨_, rfl, rfl, ht⟩
  · rw [hr]
    exact .inl rfl
  · rw [hr, hr']
    exact .inr ⟨_, rfl, rfl, ht⟩

end RangeDecoder

end AvsEntropy
