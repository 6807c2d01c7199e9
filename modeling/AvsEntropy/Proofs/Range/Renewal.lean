import AvsEntropy.Proofs.Bits.Taking
import AvsEntropy.Range.Decoder

/-!
# What a decision does

A decision narrows the range or renews it. `decideBin_cases` lists its
outcomes with everything a renewal leaves behind: which bits it took, how
many, and one equation for the new value — the old value followed by the
taken bits is the new value on top of the cut. The arithmetic needs
registers inside their words, `Registers.Sound`; no other fact about them
is used.

A renewal takes as many bits as it needs and no more. What it does is
settled by the bits alone, `Renewed.eq_of_prefix`, so that it does the
same on every list that begins with them (`renew_of_renewed`).

`start_cases` lists the outcomes at the start of a code.
-/

namespace AvsEntropy

/-! ## Registers inside their words -/

namespace Registers

/-- The rests have eight bits, and the range was not halved more often
than the value has leading zeros. -/
structure Sound (r : Registers) : Prop where
  rangeRest_lt : r.rangeRest < 256
  valueRest_lt : r.valueRest < 256
  rangeScale_le : r.rangeScale ≤ r.valueScale

/-- The ways a cut goes: the rest is large enough, or the scale lends. -/
theorem split_cases (r : Registers) (width : ℕ) :
    (width ≤ r.rangeRest ∧ r.split width = ⟨r.rangeScale, r.rangeRest - width, false⟩ ∧
      r.severed (r.split width) width = width) ∨
    r.rangeRest < width ∧
      r.split width = ⟨r.rangeScale + 1, 256 + r.rangeRest - width, true⟩ ∧
      r.severed (r.split width) width = width + r.rangeRest := by
  by_cases h : width ≤ r.rangeRest
  · exact .inl ⟨h, by simp [split, h], by simp [split, severed, h]⟩
  · exact .inr ⟨by omega, by simp [split, h], by simp [split, severed, h]⟩

/-- A value is below a cut when it has more leading zeros, or as many and
a smaller rest. -/
theorem isBelow_iff {r : Registers} {cut : Split} :
    r.isBelow cut = true ↔
      cut.scale < r.valueScale ∨ cut.scale = r.valueScale ∧ r.valueRest < cut.rest := by
  simp [isBelow]

/-- A value at a cut or above it has no more leading zeros than the cut. -/
theorem valueScale_le_of_not_isBelow {r : Registers} {cut : Split}
    (hb : ¬ r.isBelow cut = true) : r.valueScale ≤ cut.scale := by
  rw [isBelow_iff] at hb
  omega

variable {r : Registers} {width : ℕ}

/-- A cut is at most one step of scale deeper than the range. -/
theorem split_scale_le (r : Registers) (width : ℕ) :
    (r.split width).scale ≤ r.rangeScale + 1 := by
  rcases r.split_cases width with ⟨-, h, -⟩ | ⟨-, h, -⟩ <;> simp [h]

/-- And never higher. -/
theorem rangeScale_le_split (r : Registers) (width : ℕ) :
    r.rangeScale ≤ (r.split width).scale := by
  rcases r.split_cases width with ⟨-, h, -⟩ | ⟨-, h, -⟩ <;> simp [h]

/-- What a cut leaves has a rest of eight bits. -/
theorem split_rest_lt (hr : r.rangeRest < 256) (hw : 1 ≤ width) :
    (r.split width).rest < 256 := by
  rcases r.split_cases width with ⟨hle, h, -⟩ | ⟨hlt, h, -⟩ <;> rw [h] <;> dsimp only <;> omega

/-- The end that is cut off has at most nine bits, and at least one. -/
theorem severed_bounds (hw : 1 ≤ width) (hw' : width ≤ 256) :
    1 ≤ r.severed (r.split width) width ∧ r.severed (r.split width) width < 512 := by
  rcases r.split_cases width with ⟨hle, -, h⟩ | ⟨hlt, -, h⟩ <;> rw [h] <;> omega

/-- A range that is narrowed below the value stays inside its words. -/
theorem Sound.narrow (h : r.Sound) (hw : 1 ≤ width) (hb : r.isBelow (r.split width) = true) :
    (r.narrow (r.split width)).Sound where
  rangeRest_lt := split_rest_lt h.rangeRest_lt hw
  valueRest_lt := h.valueRest_lt
  rangeScale_le := by
    show (r.split width).scale ≤ r.valueScale
    have := isBelow_iff.1 hb
    omega

end Registers

theorem doublings_le (width : ℕ) : doublings width ≤ 8 := Nat.sub_le _ _

/-- A width of at most nine bits is doubled until it has nine. -/
theorem doublings_spec {width : ℕ} (h : 1 ≤ width) (h' : width < 512) :
    256 ≤ width * 2 ^ doublings width ∧ width * 2 ^ doublings width < 512 := by
  have hlog : width.log2 ≤ 8 := by
    have := (Nat.log2_lt (by omega : width ≠ 0)).2 (show width < 2 ^ 9 by omega)
    omega
  have hlow : 2 ^ width.log2 ≤ width := Nat.log2_self_le (by omega)
  have hhigh : width < 2 ^ (width.log2 + 1) := Nat.lt_log2_self
  have h8 : 2 ^ width.log2 * 2 ^ doublings width = 256 := by
    rw [← pow_add, doublings, Nat.add_sub_cancel' hlog]
    rfl
  have hpos : 0 < 2 ^ doublings width := Nat.two_pow_pos _
  constructor
  · calc 256 = 2 ^ width.log2 * 2 ^ doublings width := h8.symm
      _ ≤ width * 2 ^ doublings width := Nat.mul_le_mul_right _ hlow
  · calc width * 2 ^ doublings width < 2 ^ (width.log2 + 1) * 2 ^ doublings width :=
          Nat.mul_lt_mul_of_pos_right hhigh hpos
      _ = 512 := by rw [pow_succ, Nat.mul_right_comm, h8]

namespace RangeDecoder

open BitInput

variable {σ : Type} [BitInput σ]

/-! ## The steps of a renewal -/

/-- **Normalization takes the bits that bring the value to nine**, not
one more, and counts them; or the bits run out; or the count does not
fit its word. -/
theorem normalize_cases (scale value : ℕ) (s : σ) :
    (∃ bits rest, Takes s bits rest ∧ 256 ≤ appended value bits ∧
      (∀ k < bits.length, appended value (bits.take k) < 256) ∧
      normalize scale value s = .ok (scale + bits.length, appended value bits) rest) ∨
    (∃ rest, Takes s (pending s) rest ∧ appended value (pending s) < 256 ∧
      normalize scale value s = .error (.failed .endOfStream) rest) ∨
    ∃ rest, wordBound ≤ scale + (pending s).length ∧
      normalize scale value s = .error .fault rest := by
  fun_induction normalize scale value s with
  | case1 scale value s h =>
    exact .inl ⟨[], s, .refl s, h, fun k hk => absurd hk (Nat.not_lt_zero k), rfl⟩
  | case2 scale value s h hn =>
    have hs : pending s = [] := pending_of_none hn
    exact .inr (.inl ⟨s, hs ▸ .refl s, by rw [hs]; exact Nat.lt_of_not_le h, rfl⟩)
  | case3 scale value s h bit t hn hscale ih =>
    have ht := takes_of_next? hn
    rcases ih with ⟨bits, rest, hr, hge, hmin, hok⟩ | ⟨rest, hr, hlt, he⟩ | ⟨rest, hw, he⟩
    · refine .inl ⟨bit :: bits, rest, ht.trans hr, hge, ?_, ?_⟩
      · rintro (_ | k) hk
        · exact Nat.lt_of_not_le h
        · exact hmin k (by simpa using hk)
      · rw [hok, List.length_cons, Nat.add_right_comm, Nat.add_assoc]
        rfl
    · refine .inr (.inl ⟨rest, ?_, ?_, he⟩) <;> rw [ht.pending_eq]
      · exact ht.trans hr
      · exact hlt
    · exact .inr (.inr ⟨rest, by rw [ht.length_pending, List.length_singleton]; omega, he⟩)
  | case4 scale value s h bit t hn hscale =>
    refine .inr (.inr ⟨t, ?_, rfl⟩)
    rw [(takes_of_next? hn).length_pending, List.length_singleton]
    omega

/-- A value that was brought to nine bits has no tenth. -/
theorem appended_lt_of_take {value : ℕ} {bits : List Bool} (hne : bits ≠ [])
    (h : ∀ k < bits.length, appended value (bits.take k) < 256) : appended value bits < 512 := by
  obtain ⟨init, bit, rfl⟩ := (List.eq_nil_or_concat bits).resolve_left hne
  rw [List.concat_eq_append] at h ⊢
  have hinit := h init.length (by simp)
  rw [List.take_left] at hinit
  have := bit.toNat_le
  simp only [appended_append, appended_cons, appended_nil]
  omega

/-! ## A renewal -/

section Renewal

variable {r : Registers} {width : ℕ}

/-- **The value is measured from the cut**, after as many bits as the cut
lies deeper than the value: none, or one. -/
theorem excess_cases (hr : r.Sound) (hw : 1 ≤ width)
    (hb : ¬ r.isBelow (r.split width) = true) (s : σ) :
    (∃ bits rest above, Takes s bits rest ∧
      bits.length = (r.split width).scale - r.valueScale ∧
      appended (256 + r.valueRest) bits = above + (256 + (r.split width).rest) ∧
      excess r (r.split width) s = .ok above rest) ∨
    pending s = [] ∧ excess r (r.split width) s = .error (.failed .endOfStream) s := by
  have hrest := Registers.split_rest_lt hr.rangeRest_lt hw
  have hscale := r.split_scale_le width
  have hle := hr.rangeScale_le
  rw [Registers.isBelow_iff] at hb
  -- at equal scales no bit is needed, and the value is at or above the cut
  by_cases h : (r.split width).scale = r.valueScale
  · have hcut : (r.split width).rest ≤ r.valueRest := by omega
    refine .inl ⟨[], s, r.valueRest - (r.split width).rest, .refl s, by simp [h], ?_, ?_⟩
    · rw [appended_nil]; omega
    · rw [excess, if_pos h, distance, difference?_of_le hcut]
      rfl
  · rcases readBit_cases s with ⟨bit, rest, hrest', hok⟩ | ⟨hs, he⟩
    · refine .inl ⟨[bit], rest, 256 + (2 * r.valueRest + bit.toNat) - (r.split width).rest, hrest',
        by simp only [List.length_singleton]; omega, ?_, ?_⟩
      · rw [appended_cons, appended_nil]; omega
      · rw [excess, if_neg h, bind_ok hok, distance, difference?_of_le (by omega)]
        rfl
    · exact .inr ⟨hs, by rw [excess, if_neg h, bind_error he]⟩

/-- **What a renewal leaves behind.** The range starts anew, from the end
that was cut off with nine bits. The old value followed by the bits taken
is the new value on top of the cut; `value` is the new value while it
still has its leading one. -/
structure Renewed (r : Registers) (width : ℕ) (bits : List Bool) (value : ℕ)
    (after : Registers) : Prop where
  rangeScale_eq : after.rangeScale = 0
  rangeRest_eq : 256 + after.rangeRest =
    r.severed (r.split width) width * 2 ^ doublings (r.severed (r.split width) width)
  length_eq : bits.length = (r.split width).scale - r.valueScale +
    doublings (r.severed (r.split width) width) + after.valueScale
  appended_eq : appended (256 + r.valueRest) bits = value + (256 + (r.split width).rest) *
    2 ^ (doublings (r.severed (r.split width) width) + after.valueScale)
  le_value : 256 ≤ value
  value_lt : 0 < after.valueScale → value < 512
  valueRest_eq : after.valueRest = value % 256

namespace Renewed

variable {bits : List Bool} {value : ℕ} {after : Registers}

/-- Renewed registers are inside their words. -/
theorem sound (h : Renewed r width bits value after) (hw : 1 ≤ width) (hw' : width ≤ 256) :
    after.Sound where
  rangeRest_lt := by
    have hn := r.severed_bounds hw hw'
    have := h.rangeRest_eq
    have := (doublings_spec hn.1 hn.2).2
    omega
  valueRest_lt := by rw [h.valueRest_eq]; omega
  rangeScale_le := by rw [h.rangeScale_eq]; omega

/-- **A renewal takes at least one bit**: without a fresh bit the value
above the cut has fewer than nine. -/
theorem bits_ne_nil (h : Renewed r width bits value after) (hr : r.Sound) : bits ≠ [] := by
  rintro rfl
  have hlen := h.length_eq
  have heq := h.appended_eq
  have := h.le_value
  have := hr.valueRest_lt
  rw [List.length_nil] at hlen
  rw [appended_nil, show doublings (r.severed (r.split width) width) + after.valueScale = 0 by
    omega, pow_zero] at heq
  omega

/-- What a renewal finds is what the doubled value above the cut makes of
the bits that follow it. -/
theorem value_of_append {above : ℕ} {bits₁ bits₂ bits₃ : List Bool}
    (h : Renewed r width (bits₁ ++ bits₂ ++ bits₃) value after)
    (hlen₁ : bits₁.length = (r.split width).scale - r.valueScale)
    (hlen₂ : bits₂.length = doublings (r.severed (r.split width) width))
    (habove : appended (256 + r.valueRest) (bits₁ ++ bits₂) = above +
      (256 + (r.split width).rest) * 2 ^ doublings (r.severed (r.split width) width)) :
    appended above bits₃ = value := by
  have hlen := h.length_eq
  have heq := h.appended_eq
  rw [List.length_append, List.length_append, hlen₁, hlen₂, Nat.add_left_cancel_iff] at hlen
  rw [appended_append, habove, appended_add, hlen, Nat.mul_assoc, ← pow_add] at heq
  exact Nat.add_right_cancel heq

/-- **The bits of a renewal are settled as they come**: two beginnings of
one list that renew the same registers leave the same ones behind. -/
theorem eq_of_prefix {bits' : List Bool} {value' : ℕ} {after' : Registers}
    (h : Renewed r width bits value after) (h' : Renewed r width bits' value' after')
    (hp : bits <+: bits') : bits = bits' ∧ after = after' := by
  obtain ⟨more, rfl⟩ := hp
  have hlen := h.length_eq
  have hlen' := h'.length_eq
  have heq := h'.appended_eq
  rw [List.length_append] at hlen'
  have hscale : after'.valueScale = after.valueScale + more.length := by omega
  have hvalue : appended value more = value' := by
    rw [appended_append, h.appended_eq, appended_add, hscale, Nat.mul_assoc, ← pow_add,
      Nat.add_assoc] at heq
    exact Nat.add_right_cancel heq
  -- a bit more would bring the value to ten bits
  obtain rfl : more = [] := by
    by_contra hne
    have hlt := h'.value_lt (by have := List.length_pos_iff.2 hne; omega)
    exact hne (eq_nil_of_appended_lt h.le_value (hvalue ▸ hlt))
  refine ⟨(List.append_nil bits).symm, ?_⟩
  rw [appended_nil] at hvalue
  have hrest := h.rangeRest_eq.trans h'.rangeRest_eq.symm
  have hvalueRest := h.valueRest_eq.trans (hvalue ▸ h'.valueRest_eq.symm)
  rw [List.length_nil, Nat.add_zero] at hscale
  calc after = ⟨after.rangeScale, after.rangeRest, after.valueScale, after.valueRest⟩ := rfl
    _ = ⟨after'.rangeScale, after'.rangeRest, after'.valueScale, after'.valueRest⟩ := by
      rw [h.rangeScale_eq, h'.rangeScale_eq, Nat.add_left_cancel hrest, hscale, hvalueRest]
    _ = after' := rfl

end Renewed

/-- The renewed range is the severed end with nine bits. -/
theorem rangeRest_renewedRegisters (hw : 1 ≤ width) (hw' : width ≤ 256) (scale value : ℕ) :
    256 + (renewedRegisters r (r.split width) width scale value).rangeRest =
      r.severed (r.split width) width * 2 ^ doublings (r.severed (r.split width) width) := by
  have hn := r.severed_bounds hw hw'
  have hnine := doublings_spec hn.1 hn.2
  rw [renewedRegisters, Nat.shiftLeft_eq]
  dsimp only
  omega

/-! A renewal reads three times: bits that bring the value to the scale of the
cut, as many as the severed end is doubled, and those that bring the value above
the cut to nine bits. -/

section Reads

variable {above : ℕ} {bits₁ bits₂ : List Bool}

/-- **Three reads that find enough bits make a renewal.** -/
theorem renewed_of_reads {bits₃ : List Bool} (hw : 1 ≤ width) (hw' : width ≤ 256)
    (hlen₁ : bits₁.length = (r.split width).scale - r.valueScale)
    (hlen₂ : bits₂.length = doublings (r.severed (r.split width) width))
    (habove : appended (256 + r.valueRest) (bits₁ ++ bits₂) = above +
      (256 + (r.split width).rest) * 2 ^ doublings (r.severed (r.split width) width))
    (hge : 256 ≤ appended above bits₃)
    (hmin : ∀ k < bits₃.length, appended above (bits₃.take k) < 256) :
    Renewed r width (bits₁ ++ bits₂ ++ bits₃) (appended above bits₃)
      (renewedRegisters r (r.split width) width bits₃.length (appended above bits₃)) where
  rangeScale_eq := rfl
  rangeRest_eq := rangeRest_renewedRegisters hw hw' _ _
  length_eq := by
    simp only [renewedRegisters, List.length_append, hlen₁, hlen₂]
  appended_eq := by
    rw [appended_append, habove, appended_add, renewedRegisters, pow_add, Nat.mul_assoc]
  le_value := hge
  value_lt h := appended_lt_of_take (List.ne_nil_of_length_pos h) hmin
  valueRest_eq := rfl

/-- A renewal that starts with the first two reads has enough bits for the third. -/
theorem Renewed.le_appended_of_prefix {bits more : List Bool} {value : ℕ} {after : Registers}
    (h : Renewed r width bits value after)
    (hlen₁ : bits₁.length = (r.split width).scale - r.valueScale)
    (hlen₂ : bits₂.length = doublings (r.severed (r.split width) width))
    (habove : appended (256 + r.valueRest) (bits₁ ++ bits₂) = above +
      (256 + (r.split width).rest) * 2 ^ doublings (r.severed (r.split width) width))
    (hbits : bits <+: bits₁ ++ bits₂ ++ more) : 256 ≤ appended above more := by
  have hlen := h.length_eq
  obtain ⟨bits₃, rfl⟩ : bits₁ ++ bits₂ <+: bits :=
    List.prefix_of_prefix_length_le (List.prefix_append _ _) hbits
      (by rw [List.length_append]; omega)
  obtain ⟨rest, rfl⟩ : bits₃ <+: more := (List.prefix_append_right_inj _).1 hbits
  calc 256 ≤ value := h.le_value
    _ ≤ appended value rest := le_appended value rest
    _ = appended above (bits₃ ++ rest) := by
      rw [appended_append, h.value_of_append hlen₁ hlen₂ habove]

end Reads

/-- **The value of a renewal is found, or the bits run out**, and then no
beginning of them would have done; a count that does not fit its word
needs more bits than a word can count. -/
theorem renewalValue_cases (hr : r.Sound) (hw : 1 ≤ width) (hw' : width ≤ 256)
    (hb : ¬ r.isBelow (r.split width) = true) (s : σ) :
    (∃ bits rest scale value, Takes s bits rest ∧
      Renewed r width bits value (renewedRegisters r (r.split width) width scale value) ∧
      renewalValue r (r.split width) width s = .ok (scale, value) rest) ∨
    (∃ rest, Takes s (pending s) rest ∧
      (∀ bits value after, bits <+: pending s → ¬ Renewed r width bits value after) ∧
      renewalValue r (r.split width) width s = .error (.failed .endOfStream) rest) ∨
    ∃ rest, wordBound ≤ (pending s).length ∧
      renewalValue r (r.split width) width s = .error .fault rest := by
  have hn := r.severed_bounds hw hw'
  have hpos : r.severed (r.split width) width ≠ 0 := by omega
  simp only [renewalValue, if_neg hpos]
  -- each of the three reads may find too few bits
  rcases excess_cases hr hw hb s with ⟨bits₁, s₁, above, ht₁, hlen₁, heq₁, hok₁⟩ | ⟨hs, he⟩
  swap
  · refine .inr (.inl ⟨s, hs ▸ .refl s, fun bits value after hbits h => ?_, bind_error he⟩)
    rw [hs] at hbits
    exact h.bits_ne_nil hr (List.prefix_nil.1 hbits)
  rw [bind_ok hok₁]
  rcases appendBits_cases (doublings (r.severed (r.split width) width)) above s₁ with
    ⟨bits₂, s₂, hlen₂, ht₂, hok₂⟩ | ⟨rest, hshort, ht₂, he⟩
  swap
  · refine .inr (.inl ⟨rest, ht₁.pending_eq ▸ ht₁.trans ht₂, fun bits value after hbits h => ?_,
      bind_error he⟩)
    have hlen := h.length_eq
    have hle := hbits.length_le
    rw [ht₁.length_pending] at hle
    omega
  rw [bind_ok hok₂]
  have heq₂ : appended (256 + r.valueRest) (bits₁ ++ bits₂) = appended above bits₂ +
      (256 + (r.split width).rest) * 2 ^ doublings (r.severed (r.split width) width) := by
    rw [appended_append, heq₁, appended_add, hlen₂]
  have ht := ht₁.trans ht₂
  rcases normalize_cases 0 (appended above bits₂) s₂ with
    ⟨bits₃, s₃, ht₃, hge, hmin, hok₃⟩ | ⟨rest, ht₃, hfew, he⟩ | ⟨rest, hlong, he⟩
  · rw [Nat.zero_add] at hok₃
    exact .inl ⟨_, s₃, _, _, ht.trans ht₃, renewed_of_reads hw hw' hlen₁ hlen₂ heq₂ hge hmin,
      bind_ok hok₃⟩
  · refine .inr (.inl ⟨rest, ht.pending_eq ▸ ht.trans ht₃, fun bits value after hbits h => ?_,
      bind_error he⟩)
    rw [ht.pending_eq] at hbits
    exact absurd (h.le_appended_of_prefix hlen₁ hlen₂ heq₂ hbits) (Nat.not_le.2 hfew)
  · refine .inr (.inr ⟨rest, ?_, bind_error he⟩)
    rw [ht.length_pending]
    omega

/-- A renewal succeeds, or the bits run out; a count that does not fit
its word needs more bits than a word can count. -/
theorem renew_cases (hr : r.Sound) (hw : 1 ≤ width) (hw' : width ≤ 256)
    (hb : ¬ r.isBelow (r.split width) = true) (s : σ) :
    (∃ bits rest value after, Takes s bits rest ∧ Renewed r width bits value after ∧
      renew r (r.split width) width s = .ok after rest) ∨
    (∃ rest, Takes s (pending s) rest ∧
      renew r (r.split width) width s = .error (.failed .endOfStream) rest) ∨
    ∃ rest, wordBound ≤ (pending s).length ∧
      renew r (r.split width) width s = .error .fault rest := by
  rw [renew]
  rcases renewalValue_cases hr hw hw' hb s with
    ⟨bits, rest, scale, value, ht, hren, hok⟩ | ⟨rest, ht, -, he⟩ | ⟨rest, hlong, he⟩
  · exact .inl ⟨bits, rest, value, _, ht, hren, bind_ok hok⟩
  · exact .inr (.inl ⟨rest, ht, bind_error he⟩)
  · exact .inr (.inr ⟨rest, hlong, bind_error he⟩)

/-- **A renewal succeeds on every list of bits that starts with what it
takes.** -/
theorem renew_of_renewed (hr : r.Sound) (hw : 1 ≤ width) (hw' : width ≤ 256)
    (hb : ¬ r.isBelow (r.split width) = true) {s : σ} {bits : List Bool} {value : ℕ}
    {after : Registers} (h : Renewed r width bits value after) (hbits : bits <+: pending s)
    (hroom : (pending s).length < wordBound) :
    ∃ rest, Takes s bits rest ∧ renew r (r.split width) width s = .ok after rest := by
  rw [renew]
  rcases renewalValue_cases hr hw hw' hb s with
    ⟨bits', rest, scale, value', ht, hren, hok⟩ | ⟨rest, -, hnone, -⟩ | ⟨rest, hlong, -⟩
  · have hbits' : bits' <+: pending s := ⟨_, ht.pending_eq.symm⟩
    -- the one list of bits is a beginning of the other
    have hboth : bits = bits' ∧ after =
        renewedRegisters r (r.split width) width scale value' := by
      rcases List.prefix_or_prefix_of_prefix hbits hbits' with hp | hp
      · exact h.eq_of_prefix hren hp
      · obtain ⟨hsame, hafter⟩ := hren.eq_of_prefix h hp
        exact ⟨hsame.symm, hafter.symm⟩
    obtain ⟨rfl, rfl⟩ := hboth
    exact ⟨rest, ht, bind_ok hok⟩
  · exact absurd h (hnone bits value after hbits)
  · exact absurd hlong (Nat.not_le.2 hroom)

end Renewal

/-! ## The start and the decisions -/

/-- **A code starts with its first nine bits from a one on**: the zeros
before it are the scale of the value. -/
theorem start_cases (s : σ) :
    (∃ bits rest scale, Takes s bits rest ∧ bits.length = 9 + scale ∧
      256 ≤ appended 0 bits ∧ appended 0 bits < 512 ∧
      start s = .ok ⟨0, 255, scale, appended 0 bits % 256⟩ rest) ∨
    (∃ rest, appended 0 (pending s) < 256 ∧ start s = .error (.failed .endOfStream) rest) ∨
    ∃ rest, wordBound + 9 ≤ (pending s).length ∧ start s = .error .fault rest := by
  simp only [start]
  rcases readWord_cases (show 9 ≤ 32 by decide) s with
    ⟨bits₁, s₁, hlen₁, ht₁, hok₁⟩ | ⟨rest, hlt, he⟩
  swap
  · refine .inr (.inl ⟨rest, ?_, bind_error he⟩)
    calc appended 0 (pending s) < 2 ^ (pending s).length := appended_zero_lt _
      _ ≤ 2 ^ 8 := Nat.pow_le_pow_right (by decide) (by omega)
  rw [bind_ok hok₁]
  rcases normalize_cases 0 (appended 0 bits₁) s₁ with
    ⟨bits₂, s₂, ht₂, hge, hmin, hok₂⟩ | ⟨rest, ht₂, hlt, he⟩ | ⟨rest, hlong, he⟩
  · refine .inl ⟨bits₁ ++ bits₂, s₂, bits₂.length, ht₁.trans ht₂, ?_, ?_, ?_, ?_⟩
    · rw [List.length_append, hlen₁]
    · rwa [appended_append]
    · rw [appended_append]
      rcases eq_or_ne bits₂ [] with rfl | hne
      · simpa [hlen₁] using appended_zero_lt bits₁
      · exact appended_lt_of_take hne hmin
    · rw [bind_ok hok₂, appended_append, Nat.zero_add]
      rfl
  · refine .inr (.inl ⟨rest, ?_, bind_error he⟩)
    rwa [ht₁.pending_eq, appended_append]
  · refine .inr (.inr ⟨rest, ?_, bind_error he⟩)
    rw [ht₁.length_pending, hlen₁]
    omega

variable {d : RangeDecoder σ} {probability : ℕ}

/-- A probability state in its range cuts off something, and less than
half of the smallest range. -/
theorem width_bounds (hmin : minProbability ≤ probability) (hmax : probability ≤ maxProbability) :
    1 ≤ probability / 4 ∧ probability / 4 ≤ 255 := by
  simp only [minProbability, maxProbability] at hmin hmax
  omega

/-- **What a decision does.** Below the cut it narrows the range and
touches nothing else. At or above it, it renews the range and answers the
opposite of what was predicted, or the bits run out and only the source
has moved. Only words that are too short make it fault. -/
theorem decideBin_cases (hr : d.registers.Sound) (hmin : minProbability ≤ probability)
    (hmax : probability ≤ maxProbability) (predicted : Bool) :
    (d.registers.isBelow (d.registers.split (probability / 4)) = true ∧
      decideBin predicted probability d = .ok predicted
        ⟨d.source, d.registers.narrow (d.registers.split (probability / 4))⟩) ∨
    (¬ d.registers.isBelow (d.registers.split (probability / 4)) = true ∧
      ((∃ bits rest value after, Takes d.source bits rest ∧
        Renewed d.registers (probability / 4) bits value after ∧
        decideBin predicted probability d = .ok (!predicted) ⟨rest, after⟩) ∨
      ∃ rest, Takes d.source (pending d.source) rest ∧
        decideBin predicted probability d =
          .error (.failed .endOfStream) ⟨rest, d.registers⟩)) ∨
    (wordBound ≤ d.registers.rangeScale + 1 ∨ wordBound ≤ (pending d.source).length) ∧
      ∃ after, decideBin predicted probability d = .error .fault after := by
  have hw := width_bounds hmin hmax
  simp only [decideBin, if_pos (And.intro hmin hmax)]
  by_cases hadm : d.registers.Admits (probability / 4)
  swap
  · refine .inr (.inr ⟨.inl ?_, d, if_neg hadm⟩)
    have hscale := d.registers.split_scale_le (probability / 4)
    by_contra hlt
    exact hadm ⟨by omega, by omega⟩
  rw [if_pos hadm]
  by_cases hb : d.registers.isBelow (d.registers.split (probability / 4)) = true
  · exact .inl ⟨hb, if_pos hb⟩
  rw [if_neg hb]
  rcases renew_cases hr hw.1 (by omega) hb d.source with
    ⟨bits, rest, value, after, ht, hren, hok⟩ | ⟨rest, ht, he⟩ | ⟨rest, hlong, he⟩
  · exact .inr (.inl ⟨hb, .inl ⟨bits, rest, value, after, ht, hren, by rw [hok]⟩⟩)
  · exact .inr (.inl ⟨hb, .inr ⟨rest, ht, by rw [he]⟩⟩)
  · exact .inr (.inr ⟨.inr hlong, _, by rw [he]⟩)

end RangeDecoder

end AvsEntropy
