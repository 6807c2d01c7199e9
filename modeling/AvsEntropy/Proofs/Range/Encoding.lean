import AvsEntropy.Bits.Tape
import AvsEntropy.Proofs.Range.Containment

/-!
# Encoding

Every list of answers has bits that decode to it. They are found from the
end: an answer as predicted needs no bits, and for any other the value
that its renewal must find is put on top of the cut, which gives the value
before the renewal and the bits that the renewal takes
(`Encoding.beforeRenewal`). What carries the induction is that the value
stays inside the range, `Encoding.Fits`, so that both sides of a cut are
always open.

`encode` puts the start in front. A code so made is decoded from every
source that begins with it (`trail_encode`).
-/

namespace AvsEntropy

open BitInput

/-- What is left of a code at some point: the value in the registers and
the bits to come. -/
structure Encoding where
  /-- How many leading zeros the value has. -/
  valueScale : ℕ
  /-- The eight bits after the leading one of the value. -/
  valueRest : ℕ
  /-- The bits to come. -/
  bits : List Bool
  deriving DecidableEq, Repr

namespace Registers

/-- The registers with the range of these and the value of a code. -/
def holding (r : Registers) (code : Encoding) : Registers :=
  { r with valueScale := code.valueScale, valueRest := code.valueRest }

/-- The range at the start of a code, with no value yet. -/
def widest : Registers := ⟨0, 255, 0, 0⟩

variable {r : Registers} {width : ℕ}

/-- A value below a cut lies inside the range that was cut. -/
theorem inside_of_isBelow (hb : r.isBelow (r.split width) = true) : r.Inside := by
  rw [isBelow_iff] at hb
  rw [Inside]
  rcases r.split_cases width with ⟨-, hs, -⟩ | ⟨-, hs, -⟩ <;> rw [hs] at hb <;> dsimp only at hb <;>
    omega

end Registers

namespace RangeDecoder

/-- The range that a renewal starts with, with no value yet. -/
def renewedRange (r : Registers) (width : ℕ) : Registers :=
  renewedRegisters r (r.split width) width 0 0

theorem renewedRange_rest_lt (r : Registers) (width : ℕ) :
    (renewedRange r width).rangeRest < 256 :=
  Nat.mod_lt _ (by decide)

end RangeDecoder

namespace Encoding

open RangeDecoder

variable {r : Registers} {width : ℕ} {code : Encoding}

/-- A code fits a range when its value has nine bits and lies inside. -/
structure Fits (code : Encoding) (r : Registers) : Prop where
  sound : (r.holding code).Sound
  inside : (r.holding code).Inside

theorem Fits.valueRest_lt (h : code.Fits r) : code.valueRest < 256 := h.sound.valueRest_lt

/-! ## One renewal backwards -/

/-- The places by which a renewal moves the value above the cut. -/
def places (code : Encoding) (r : Registers) (width : ℕ) : ℕ :=
  doublings (r.severed (r.split width) width) + code.valueScale

/-- The value that a renewal finds, on top of the cut. -/
def total (code : Encoding) (r : Registers) (width : ℕ) : ℕ :=
  256 + code.valueRest + (256 + (r.split width).rest) * 2 ^ code.places r width

/-- The leading zeros before a renewal: as many as the cut has, or one
less where the total has a bit more. -/
def scaleBefore (code : Encoding) (r : Registers) (width : ℕ) : ℕ :=
  if code.total r width < 512 * 2 ^ code.places r width then (r.split width).scale
  else (r.split width).scale - 1

theorem scaleBefore_le (code : Encoding) (r : Registers) (width : ℕ) :
    code.scaleBefore r width ≤ (r.split width).scale := by
  rw [scaleBefore]
  split
  · exact le_rfl
  · exact Nat.sub_le _ _

/-- How many bits of the total are below the nine in the registers. -/
def lowBits (code : Encoding) (r : Registers) (width : ℕ) : ℕ :=
  (r.split width).scale - code.scaleBefore r width + code.places r width

/-- The code before a renewal that leaves the given one behind. -/
def beforeRenewal (code : Encoding) (r : Registers) (width : ℕ) : Encoding where
  valueScale := code.scaleBefore r width
  valueRest := code.total r width / 2 ^ code.lowBits r width - 256
  bits := bitsOf (code.lowBits r width) (code.total r width) ++ code.bits

/-- The total is below the end of the severed end, which has at most ten
bits in all. -/
theorem total_bounds (hw : 1 ≤ width) (hw' : width ≤ 256)
    (hfit : code.Fits (renewedRange r width)) :
    (256 + (r.split width).rest) * 2 ^ code.places r width ≤ code.total r width ∧
      code.total r width <
        (256 + (r.split width).rest + r.severed (r.split width) width) *
          2 ^ code.places r width := by
  have hsevered : (256 + (renewedRange r width).rangeRest) * 2 ^ code.valueScale =
      r.severed (r.split width) width * 2 ^ code.places r width := by
    rw [renewedRange, rangeRest_renewedRegisters hw hw', places, pow_add, Nat.mul_assoc]
  have hvalue : 256 + code.valueRest <
      (256 + (renewedRange r width).rangeRest) * 2 ^ code.valueScale :=
    (Registers.inside_iff_lt rfl hfit.valueRest_lt).1 hfit.inside
  rw [hsevered] at hvalue
  rw [total, Nat.add_mul (256 + _) (r.severed _ _)]
  omega

/-- **The leading zeros before a renewal** are those of the cut, or those of
the range where the cut borrowed and the total has ten bits. -/
theorem scaleBefore_cases (hw : 1 ≤ width) (hw' : width ≤ 256) (hr : r.rangeRest < 256)
    (hfit : code.Fits (renewedRange r width)) :
    (code.scaleBefore r width = (r.split width).scale ∧
      code.total r width < 512 * 2 ^ code.places r width) ∨
    code.scaleBefore r width = r.rangeScale ∧ (r.split width).scale = r.rangeScale + 1 ∧
      512 * 2 ^ code.places r width ≤ code.total r width ∧
      code.total r width < 1024 * 2 ^ code.places r width := by
  obtain ⟨-, hlt⟩ := total_bounds hw hw' hfit
  by_cases h : code.total r width < 512 * 2 ^ code.places r width
  · exact .inl ⟨if_pos h, h⟩
  · rcases r.split_cases width with ⟨hle, hs, hn⟩ | ⟨hgt, hs, hn⟩
    · -- without a borrow the range itself has nine bits, and the total is below its end
      rw [hn, hs] at hlt
      dsimp only at hlt
      have hend : (256 + (r.rangeRest - width) + width) * 2 ^ code.places r width ≤
          512 * 2 ^ code.places r width := Nat.mul_le_mul_right _ (by omega)
      omega
    · rw [hn, hs] at hlt
      dsimp only at hlt
      have hend : (256 + (256 + r.rangeRest - width) + (width + r.rangeRest)) *
          2 ^ code.places r width ≤ 1024 * 2 ^ code.places r width :=
        Nat.mul_le_mul_right _ (by omega)
      refine .inr ⟨?_, ?_, Nat.le_of_not_lt h, by omega⟩
      · rw [scaleBefore, if_neg h, hs]
        rfl
      · rw [hs]

/-- **Nine bits of the total are in the registers**, the lower ones are to
come. -/
theorem total_nine (hw : 1 ≤ width) (hw' : width ≤ 256) (hr : r.rangeRest < 256)
    (hfit : code.Fits (renewedRange r width)) :
    256 ≤ code.total r width / 2 ^ code.lowBits r width ∧
      code.total r width / 2 ^ code.lowBits r width < 512 := by
  have hpos : 0 < 2 ^ code.lowBits r width := Nat.two_pow_pos _
  obtain ⟨hge, -⟩ := total_bounds hw hw' hfit
  have hplaces : 256 * 2 ^ code.places r width ≤ code.total r width :=
    (Nat.mul_le_mul_right _ (Nat.le_add_right _ _)).trans hge
  rw [Nat.le_div_iff_mul_le hpos, Nat.div_lt_iff_lt_mul hpos, lowBits]
  rcases scaleBefore_cases hw hw' hr hfit with ⟨hs, hlt⟩ | ⟨hs, hcut, hten, hlt⟩
  · rw [hs, Nat.sub_self, Nat.zero_add]
    exact ⟨hplaces, hlt⟩
  · rw [hs, hcut, Nat.add_sub_cancel_left, pow_add, pow_one]
    omega

/-- The value before a renewal and the bits that it takes make the total. -/
theorem appended_beforeRenewal (hw : 1 ≤ width) (hw' : width ≤ 256) (hr : r.rangeRest < 256)
    (hfit : code.Fits (renewedRange r width)) :
    appended (256 + (code.beforeRenewal r width).valueRest)
      (bitsOf (code.lowBits r width) (code.total r width)) = code.total r width := by
  obtain ⟨hge, -⟩ := total_nine hw hw' hr hfit
  rw [appended_bitsOf, beforeRenewal, Nat.add_sub_cancel' hge, Nat.div_add_mod']

/-- The registers before a renewal are inside their words. -/
theorem sound_beforeRenewal (hw : 1 ≤ width) (hw' : width ≤ 256) (hr : r.rangeRest < 256)
    (hfit : code.Fits (renewedRange r width)) :
    (r.holding (code.beforeRenewal r width)).Sound := by
  have hnine := total_nine hw hw' hr hfit
  have hscale := scaleBefore_cases hw hw' hr hfit
  have hcut := r.rangeScale_le_split width
  refine ⟨hr, ?_, ?_⟩
  · show code.total r width / 2 ^ code.lowBits r width - 256 < 256
    omega
  · show r.rangeScale ≤ code.scaleBefore r width
    omega

/-- And their value is at the cut or above it. -/
theorem not_isBelow_beforeRenewal (hw : 1 ≤ width) (hw' : width ≤ 256)
    (hfit : code.Fits (renewedRange r width)) :
    ¬ (r.holding (code.beforeRenewal r width)).isBelow (r.split width) = true := by
  intro hb
  have hscale := code.scaleBefore_le r width
  rcases Registers.isBelow_iff.1 hb with hlt | ⟨heq, hlt⟩
  · change (r.split width).scale < code.scaleBefore r width at hlt
    omega
  · -- at the scale of the cut, the nine bits of the total are at least those of the cut
    change (r.split width).scale = code.scaleBefore r width at heq
    change code.total r width / 2 ^ code.lowBits r width - 256 < (r.split width).rest at hlt
    have hlow : code.lowBits r width = code.places r width := by
      rw [lowBits, heq, Nat.sub_self, Nat.zero_add]
    have hcut := (Nat.le_div_iff_mul_le (Nat.two_pow_pos _)).2 (total_bounds hw hw' hfit).1
    rw [hlow] at hlt
    omega

/-- **A renewal undone.** From the code before it, the renewal takes the
bits in front and leaves the given code behind. -/
theorem renewed_beforeRenewal (hw : 1 ≤ width) (hw' : width ≤ 256) (hr : r.rangeRest < 256)
    (hfit : code.Fits (renewedRange r width)) :
    Renewed (r.holding (code.beforeRenewal r width)) width
      (bitsOf (code.lowBits r width) (code.total r width)) (256 + code.valueRest)
      ((renewedRange r width).holding code) := by
  have hrest := hfit.valueRest_lt
  -- the fields of `Renewed`, in their order
  constructor
  · rfl
  · exact rangeRest_renewedRegisters hw hw' 0 0
  · rw [length_bitsOf, lowBits, places, ← Nat.add_assoc]
    rfl
  · exact appended_beforeRenewal hw hw' hr hfit
  · exact Nat.le_add_right _ _
  · intro _
    omega
  · show code.valueRest = (256 + code.valueRest) % 256
    omega

/-- **A code before a renewal fits** where the code after it does. -/
theorem Fits.beforeRenewal (hw : 1 ≤ width) (hw' : width ≤ 256) (hr : r.rangeRest < 256)
    (hfit : code.Fits (renewedRange r width)) : (code.beforeRenewal r width).Fits r := by
  have hrest := hfit.valueRest_lt
  have hsound := sound_beforeRenewal hw hw' hr hfit
  have hb := not_isBelow_beforeRenewal hw hw' hfit
  have hinside := (renewed_beforeRenewal hw hw' hr hfit).inside_iff hsound hw hw' hb
  exact ⟨hsound, hinside.2 ⟨by omega, hfit.inside⟩⟩

/-- A code before a narrowing is the code after it. -/
theorem Fits.of_narrow (hr : r.rangeRest < 256)
    (h : code.Fits (r.narrow (r.split width))) :
    code.Fits r ∧ (r.holding code).isBelow (r.split width) = true := by
  have hb : (r.holding code).isBelow (r.split width) = true :=
    Registers.inside_narrow_iff.1 h.inside
  have hle : (r.split width).scale ≤ code.valueScale := h.sound.rangeScale_le
  have hcut := r.rangeScale_le_split width
  refine ⟨⟨⟨hr, h.valueRest_lt, ?_⟩, Registers.inside_of_isBelow hb⟩, hb⟩
  exact hcut.trans hle

end Encoding

namespace RangeDecoder

open Encoding

/-! ## Whole codes -/

/-- A code that gives these answers to these decisions, from a range on.
After the last of them no bits are left, and the value has one leading
zero more than the range was halved. -/
def encodeFrom : List (Decision × Bool) → Registers → Encoding
  | [], r => ⟨r.rangeScale + 1, 0, []⟩
  | (q, bin) :: script, r =>
    if bin = q.predicted then encodeFrom script (r.narrow (r.split q.width))
    else (encodeFrom script (renewedRange r q.width)).beforeRenewal r q.width

/-- Bits that give these answers to these decisions. -/
def encode (script : List (Decision × Bool)) : List Bool :=
  let code := encodeFrom script Registers.widest
  bitsOf (9 + code.valueScale) (256 + code.valueRest) ++ code.bits

/-- **A code fits its range**, whatever the answers are. -/
theorem fits_encodeFrom {script : List (Decision × Bool)} {r : Registers}
    (hq : ∀ p ∈ script, p.1.InRange) (hr : r.rangeRest < 256) :
    (encodeFrom script r).Fits r := by
  induction script generalizing r with
  | nil => exact ⟨⟨hr, Nat.two_pow_pos 8, Nat.le_succ _⟩, .inl (Nat.lt_succ_self _)⟩
  | cons p script ih =>
    obtain ⟨q, bin⟩ := p
    have hin : q.InRange := hq _ List.mem_cons_self
    have hw := hin.width_bounds
    have hothers : ∀ p ∈ script, p.1.InRange := fun p hp => hq p (List.mem_cons_of_mem _ hp)
    by_cases hbin : bin = q.predicted
    · rw [encodeFrom, if_pos hbin]
      exact ((ih hothers (Registers.split_rest_lt hr hw.1)).of_narrow hr).1
    · rw [encodeFrom, if_neg hbin]
      have hfit := ih hothers (renewedRange_rest_lt r q.width)
      exact hfit.beforeRenewal hw.1 (by omega) hr

/-- **A code has ten bits for each answer at most**, and those of the
range it starts from. -/
theorem length_encodeFrom_le (script : List (Decision × Bool)) (r : Registers) :
    (encodeFrom script r).bits.length + (encodeFrom script r).valueScale ≤
      10 * script.length + r.rangeScale + 1 := by
  induction script generalizing r with
  | nil => exact le_of_eq (by simp [encodeFrom])
  | cons p script ih =>
    obtain ⟨q, bin⟩ := p
    have hcut := r.split_scale_le q.width
    rw [List.length_cons]
    by_cases hbin : bin = q.predicted
    · rw [encodeFrom, if_pos hbin]
      have hrest := ih (r.narrow (r.split q.width))
      change _ ≤ 10 * script.length + (r.split q.width).scale + 1 at hrest
      omega
    · rw [encodeFrom, if_neg hbin]
      have hrest := ih (renewedRange r q.width)
      change _ ≤ 10 * script.length + 0 + 1 at hrest
      have hdoublings := doublings_le (r.severed (r.split q.width) q.width)
      have hscale := (encodeFrom script (renewedRange r q.width)).scaleBefore_le r q.width
      simp only [beforeRenewal, List.length_append, length_bitsOf, lowBits, places]
      omega

/-- A whole code has ten bits for each answer at most, and ten more. -/
theorem length_encode_le (script : List (Decision × Bool)) :
    (encode script).length ≤ 10 * script.length + 10 := by
  have hlen := length_encodeFrom_le script Registers.widest
  change _ ≤ 10 * script.length + 0 + 1 at hlen
  rw [encode, List.length_append, length_bitsOf]
  omega

/-! ## Decoding a code -/

section Decoding

variable {σ : Type} [BitInput σ] {q : Decision} {r : Registers} {code : Encoding}

/-- **A code that fits the narrowed range** is answered as predicted. -/
theorem decide_of_fits_narrow (hq : q.InRange) (hr : r.rangeRest < 256)
    (hscale : r.rangeScale + 1 < wordBound) (hfit : code.Fits (r.narrow (r.split q.width)))
    {source : σ} (hroom : (pending source).length < wordBound) :
    q.decide ⟨source, r.holding code⟩ =
      .ok q.predicted ⟨source, (r.narrow (r.split q.width)).holding code⟩ := by
  obtain ⟨hfits, hb⟩ := hfit.of_narrow hr
  rcases decide_cases (d := ⟨source, r.holding code⟩) hfits.sound hq with
    ⟨-, hok⟩ | ⟨hb', -⟩ | ⟨hlong | hlong, -⟩
  · exact hok
  · exact absurd hb hb'
  · exact absurd hlong (Nat.not_le.2 hscale)
  · exact absurd hlong (Nat.not_le.2 hroom)

/-- **A code before a renewal** is answered against the prediction, and the
code after it is left. -/
theorem decide_of_fits_renewed (hq : q.InRange) (hr : r.rangeRest < 256)
    (hscale : r.rangeScale + 1 < wordBound) (hfit : code.Fits (renewedRange r q.width))
    {source : σ} (hbits : (code.beforeRenewal r q.width).bits <+: pending source)
    (hroom : (pending source).length < wordBound) :
    ∃ rest, code.bits <+: pending rest ∧ (pending rest).length < wordBound ∧
      q.decide ⟨source, r.holding (code.beforeRenewal r q.width)⟩ =
        .ok (!q.predicted) ⟨rest, (renewedRange r q.width).holding code⟩ := by
  have hw := hq.width_bounds
  have hw' : q.width ≤ 256 := by omega
  have hb := not_isBelow_beforeRenewal hw.1 hw' hfit
  have hren := renewed_beforeRenewal hw.1 hw' hr hfit
  obtain ⟨rest, ht, hok⟩ := renew_of_renewed (hfit.beforeRenewal hw.1 hw' hr).sound hw.1 hw' hb hren
    ((List.prefix_append _ _).trans hbits) hroom
  have hadm : (r.holding (code.beforeRenewal r q.width)).Admits q.width :=
    ⟨by omega, (r.split_scale_le q.width).trans_lt hscale⟩
  have hlen := ht.length_pending
  exact ⟨rest, ht.prefix_pending hbits, by omega, decide_of_renew_ok hq hadm hb hok⟩

/-- **A code gives its answers.** -/
theorem trail_encodeFrom {script : List (Decision × Bool)} {source : σ}
    (hq : ∀ p ∈ script, p.1.InRange) (hr : r.rangeRest < 256)
    (hscale : r.rangeScale + script.length < wordBound)
    (hbits : (encodeFrom script r).bits <+: pending source)
    (hroom : (pending source).length < wordBound) :
    (trail (script.map Prod.fst) ⟨source, r.holding (encodeFrom script r)⟩).map Prod.fst =
      script.map fun p => .ok p.2 := by
  induction script generalizing r source with
  | nil => rfl
  | cons p script ih =>
    obtain ⟨q, bin⟩ := p
    have hin : q.InRange := hq _ List.mem_cons_self
    have hothers : ∀ p ∈ script, p.1.InRange := fun p hp => hq p (List.mem_cons_of_mem _ hp)
    have hcut := r.split_scale_le q.width
    rw [List.length_cons] at hscale
    -- both sides of the cut are open, so the wanted answer is given
    by_cases hbin : bin = q.predicted
    · rw [encodeFrom, if_pos hbin] at hbits ⊢
      have hrest : (r.narrow (r.split q.width)).rangeRest < 256 :=
        Registers.split_rest_lt hr hin.width_bounds.1
      have hd := decide_of_fits_narrow hin hr (by omega) (fits_encodeFrom hothers hrest) hroom
      have hlater := ih hothers hrest
        (by change (r.split q.width).scale + script.length < wordBound; omega) hbits hroom
      rw [List.map_cons, trail, List.map_cons, List.map_cons, outcome, hd, hlater, hbin]
    · rw [encodeFrom, if_neg hbin] at hbits ⊢
      have hrest := renewedRange_rest_lt r q.width
      obtain ⟨rest, hbits', hroom', hd⟩ := decide_of_fits_renewed hin hr (by omega)
        (fits_encodeFrom hothers hrest) hbits hroom
      have hlater := ih hothers hrest
        (by change 0 + script.length < wordBound; omega) hbits' hroom'
      rw [List.map_cons, trail, List.map_cons, List.map_cons, outcome, hd, hlater,
        Bool.eq_not_of_ne hbin]

/-- **A decoder starts with the value that a code starts with**, and the
bits that follow are left. -/
theorem ofSource_of_prefix (hrest : code.valueRest < 256) {source : σ}
    (hbits : bitsOf (9 + code.valueScale) (256 + code.valueRest) ++ code.bits <+: pending source)
    (hroom : (pending source).length < wordBound) :
    ∃ rest, code.bits <+: pending rest ∧ (pending rest).length < wordBound ∧
      ofSource source = .ok ⟨rest, Registers.widest.holding code⟩ rest := by
  have hnine : appended 0 (bitsOf (9 + code.valueScale) (256 + code.valueRest)) =
      256 + code.valueRest := by
    have hfit : 2 ^ 9 ≤ 2 ^ (9 + code.valueScale) :=
      Nat.pow_le_pow_right (by decide) (Nat.le_add_right _ _)
    exact (appended_eq_iff_bitsOf.2 ⟨by omega, rfl⟩).2
  simp only [ofSource]
  rcases start_cases source with ⟨bits, rest, scale, ht, hlen, hge, hlt, hok⟩ |
    ⟨rest, hfew, -⟩ | ⟨rest, hlong, -⟩
  · -- the start takes the nine bits that the code starts with
    obtain rfl : bits = bitsOf (9 + code.valueScale) (256 + code.valueRest) :=
      eq_of_prefix_of_appended ⟨_, ht.pending_eq.symm⟩ ((List.prefix_append _ _).trans hbits)
        hge hlt (by omega) (by omega)
    rw [length_bitsOf, Nat.add_left_cancel_iff] at hlen
    have hvalue : (256 + code.valueRest) % 256 = code.valueRest := by omega
    have hpending := ht.length_pending
    refine ⟨rest, ht.prefix_pending hbits, by omega, ?_⟩
    rw [bind_ok hok, hnine, hvalue, ← hlen]
    rfl
  · obtain ⟨later, hlater⟩ := hbits
    have hmore := le_appended (256 + code.valueRest) (code.bits ++ later)
    rw [← hnine, ← appended_append, ← List.append_assoc, hlater, hnine] at hmore
    omega
  · omega

/-- **Every list of answers has a code.** Whatever is decided in whatever
order, and whatever is to be answered, the decoder starts on every source
that begins with the code and gives exactly these answers. -/
theorem trail_encode {script : List (Decision × Bool)} (hlen : script.length < 2 ^ 24)
    (hq : ∀ p ∈ script, p.1.InRange) :
    (encode script).length < wordBound ∧
      ∀ {σ : Type} [BitInput σ] (source : σ), encode script <+: pending source →
        (pending source).length < wordBound →
        ∃ d s, ofSource source = .ok d s ∧
          (trail (script.map Prod.fst) d).map Prod.fst = script.map fun p => .ok p.2 := by
  have hcode := length_encode_le script
  have hbound : 10 * 2 ^ 24 + 10 < wordBound := by decide
  refine ⟨by omega, ?_⟩
  intro σ _ source hbits hroom
  have hfit : (encodeFrom script Registers.widest).Fits Registers.widest :=
    fits_encodeFrom hq (by decide)
  obtain ⟨rest, hbits', hroom', hopen⟩ := ofSource_of_prefix hfit.valueRest_lt hbits hroom
  have htrail := trail_encodeFrom hq (by decide)
    (by change 0 + script.length < wordBound; omega) hbits' hroom'
  exact ⟨_, _, hopen, htrail⟩

/-- A code whose cut is as wide as the rest of the range, then borrows, and
whose last answer is the one that is least expected. -/
theorem trail_encode_four :
    let script : List (Decision × Bool) :=
      [(.bypass, false), (.bypass, true), (.bin true 700, false), (.stuffing, true)]
    encode script = [false, true, true, true, true, true, true, true, true, true, true, true,
        true, false, false, false, false, false, false, false, false] ∧
      ∃ d s, ofSource (BitTape.ofList (encode script)) = .ok d s ∧
        (trail (script.map Prod.fst) d).map Prod.fst =
          [.ok false, .ok true, .ok false, .ok true] := by
  intro script
  have hcode : encode script = [false, true, true, true, true, true, true, true, true, true, true,
      true, true, false, false, false, false, false, false, false, false] := by decide +kernel
  have hfew : script.length < 2 ^ 24 := by decide
  have hq : ∀ p ∈ script, p.1.InRange := by decide
  obtain ⟨hlen, hall⟩ := trail_encode hfew hq
  obtain ⟨d, s, hopen, hans⟩ := hall (BitTape.ofList (encode script)) (List.prefix_refl _) hlen
  exact ⟨hcode, d, s, hopen, hans⟩

end Decoding

end RangeDecoder

end AvsEntropy
