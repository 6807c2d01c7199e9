import AvsEntropy.Bits.Tape
import AvsEntropy.Proofs.Range.Decisions
import Mathlib.Data.Int.Log
import Mathlib.Data.Rat.Floor
import Mathlib.Tactic.FieldSimp
import Mathlib.Tactic.Positivity

/-!
# The exact interval decoder

The range decoder keeps eight bits of a range and of a value and renews
them when it must. An `ExactInterval` keeps both as exact rationals and
renews nothing: a cut takes its width off the range, on the scale at
which the range has nine bits before the point, and the symbol is the
predicted one where the value lies below the cut.

The registers and the bits still pending stand for the two rationals
multiplied by a power of two (`Represents`). Every decision keeps that,
so all answers of a run are those of the exact decoder.
-/

namespace AvsEntropy

open BitInput

/-! ## Binary fractions -/

/-- The number that bits make behind the binary point. Bits that are
missing count zero. -/
def fraction : List Bool → ℚ
  | [] => 0
  | bit :: bits => (bit.toNat + fraction bits) / 2

theorem fraction_nonneg (bits : List Bool) : 0 ≤ fraction bits := by
  induction bits with
  | nil => exact le_refl 0
  | cons bit bits ih => rw [fraction]; positivity

theorem fraction_lt_one (bits : List Bool) : fraction bits < 1 := by
  induction bits with
  | nil => exact zero_lt_one
  | cons bit bits ih =>
    have hbit : (bit.toNat : ℚ) ≤ 1 := by exact_mod_cast bit.toNat_le
    rw [fraction]
    linarith

/-- **Bits that are taken move in front of the point.** -/
theorem appended_add_fraction (value : ℕ) (bits more : List Bool) :
    (appended value bits : ℚ) + fraction more =
      (value + fraction (bits ++ more)) * 2 ^ bits.length := by
  induction bits generalizing value with
  | nil => simp
  | cons bit bits ih =>
    rw [appended_cons, ih, List.cons_append, fraction, List.length_cons, pow_succ]
    push_cast
    ring

/-- Numbers compare as they do after as many doublings. -/
theorem lt_iff_mul_pow_lt {x y : ℚ} (n : ℕ) : x < y ↔ x * 2 ^ n < y * 2 ^ n :=
  (mul_lt_mul_iff_left₀ (by positivity)).symm

/-! ## The exact decoder -/

/-- A range and a value, exactly. -/
structure ExactInterval where
  /-- How wide the range is. -/
  range : ℚ
  /-- Where in the range the value lies. -/
  value : ℚ
  deriving DecidableEq

namespace ExactInterval

/-- The widest range, and the value that bits make with nine of them
before the point. -/
def ofBits (bits : List Bool) : ExactInterval := ⟨511, 512 * fraction bits⟩

/-- How often a range is doubled until it has nine bits before the point. -/
def scale (i : ExactInterval) : ℕ := (8 - Int.log 2 i.range).toNat

/-- The range has nine bits before the point on its scale. -/
def Scaled (i : ExactInterval) : Prop :=
  256 ≤ i.range * 2 ^ i.scale ∧ i.range * 2 ^ i.scale < 512

/-- What a cut of `width` leaves of the range. The width is taken off on
the scale of the range, or one step deeper where the eight low bits are
too small for it. -/
def cut (i : ExactInterval) (width : ℕ) : ℚ :=
  let rest := i.range * 2 ^ i.scale - 256
  if width ≤ rest then (256 + rest - width) / 2 ^ i.scale
  else (512 + rest - width) / 2 ^ (i.scale + 1)

/-- The symbol decided: the predicted one where the value is below the
cut. -/
def decide (i : ExactInterval) (q : Decision) : Bool :=
  if i.value < i.cut q.width then q.predicted else !q.predicted

/-- The range and the value after a decision: the side of the cut that
the value lies on, and the value measured from its lower end. -/
def after (i : ExactInterval) (q : Decision) : ExactInterval :=
  if i.value < i.cut q.width then ⟨i.cut q.width, i.value⟩
  else ⟨i.range - i.cut q.width, i.value - i.cut q.width⟩

/-- The symbols decided one after the other. -/
def answers : ExactInterval → List Decision → List Bool
  | _, [] => []
  | i, q :: qs => i.decide q :: (i.after q).answers qs

/-- The range and the value after a list of decisions. -/
def afterAll (i : ExactInterval) (qs : List Decision) : ExactInterval := qs.foldl after i

/-- **The scale is the only number of doublings that gives the range nine
bits.** -/
theorem scale_eq {i : ExactInterval} {s : ℕ} (h : 256 ≤ i.range * 2 ^ s)
    (h' : i.range * 2 ^ s < 512) : i.scale = s := by
  have hpow : (0 : ℚ) < 2 ^ s := by positivity
  have hpos : 0 < i.range := by
    by_contra hneg
    nlinarith
  have hlow : 8 - (s : ℤ) ≤ Int.log 2 i.range := by
    rw [← Int.zpow_le_iff_le_log (by norm_num) hpos, zpow_sub₀ (by norm_num), zpow_natCast,
      div_le_iff₀ (by exact_mod_cast hpow)]
    exact_mod_cast h
  have hhigh : Int.log 2 i.range < 9 - (s : ℤ) := by
    rw [← Int.lt_zpow_iff_log_lt (by norm_num) hpos, zpow_sub₀ (by norm_num), zpow_natCast,
      lt_div_iff₀ (by exact_mod_cast hpow)]
    exact_mod_cast h'
  rw [scale]
  omega

end ExactInterval

/-! ## The registers stand for an exact interval -/

namespace RangeDecoder

variable {σ : Type} [BitInput σ] {d : RangeDecoder σ} {i : ExactInterval} {k : ℕ}

/-- The registers, with the bits still pending, stand for an exact
interval that was doubled `k` times: its range is the range of the
registers, its value theirs followed by the pending bits. The value lies
in the range. -/
structure Represents (d : RangeDecoder σ) (i : ExactInterval) (k : ℕ) : Prop where
  sound : d.registers.Sound
  range_eq : i.range * 2 ^ (k + d.registers.rangeScale) = 256 + d.registers.rangeRest
  value_eq : i.value * 2 ^ (k + d.registers.valueScale) =
    256 + d.registers.valueRest + fraction (pending d.source)
  value_lt : i.value < i.range

namespace Represents

/-- The scale of the range is that of the registers, past the doublings. -/
theorem scaled (h : Represents d i k) :
    256 ≤ i.range * 2 ^ (k + d.registers.rangeScale) ∧
      i.range * 2 ^ (k + d.registers.rangeScale) < 512 := by
  have hrest : (d.registers.rangeRest : ℚ) < 256 := by exact_mod_cast h.sound.rangeRest_lt
  have hnonneg : (0 : ℚ) ≤ d.registers.rangeRest := Nat.cast_nonneg _
  rw [h.range_eq]
  constructor <;> linarith

theorem scale_eq (h : Represents d i k) : i.scale = k + d.registers.rangeScale :=
  ExactInterval.scale_eq h.scaled.1 h.scaled.2

/-- The interval has nine bits before the point on its scale. -/
theorem isScaled (h : Represents d i k) : i.Scaled := by
  rw [ExactInterval.Scaled, h.scale_eq]
  exact h.scaled

/-- **Both decoders cut at the same place.** -/
theorem cut_eq (h : Represents d i k) {width : ℕ} (hw : width ≤ 256) :
    i.cut width * 2 ^ (k + (d.registers.split width).scale) =
      256 + (d.registers.split width).rest := by
  have hrest : i.range * 2 ^ (k + d.registers.rangeScale) - 256 = d.registers.rangeRest := by
    rw [h.range_eq]
    ring
  simp only [ExactInterval.cut, h.scale_eq, hrest]
  -- the exact cut borrows where the registers do
  rcases d.registers.split_cases width with ⟨hle, hs, -⟩ | ⟨hlt, hs, -⟩
  · rw [if_pos (by exact_mod_cast hle), hs, div_mul_cancel₀ _ (by positivity)]
    push_cast [hle]
    ring
  · rw [if_neg (by exact_mod_cast (by omega : ¬ width ≤ d.registers.rangeRest)), hs, Nat.add_assoc,
      div_mul_cancel₀ _ (by positivity)]
    push_cast [show width ≤ 256 + d.registers.rangeRest by omega]
    ring

/-- What is cut off has the width of the severed end. -/
theorem range_sub_cut_eq (h : Represents d i k) {width : ℕ} (hw : width ≤ 256) :
    (i.range - i.cut width) * 2 ^ (k + (d.registers.split width).scale) =
      d.registers.severed (d.registers.split width) width := by
  have hcut := h.cut_eq hw
  have hrange := h.range_eq
  rw [sub_mul, hcut]
  rcases d.registers.split_cases width with ⟨hle, hs, hn⟩ | ⟨hlt, hs, hn⟩
  · rw [hn, hs]
    dsimp only
    rw [hrange]
    push_cast [hle]
    ring
  · rw [hn, hs]
    dsimp only
    rw [← Nat.add_assoc, pow_succ, ← mul_assoc, hrange]
    push_cast [show width ≤ 256 + d.registers.rangeRest by omega]
    ring

/-- **Both decoders find the value on the same side.** More leading zeros
are a smaller value; with as many, the rests decide, and the bits still
pending make no difference. -/
theorem value_lt_cut_iff (h : Represents d i k) {width : ℕ} (hw : 1 ≤ width) (hw' : width ≤ 256) :
    i.value < i.cut width ↔ d.registers.isBelow (d.registers.split width) = true := by
  have hcut := h.cut_eq hw'
  have hvalue := h.value_eq
  have hf := fraction_nonneg (pending d.source)
  have hf' := fraction_lt_one (pending d.source)
  have hcr : ((d.registers.split width).rest : ℚ) + 1 ≤ 256 := by
    exact_mod_cast Registers.split_rest_lt h.sound.rangeRest_lt hw
  have hvr : (d.registers.valueRest : ℚ) + 1 ≤ 256 := by exact_mod_cast h.sound.valueRest_lt
  have hcr₀ : (0 : ℚ) ≤ (d.registers.split width).rest := Nat.cast_nonneg _
  have hvr₀ : (0 : ℚ) ≤ d.registers.valueRest := Nat.cast_nonneg _
  rw [Registers.isBelow_iff]
  -- a step of scale is worth more than any difference of the rests
  rcases lt_trichotomy (d.registers.split width).scale d.registers.valueScale with hlt | heq | hgt
  · obtain ⟨n, hn⟩ := Nat.exists_eq_add_of_lt hlt
    refine iff_of_true ((lt_iff_mul_pow_lt (k + d.registers.valueScale)).2 ?_) (.inl hlt)
    have hpow : (1 : ℚ) ≤ 2 ^ n := one_le_pow₀ one_le_two
    rw [hvalue, hn, ← Nat.add_assoc, ← Nat.add_assoc, pow_succ, pow_add, ← mul_assoc, ← mul_assoc,
      hcut]
    nlinarith
  · -- the bits still pending are less than one unit of the rests
    rw [lt_iff_mul_pow_lt (k + d.registers.valueScale), hvalue, ← heq, hcut]
    simp only [lt_irrefl, false_or, true_and]
    constructor
    · intro hlt
      exact_mod_cast (by linarith : (d.registers.valueRest : ℚ) < (d.registers.split width).rest)
    · intro hlt
      have : (d.registers.valueRest : ℚ) + 1 ≤ (d.registers.split width).rest := by
        exact_mod_cast hlt
      linarith
  · obtain ⟨n, hn⟩ := Nat.exists_eq_add_of_lt hgt
    refine iff_of_false (not_lt.2 (le_of_lt ((lt_iff_mul_pow_lt
      (k + (d.registers.split width).scale)).2 ?_))) (by omega)
    have hpow : (1 : ℚ) ≤ 2 ^ n := one_le_pow₀ one_le_two
    rw [hcut, hn, ← Nat.add_assoc, ← Nat.add_assoc, pow_succ, pow_add, ← mul_assoc, ← mul_assoc,
      hvalue]
    nlinarith

/-- A narrowed range stands for the side below the cut. -/
theorem narrow (h : Represents d i k) {width : ℕ} (hw : 1 ≤ width) (hw' : width ≤ 256)
    (hb : d.registers.isBelow (d.registers.split width) = true) :
    Represents ⟨d.source, d.registers.narrow (d.registers.split width)⟩
      ⟨i.cut width, i.value⟩ k where
  sound := h.sound.narrow hw hb
  range_eq := h.cut_eq hw'
  value_eq := h.value_eq
  value_lt := (h.value_lt_cut_iff hw hw').2 hb

section Renewal

variable {width : ℕ} {bits : List Bool} {rest : σ} {value : ℕ} {after : Registers}

/-- The severed end, doubled until it has nine bits, is the new range. -/
theorem range_renewed (h : Represents d i k) (hw' : width ≤ 256)
    (hren : Renewed d.registers width bits value after) :
    (i.range - i.cut width) * 2 ^ (k + (d.registers.split width).scale +
      doublings (d.registers.severed (d.registers.split width) width)) =
        256 + after.rangeRest := by
  rw [pow_add _ (k + _), ← mul_assoc, h.range_sub_cut_eq hw']
  exact_mod_cast hren.rangeRest_eq.symm

/-- The value above the cut, after all bits that were taken, is the new
value. -/
theorem value_renewed (h : Represents d i k) (hw' : width ≤ 256)
    (hb : ¬ d.registers.isBelow (d.registers.split width) = true)
    (ht : Takes d.source bits rest) (hren : Renewed d.registers width bits value after) :
    (i.value - i.cut width) * 2 ^ (k + (d.registers.split width).scale +
      doublings (d.registers.severed (d.registers.split width) width) + after.valueScale) =
        value + fraction (pending rest) := by
  have hscale : d.registers.valueScale ≤ (d.registers.split width).scale := by
    rw [Registers.isBelow_iff] at hb
    omega
  have htaken := appended_add_fraction (256 + d.registers.valueRest) bits (pending rest)
  rw [← ht.pending_eq, hren.appended_eq] at htaken
  push_cast at htaken
  rw [← h.value_eq, mul_assoc, ← pow_add, hren.length_eq] at htaken
  rw [Nat.add_assoc _ (doublings _), sub_mul, pow_add _ (k + _), ← mul_assoc, ← mul_assoc,
    h.cut_eq hw', mul_assoc i.value, ← pow_add,
    show k + (d.registers.split width).scale +
      (doublings (d.registers.severed (d.registers.split width) width) + after.valueScale) =
      k + d.registers.valueScale + ((d.registers.split width).scale - d.registers.valueScale +
        doublings (d.registers.severed (d.registers.split width) width) + after.valueScale) by omega,
    ← htaken]
  ring

/-- **Renewed registers stand for the side above the cut**, doubled as
often as the cut is deep and the severed end was short. -/
theorem renew (h : Represents d i k) (hw : 1 ≤ width) (hw' : width ≤ 256)
    (hb : ¬ d.registers.isBelow (d.registers.split width) = true)
    (ht : Takes d.source bits rest) (hren : Renewed d.registers width bits value after) :
    Represents ⟨rest, after⟩ ⟨i.range - i.cut width, i.value - i.cut width⟩
      (k + (d.registers.split width).scale +
        doublings (d.registers.severed (d.registers.split width) width)) := by
  have hrange := h.range_renewed hw' hren
  have hvalue := h.value_renewed hw' hb ht hren
  have hsound := hren.sound hw hw'
  have hlt : i.value - i.cut width < i.range - i.cut width := by linarith [h.value_lt]
  -- the new value has no tenth bit: it is normalized, or still below the new range
  have hnine : value < 512 := by
    rcases Nat.eq_zero_or_pos after.valueScale with hzero | hpos
    · rw [hzero, Nat.add_zero] at hvalue
      have hrest : (after.rangeRest : ℚ) < 256 := by exact_mod_cast hsound.rangeRest_lt
      have hf := fraction_nonneg (pending rest)
      rw [lt_iff_mul_pow_lt, hvalue, hrange] at hlt
      exact_mod_cast (by linarith : (value : ℚ) < 512)
    · exact hren.value_lt hpos
  have hle := hren.le_value
  have hmod : value = 256 + after.valueRest := by rw [hren.valueRest_eq]; omega
  exact
    { sound := hsound
      range_eq := by rw [hren.rangeScale_eq]; exact hrange
      value_eq := by rw [hvalue, hmod]; push_cast; ring
      value_lt := hlt }

end Renewal

end Represents

/-- **One decision.** Where the decoder answers, the exact decoder gives
the same answer, and the registers stand for what it leaves. -/
theorem decide_of_represents {q : Decision} {bin : Bool} {after : RangeDecoder σ}
    (h : Represents d i k) (hq : q.InRange) (hok : q.decide d = .ok bin after) :
    bin = i.decide q ∧ ∃ k', Represents after (i.after q) k' := by
  have hw := hq.width_bounds
  have hlt := h.value_lt_cut_iff hw.1 (by omega : q.width ≤ 256)
  rcases decide_ok h.sound hq hok with ⟨hb, rfl, rfl⟩ | ⟨hb, rfl, bits, value, ht, hren⟩
  · rw [ExactInterval.decide, ExactInterval.after, if_pos (hlt.2 hb), if_pos (hlt.2 hb)]
    exact ⟨rfl, k, h.narrow hw.1 (by omega) hb⟩
  · rw [ExactInterval.decide, ExactInterval.after, if_neg (mt hlt.1 hb), if_neg (mt hlt.1 hb)]
    exact ⟨rfl, _, h.renew hw.1 (by omega) hb ht hren⟩

/-- **The start.** Unless a code starts with nine ones, its value lies in
the widest range, and the decoder starts out standing for both. -/
theorem represents_of_ofSource {source s : σ} (h : ofSource source = .ok d s)
    (hnine : (pending source).take 9 ≠ List.replicate 9 true) :
    Represents d (.ofBits (pending source)) 0 := by
  have hsound := sound_of_ofSource h
  obtain ⟨bits, scale, ht, hlen, hge, hlt, hr⟩ := ofSource_ok h
  have hvalue := appended_add_fraction 0 bits (pending d.source)
  rw [← ht.pending_eq, hlen] at hvalue
  refine ⟨hsound, ?_, ?_, ?_⟩
  · rw [hr]
    norm_num [ExactInterval.ofBits]
  · have hmod : appended 0 bits = 256 + appended 0 bits % 256 := by omega
    rw [hmod, pow_add] at hvalue
    push_cast at hvalue
    rw [hr, ExactInterval.ofBits]
    dsimp only
    rw [hvalue]
    ring
  · -- nine bits that are not all ones make less than the widest range
    have hlong : ((pending source).take 9).length = 9 := by
      rw [List.length_take, ht.length_pending, hlen]
      omega
    have hne : (pending source).take 9 ≠ List.replicate ((pending source).take 9).length true := by
      rwa [hlong]
    have hfirst := appended_zero_succ_lt hne
    have hsplit := appended_add_fraction 0 ((pending source).take 9) ((pending source).drop 9)
    have hfrac := fraction_lt_one ((pending source).drop 9)
    rw [List.take_append_drop, hlong] at hsplit
    rw [hlong] at hfirst
    have hcast : (appended 0 ((pending source).take 9) : ℚ) + 1 ≤ 511 := by
      exact_mod_cast (by omega : appended 0 ((pending source).take 9) + 1 ≤ 511)
    rw [ExactInterval.ofBits]
    dsimp only
    push_cast at hsplit
    linarith

/-! ## Whole runs -/

/-- Every answer of a run is that of the exact decoder, and the range has
nine bits on its scale before each of them. -/
theorem trail_of_represents {qs : List Decision} (h : Represents d i k)
    (hq : ∀ q ∈ qs, q.InRange) (hok : ∀ o ∈ trail qs d, o.1.isOk = true) :
    (trail qs d).map Prod.fst = (i.answers qs).map .ok ∧
      ∀ n ≤ qs.length, (i.afterAll (qs.take n)).Scaled := by
  induction qs generalizing d i k with
  | nil =>
    refine ⟨rfl, fun n hn => ?_⟩
    rw [List.take_nil]
    exact h.isScaled
  | cons q qs ih =>
    obtain ⟨bin, hbin, hd⟩ := decide_of_outcome (hok _ List.mem_cons_self)
    obtain ⟨hans, k', hrep⟩ := decide_of_represents h (hq q List.mem_cons_self) hd
    obtain ⟨hrest, hscaled⟩ := ih hrep (fun q' hq' => hq q' (List.mem_cons_of_mem _ hq'))
      fun o ho => hok o (List.mem_cons_of_mem _ ho)
    refine ⟨?_, ?_⟩
    · rw [trail, List.map_cons, hbin, hrest, hans]
      rfl
    · rintro (_ | n) hn
      · exact h.isScaled
      · exact hscaled n (by simpa using hn)

/-- **The range decoder is the exact interval decoder**, as long as it
answers, and unless the code starts with nine ones: however long the
renewal of its registers is put off, and whatever is decided in whatever
order. -/
theorem trail_eq_answers {source s : σ} {qs : List Decision}
    (hopen : ofSource source = .ok d s)
    (hnine : (pending source).take 9 ≠ List.replicate 9 true)
    (hrange : ∀ q ∈ qs, q.InRange) (hok : ∀ o ∈ trail qs d, o.1.isOk = true) :
    (trail qs d).map Prod.fst = ((ExactInterval.ofBits (pending source)).answers qs).map .ok ∧
      ∀ n ≤ qs.length, ((ExactInterval.ofBits (pending source)).afterAll (qs.take n)).Scaled :=
  trail_of_represents (represents_of_ofSource hopen hnine) hrange hok

/-- A run that renews the range, narrows it twice, and renews it at a cut
that lies deeper than the value. -/
theorem trail_eq_answers_four :
    let source := BitTape.ofList [true, true, false, true, false, false, true, true, false, true,
      true, false]
    let qs : List Decision := [.bypass, .bin true 700, .bypass, .bin true 900]
    let d : RangeDecoder BitTape := ⟨⟨[true, true, false], 9⟩, ⟨0, 255, 0, 166⟩⟩
    ofSource source = .ok d d.source ∧ (∀ o ∈ trail qs d, o.1.isOk = true) ∧
      (trail qs d).map Prod.fst =
        ((ExactInterval.ofBits (pending source)).answers qs).map .ok := by
  intro source qs d
  have hopen : ofSource source = .ok d d.source := by with_unfolding_all rfl
  have hok : ∀ o ∈ trail qs d, o.1.isOk = true := by decide +kernel
  exact ⟨hopen, hok, (trail_eq_answers hopen (by decide) (by decide) hok).1⟩

end RangeDecoder

end AvsEntropy
