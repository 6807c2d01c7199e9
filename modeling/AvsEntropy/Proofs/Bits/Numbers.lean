import Mathlib.Tactic.Linarith
import Mathlib.Tactic.Ring

/-!
# Numbers from bits

`appended value bits` is the number that bits make below a value, most
significant bit first, and `bitsOf count n` are the low bits of a number
in that order. The two are inverse to each other
(`appended_eq_iff_bitsOf`).
-/

namespace AvsEntropy

/-- The number that bits make when they are appended below a value, most
significant bit first. -/
def appended (value : ℕ) (bits : List Bool) : ℕ :=
  bits.foldl (fun value bit => 2 * value + bit.toNat) value

@[simp] theorem appended_nil (value : ℕ) : appended value [] = value := rfl

@[simp] theorem appended_cons (value : ℕ) (bit : Bool) (bits : List Bool) :
    appended value (bit :: bits) = appended (2 * value + bit.toNat) bits := rfl

/-- Appending is done in steps. -/
@[simp] theorem appended_append (value : ℕ) (bits more : List Bool) :
    appended value (bits ++ more) = appended (appended value bits) more := by
  simp [appended]

/-- **The value moves up by as many places as there are bits**, and the
bits fill the places below. -/
theorem appended_eq (value : ℕ) (bits : List Bool) :
    appended value bits = value * 2 ^ bits.length + appended 0 bits := by
  induction bits generalizing value with
  | nil => simp
  | cons bit bits ih =>
    rw [appended_cons, ih, appended_cons, ih (2 * 0 + bit.toNat), List.length_cons, pow_succ]
    ring

/-- What is added to the value moves up with it. -/
theorem appended_add (value more : ℕ) (bits : List Bool) :
    appended (value + more) bits = appended value bits + more * 2 ^ bits.length := by
  rw [appended_eq, appended_eq value]
  ring

/-- Bits alone make a number of as many places. -/
theorem appended_zero_lt (bits : List Bool) : appended 0 bits < 2 ^ bits.length := by
  induction bits with
  | nil => simp
  | cons bit bits ih =>
    rw [appended_cons, appended_eq, List.length_cons, pow_succ]
    cases bit <;> simp only [Bool.toNat_false, Bool.toNat_true] <;> omega

/-- **Bits do not change how a value compares with a bound** that moves up
with it. -/
theorem appended_lt_iff (value bound : ℕ) (bits : List Bool) :
    appended value bits < bound * 2 ^ bits.length ↔ value < bound := by
  have hlow := appended_zero_lt bits
  rw [appended_eq]
  constructor
  · intro h
    by_contra hge
    have hmul := Nat.mul_le_mul_right (2 ^ bits.length) (Nat.le_of_not_lt hge)
    omega
  · intro h
    have hmul := Nat.mul_le_mul_right (2 ^ bits.length) (Nat.succ_le_of_lt h)
    rw [Nat.succ_mul] at hmul
    omega

/-- A value does not shrink when bits are appended. -/
theorem le_appended (value : ℕ) (bits : List Bool) : value ≤ appended value bits := by
  rw [appended_eq]
  exact le_add_right (Nat.le_mul_of_pos_right _ (Nat.two_pow_pos _))

/-- **A value doubles with every bit**, so one that stays below its double
had none appended. -/
theorem eq_nil_of_appended_lt {value bound : ℕ} {bits : List Bool} (hle : bound ≤ value)
    (hlt : appended value bits < 2 * bound) : bits = [] := by
  cases bits with
  | nil => rfl
  | cons bit bits =>
    have hmore := le_appended (2 * value + bit.toNat) bits
    rw [appended_cons] at hlt
    omega

/-- **Two beginnings of one list that make numbers of as many bits are the
same.** -/
theorem eq_of_prefix_of_appended {value bound : ℕ} {bits bits' all : List Bool}
    (hp : bits <+: all) (hp' : bits' <+: all)
    (hle : bound ≤ appended value bits) (hlt : appended value bits < 2 * bound)
    (hle' : bound ≤ appended value bits') (hlt' : appended value bits' < 2 * bound) :
    bits = bits' := by
  rcases List.prefix_or_prefix_of_prefix hp hp' with ⟨more, rfl⟩ | ⟨more, rfl⟩
  · rw [appended_append] at hlt'
    rw [eq_nil_of_appended_lt hle hlt', List.append_nil]
  · rw [appended_append] at hlt
    rw [eq_nil_of_appended_lt hle' hlt, List.append_nil]

/-- Bits that are not all set make less than the largest number. -/
theorem appended_zero_succ_lt {bits : List Bool} (h : bits ≠ List.replicate bits.length true) :
    appended 0 bits + 1 < 2 ^ bits.length := by
  induction bits with
  | nil => exact absurd rfl h
  | cons bit bits ih =>
    have hlt := appended_zero_lt bits
    rw [appended_cons, appended_eq, List.length_cons, pow_succ]
    cases bit with
    | false => simp only [Bool.toNat_false]; omega
    | true =>
      have := ih fun hbits => h (by rw [List.length_cons, List.replicate_succ, ← hbits])
      simp only [Bool.toNat_true]
      omega

/-! ## Bits from numbers -/

/-- The low bits of a number, most significant bit first. -/
def bitsOf : ℕ → ℕ → List Bool
  | 0, _ => []
  | count + 1, n => n.testBit count :: bitsOf count n

@[simp] theorem length_bitsOf (count n : ℕ) : (bitsOf count n).length = count := by
  induction count with
  | zero => rfl
  | succ count ih => rw [bitsOf, List.length_cons, ih]

/-- Bits that are appended are the low bits of what they make. -/
theorem bitsOf_appended (value : ℕ) (bits : List Bool) :
    bitsOf bits.length (appended value bits) = bits := by
  induction bits generalizing value with
  | nil => rfl
  | cons bit bits ih =>
    have hlow := appended_zero_lt bits
    -- the bits behind stay below the place of the first
    have hbit : (appended (2 * value + bit.toNat) bits).testBit bits.length = bit := by
      rw [appended_eq, Nat.mul_comm, Nat.testBit_two_pow_mul_add _ hlow, if_neg (lt_irrefl _),
        Nat.sub_self, Nat.testBit_zero]
      cases bit <;> simp only [Bool.toNat_false, Bool.toNat_true, decide_eq_true_eq,
        decide_eq_false_iff_not] <;> omega
    rw [List.length_cons, bitsOf, appended_cons, hbit, ih]

/-- The low bits of a number make what is left of it. -/
theorem appended_bitsOf (value count n : ℕ) :
    appended value (bitsOf count n) = value * 2 ^ count + n % 2 ^ count := by
  induction count generalizing value with
  | zero => rw [bitsOf, appended_nil, pow_zero, Nat.mod_one, Nat.mul_one, Nat.add_zero]
  | succ count ih =>
    rw [bitsOf, appended_cons, ih, Nat.toNat_testBit, Nat.mod_pow_succ, pow_succ]
    ring

/-- **As many bits as a number has are its bits**, and no others make it. -/
theorem appended_eq_iff_bitsOf {bits : List Bool} {count n : ℕ} :
    bits.length = count ∧ appended 0 bits = n ↔ n < 2 ^ count ∧ bits = bitsOf count n := by
  constructor
  · rintro ⟨rfl, rfl⟩
    exact ⟨appended_zero_lt bits, (bitsOf_appended 0 bits).symm⟩
  · rintro ⟨hn, rfl⟩
    refine ⟨length_bitsOf count n, ?_⟩
    rw [appended_bitsOf, Nat.zero_mul, Nat.zero_add, Nat.mod_eq_of_lt hn]

end AvsEntropy
