import AvsEntropy.Bits.Input
import AvsEntropy.Notice

/-!
# The range decoder

A range decoder owns a source of bits and four registers. It decides one
binary symbol at a time: the caller predicts the symbol and says how
sure the prediction is, and the answer is the prediction where the value
lies in the range that is left after the cut, its opposite where it does
not. The first outcome only narrows the range and reads nothing. The
second renews it: the part cut off is doubled to nine bits, the value
follows with fresh bits, and its leading zeros are counted again.

A decision that fails leaves the registers as they were; the bits it
consumed stay consumed.

Starting a decoder takes bits and may fail, and there is something to say of
it in either case. An `Opening` is the outcome.
-/

namespace AvsEntropy

/-- A source of bits under decoding. -/
structure RangeDecoder (σ : Type) where
  /-- Where fresh bits come from. -/
  source : σ
  /-- The range and the value. -/
  registers : Registers
  deriving DecidableEq

namespace RangeDecoder

open BitInput

variable {σ : Type} [BitInput σ]

/-- Appends bits below a value until it has nine bits, and counts them
on top of `scale`. The answer is the count and the value. -/
def normalize (scale value : Nat) (s : σ) : EStateM.Result Stop σ (Nat × Nat) :=
  if 256 ≤ value then .ok (scale, value) s
  else
    match h : next? s with
    | none => .error (.failed .endOfStream) s
    | some (bit, rest) =>
      if scale + 1 < wordBound then normalize (scale + 1) (2 * value + bit.toNat) rest
      else .error .fault rest
termination_by (pending s).length
decreasing_by exact length_pending_lt h

/-- The registers at the start of a code: the widest range, and the
value that begins with the first one among the bits. -/
def start : EStateM Stop σ Registers := do
  let word ← readWord 9
  let (scale, value) ← normalize 0 word
  return ⟨0, 255, scale, value % 256⟩

/-- Begins to decode a source where it stands. -/
def ofSource : EStateM Stop σ (RangeDecoder σ) := do
  let registers ← start
  return ⟨← get, registers⟩

/-- The distance from a cut up to a value, which must not lie below it. -/
def distance (value cut : Nat) : EStateM Stop σ Nat :=
  match difference? value cut with
  | some above => return above
  | none => throw .fault

/-- The value above a cut, measured from the cut. One bit is fetched
where the cut lies a step of scale deeper than the value. -/
def excess (r : Registers) (cut : Split) : EStateM Stop σ Nat :=
  if cut.scale = r.valueScale then distance r.valueRest cut.rest
  else do
    let bit ← readBit
    distance (256 + (2 * r.valueRest + bit.toNat)) cut.rest

/-- The scale and the value of a renewal, before the value is cut to its
eight low bits. The end that was cut off must not be empty. -/
def renewalValue (r : Registers) (cut : Split) (width : Nat) : EStateM Stop σ (Nat × Nat) := do
  let severed := r.severed cut width
  if severed = 0 then throw .fault
  let above ← excess r cut
  let above ← appendBits (doublings severed) above
  let (scale, value) ← normalize 0 above
  return (scale, value)

/-- The registers of a renewal that found a scale and a value: the range
starts anew from the end that was cut off. -/
def renewedRegisters (r : Registers) (cut : Split) (width scale value : Nat) : Registers :=
  ⟨0, r.severed cut width <<< doublings (r.severed cut width) % 256, scale, value % 256⟩

/-- Renews the range with the end that was cut off. -/
def renew (r : Registers) (cut : Split) (width : Nat) : EStateM Stop σ Registers := do
  let found ← renewalValue r cut width
  return renewedRegisters r cut width found.1 found.2

/-- Decides one symbol: `predicted` where the value is below the cut,
its opposite otherwise. -/
def decideBin (predicted : Bool) (probability : Nat) : EStateM Stop (RangeDecoder σ) Bool := fun d =>
  if minProbability ≤ probability ∧ probability ≤ maxProbability then
    let width := probability / 4
    let cut := d.registers.split width
    if d.registers.Admits width then
      if d.registers.isBelow cut then
        .ok predicted { d with registers := d.registers.narrow cut }
      else
        match renew d.registers cut width d.source with
        | .ok registers source => .ok (!predicted) ⟨source, registers⟩
        | .error stop source => .error stop { d with source }
    else .error .fault d
  else .error (.failed (.invalidArgument (.probability probability))) d

/-- Decides one symbol at even odds. -/
def bypass : EStateM Stop (RangeDecoder σ) Bool := decideBin false bypassProbability

/-- Decides the stuffing bit, which ends a slice when it is set. -/
def stuffing : EStateM Stop (RangeDecoder σ) Bool := decideBin false stuffingProbability

/-- How many bits the source has given. -/
def position (d : RangeDecoder σ) : Nat := BitInput.position d.source

end RangeDecoder

/-! ## Openings -/

/-- What starting a decoder gives: the decoder, or why there is none,
and what there is to say of it. -/
structure Opening (δ : Type) where
  /-- The decoder, if it started. -/
  result : Except Stop δ
  /-- The notices, in order. -/
  notices : List Notice

/-- A range decoder that starts where a source stands. -/
def RangeDecoder.openSource {σ : Type} [BitInput σ] (source : σ) : Opening (RangeDecoder σ) :=
  match RangeDecoder.ofSource source with
  | .ok d _ =>
    match difference? d.position (BitInput.position source) with
    | some bits => ⟨.ok d, [.started bits d.registers]⟩
    | none => ⟨.error .fault, []⟩
  | .error stop _ => ⟨.error stop, []⟩

end AvsEntropy
