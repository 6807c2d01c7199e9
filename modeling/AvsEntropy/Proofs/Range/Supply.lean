import AvsEntropy.Bits.Tape
import AvsEntropy.Proofs.Range.Depth

/-!
# How many answers the bits are good for

A decision may be answered without a bit, so the bits alone do not bound
the answers. They do together with the registers: a range that is
narrowed comes nearer to its value, which it never reaches, and how far
off the value can be is settled by the leading zeros that were read with
it. `supply` counts both, the steps from the range down to the value and
512 for every bit to come.

Every answer uses up some of the supply (`supply_lt_of_decide_ok`) and a
decision that fails adds nothing, so that a decoder gives at most as many
answers as it has supply (`Sound.answered_add_supply_le`), and at its
start that is at most 512 for each bit (`supply_ofSource_le`).
-/

namespace AvsEntropy

open BitInput

namespace Registers

/-- How far the range lies above the value. -/
def reserve (r : Registers) : ℕ := r.valueDepth - r.rangeDepth

variable {r after : Registers} {width value : ℕ} {bits : List Bool}

/-- A range that is narrowed comes nearer to its value. -/
theorem reserve_narrow_lt (hr : r.Sound) (hw : 1 ≤ width) (hw' : width ≤ 256)
    (hb : r.isBelow (r.split width) = true) :
    (r.narrow (r.split width)).reserve < r.reserve := by
  have hbelow := (isBelow_split_iff hr hw hw').1 hb
  unfold reserve
  rw [rangeDepth_narrow, valueDepth_narrow, depth_split hr.rangeRest_lt hw']
  omega

/-- A value is as far off as its leading zeros say. -/
theorem reserve_le (r : Registers) : r.reserve ≤ 256 * r.valueScale + 255 := by
  unfold reserve valueDepth
  omega

/-- **A renewal pays for the distance it opens**: with half of what its
bits are worth, and with more where the value has leading zeros. -/
theorem reserve_renewed_lt (hr : r.Sound)
    (h : RangeDecoder.Renewed r width bits value after) : after.reserve < 512 * bits.length := by
  have hfar := after.reserve_le
  have hlen := h.length_eq
  have hsome := List.length_pos_iff.2 (h.bits_ne_nil hr)
  omega

end Registers

namespace RangeDecoder

variable {σ : Type} [BitInput σ] {d after : RangeDecoder σ} {q : Decision} {bin : Bool}

/-- What a decoder has left to answer from: the distance from its range
down to its value, and 512 for every bit to come. -/
def supply (d : RangeDecoder σ) : ℕ := d.registers.reserve + 512 * (pending d.source).length

/-- **Every answer uses up some of the supply.** -/
theorem supply_lt_of_decide_ok (hr : d.registers.Sound) (hok : q.decide d = .ok bin after) :
    after.supply < d.supply := by
  have hq := inRange_of_decide_ok hok
  have hw := hq.width_bounds
  unfold supply
  rcases decide_ok hr hq hok with ⟨hb, -, rfl⟩ | ⟨-, -, bits, value, ht, hren⟩
  · exact Nat.add_lt_add_right (Registers.reserve_narrow_lt hr hw.1 (by omega) hb) _
  · have hpaid := Registers.reserve_renewed_lt hr hren
    have hpending := ht.length_pending
    omega

/-- A decision in its range that fails has run out of bits, and adds
nothing to the supply. -/
theorem Sound.supply_le_of_error (h : d.Sound) (hq : q.InRange) {stop : Stop}
    (he : q.decide d = .error stop after) :
    stop = .failed .endOfStream ∧ after.supply ≤ d.supply := by
  rcases h.decide_cases hq with ⟨-, hd⟩ | ⟨-, ⟨_, _, _, _, -, -, hd⟩ | ⟨rest, ht, hd⟩⟩ <;>
    rw [hd] at he <;> cases he
  refine ⟨rfl, Nat.add_le_add_left ?_ _⟩
  rw [ht.pending_eq_nil]
  exact Nat.zero_le _

/-- How many decisions of a run are answered. -/
def answered (qs : List Decision) (d : RangeDecoder σ) : ℕ :=
  (trail qs d).countP fun o => o.1.isOk

/-- An outcome of a sound decoder is an answer, which uses up supply, or
the end of the bits. -/
theorem Sound.outcome_cases (h : d.Sound) (hq : q.InRange) :
    ((outcome q d).1.isOk = true ∧ (outcome q d).2.supply < d.supply) ∨
      (outcome q d).1 = .error (.failed .endOfStream) ∧ (outcome q d).2.supply ≤ d.supply := by
  unfold outcome
  cases hd : q.decide d with
  | ok bin after => exact .inl ⟨rfl, supply_lt_of_decide_ok h.registers hd⟩
  | error stop after =>
    obtain ⟨rfl, hle⟩ := h.supply_le_of_error hq hd
    exact .inr ⟨rfl, hle⟩

/-- **A run has no more answers than supply.** -/
theorem Sound.answered_add_supply_le (h : d.Sound) {qs : List Decision}
    (hqs : ∀ q ∈ qs, q.InRange) : answered qs d + (d.afterAll qs).supply ≤ d.supply := by
  induction qs generalizing d with
  | nil => exact le_of_eq (Nat.zero_add _)
  | cons q qs ih =>
    have hrest := ih (h.after q) fun q' hq' => hqs q' (List.mem_cons_of_mem _ hq')
    rw [answered, trail, List.countP_cons, afterAll_cons]
    unfold answered at hrest
    rcases h.outcome_cases (hqs q List.mem_cons_self) with ⟨hok, hlt⟩ | ⟨hend, hle⟩
    · rw [if_pos hok]
      omega
    · rw [if_neg (by rw [hend]; exact Bool.false_ne_true)]
      omega

/-- Every decision of a run is answered or finds no bits left. -/
theorem Sound.trail_cases (h : d.Sound) {qs : List Decision} (hqs : ∀ q ∈ qs, q.InRange) :
    ∀ o ∈ trail qs d, o.1.isOk = true ∨ o.1 = .error (.failed .endOfStream) := by
  induction qs generalizing d with
  | nil => exact fun o ho => absurd ho List.not_mem_nil
  | cons q qs ih =>
    intro o ho
    rcases List.mem_cons.1 ho with rfl | ho
    · exact (h.outcome_cases (hqs q List.mem_cons_self)).imp And.left And.left
    · exact ih (h.after q) (fun q' hq' => hqs q' (List.mem_cons_of_mem _ hq')) o ho

/-- The bits that a decoder has taken at its start pay for the value that
it starts with. -/
theorem supply_ofSource_le {source s : σ} (hopen : ofSource source = .ok d s) :
    d.supply ≤ 512 * (pending source).length := by
  obtain ⟨bits, scale, ht, hlen, -, -, hr⟩ := ofSource_ok hopen
  have hfar := d.registers.reserve_le
  have hpending := ht.length_pending
  unfold supply
  rw [hr] at hfar ⊢
  dsimp only at hfar
  omega

/-- **Finitely many bits are good for finitely many answers**: at most 512
for each bit, whatever is asked and however often it fails. Who asks more
often is told that the bits have run out. -/
theorem answered_le {source s : σ} (hlen : (pending source).length < wordBound)
    (hopen : ofSource source = .ok d s) {qs : List Decision} (hqs : ∀ q ∈ qs, q.InRange) :
    answered qs d ≤ 512 * (pending source).length ∧
      (∀ o ∈ trail qs d, o.1.isOk = true ∨ o.1 = .error (.failed .endOfStream)) ∧
      (512 * (pending source).length < qs.length →
        ∃ o ∈ trail qs d, o.1 = .error (.failed .endOfStream)) := by
  have hsound := Sound.of_ofSource hlen hopen
  have hstart := supply_ofSource_le hopen
  have hrun := hsound.answered_add_supply_le hqs
  have hcases := hsound.trail_cases hqs
  refine ⟨by omega, hcases, fun hlong => ?_⟩
  by_contra hnone
  -- otherwise all of them were answered
  have hall : answered qs d = (trail qs d).length := by
    refine List.countP_eq_length.2 fun o ho => (hcases o ho).resolve_right fun hend => ?_
    exact hnone ⟨o, ho, hend⟩
  rw [length_trail] at hall
  omega

/-- Nine bits that are asked for 4609 stuffing bits. They answer the first
254, each with one step down to the value, and run out. -/
theorem answered_le_nine :
    let source := BitTape.ofList (true :: List.replicate 8 false)
    let d : RangeDecoder BitTape := ⟨⟨[], 9⟩, ⟨0, 255, 0, 0⟩⟩
    let qs : List Decision := List.replicate 4609 .stuffing
    (pending source).length < wordBound ∧ ofSource source = .ok d d.source ∧
      (∀ q ∈ qs, q.InRange) ∧ answered (List.replicate 255 .stuffing) d = 254 ∧
      answered qs d ≤ 512 * 9 ∧ ∃ o ∈ trail qs d, o.1 = .error (.failed .endOfStream) := by
  intro source d qs
  have hlen : (pending source).length < wordBound := by decide
  have hopen : ofSource source = .ok d d.source := by decide +kernel
  have hqs : ∀ q ∈ qs, q.InRange := by
    intro q hq
    rw [List.eq_of_mem_replicate hq]
    decide
  have hfirst : answered (List.replicate 255 .stuffing) d = 254 := by decide +kernel
  have hlong : 512 * (pending source).length < qs.length := by
    rw [List.length_replicate]
    decide
  obtain ⟨hle, -, hend⟩ := answered_le hlen hopen hqs
  exact ⟨hlen, hopen, hqs, hfirst, hle, hend hlong⟩

end RangeDecoder

end AvsEntropy
