import AvsEntropy.Bits.Tape
import AvsEntropy.Proofs.Bits.Cursor
import AvsEntropy.Proofs.Session.Safety

/-!
# Where a code begins

A code begins with its first one. A range decoder takes the zeros before it,
the one itself and the eight bits behind it, and nothing more: the zeros are
the scale of its value and the eight bits are the rest (`Heads`). Where no
one is to be found, or fewer than eight bits behind it, there is no code.
That nine bits are read as a word and the others one by one does not show.

A list of bits has one head at most (`Heads.eq_of_heads`), and what
`start_cases` says by numbers is that it has one (`heads_of_appended`).
-/

namespace AvsEntropy

open BitInput

/-- Bits that are zeros, then a one, then the eight bits `low`, then
`more`. -/
structure Heads (zeros : ℕ) (low more bits : List Bool) : Prop where
  bits_eq : bits = List.replicate zeros false ++ true :: (low ++ more)
  length_low : low.length = 8

/-! ## Leading zeros -/

/-- Zeros in front make no difference to a number. -/
theorem appended_zero_replicate (zeros : ℕ) (bits : List Bool) :
    appended 0 (List.replicate zeros false ++ bits) = appended 0 bits := by
  induction zeros with
  | zero => rfl
  | succ zeros ih =>
    rw [List.replicate_succ, List.cons_append, appended_cons]
    exact ih

/-- A head makes a number of nine bits, of which `low` are the last eight. -/
theorem appended_head {low : List Bool} (hlow : low.length = 8) (zeros : ℕ) :
    appended 0 (List.replicate zeros false ++ true :: low) = 256 + appended 0 low := by
  rw [appended_zero_replicate, appended_cons, appended_eq, hlow]
  rfl

/-- The first one of a list, and what is behind it, can be found in one place
only. -/
theorem eq_of_replicate_append_eq {zeros zeros' : ℕ} {bits bits' : List Bool}
    (h : List.replicate zeros false ++ true :: bits =
      List.replicate zeros' false ++ true :: bits') : zeros = zeros' ∧ bits = bits' := by
  induction zeros generalizing zeros' with
  | zero =>
    cases zeros' with
    | zero => exact ⟨rfl, List.tail_eq_of_cons_eq h⟩
    | succ zeros' => exact absurd (List.head_eq_of_cons_eq h) Bool.true_eq_false.mp
  | succ zeros ih =>
    cases zeros' with
    | zero => exact absurd (List.head_eq_of_cons_eq h) Bool.false_eq_true.mp
    | succ zeros' =>
      obtain ⟨rfl, hbits⟩ := ih (List.tail_eq_of_cons_eq h)
      exact ⟨rfl, hbits⟩

namespace Heads

variable {zeros zeros' : ℕ} {low low' more more' bits : List Bool}

/-- **A list has one head.** -/
theorem eq_of_heads (h : Heads zeros low more bits) (h' : Heads zeros' low' more' bits) :
    zeros = zeros' ∧ low = low' ∧ more = more' := by
  obtain ⟨hzeros, hbehind⟩ := eq_of_replicate_append_eq (h.bits_eq.symm.trans h'.bits_eq)
  obtain ⟨hlow, hmore⟩ := List.append_inj hbehind (h.length_low.trans h'.length_low.symm)
  exact ⟨hzeros, hlow, hmore⟩

/-- Bits with a head make a number of nine bits at least. -/
theorem le_appended (h : Heads zeros low more bits) : 256 ≤ appended 0 bits := by
  have hmore := AvsEntropy.le_appended
    (appended 0 (List.replicate zeros false ++ true :: low)) more
  rw [← appended_append, List.append_assoc, List.cons_append, ← h.bits_eq,
    appended_head h.length_low] at hmore
  omega

end Heads

/-- **Bits that make a number of nine bits are zeros, a one, and the last
eight of them.** -/
theorem heads_of_appended {scale : ℕ} {bits : List Bool} (hlen : bits.length = 9 + scale)
    (hge : 256 ≤ appended 0 bits) (hlt : appended 0 bits < 512) :
    ∃ low, Heads scale low [] bits := by
  induction scale generalizing bits with
  | zero =>
    obtain ⟨bit, low, rfl⟩ := List.exists_cons_of_length_pos (by omega : 0 < bits.length)
    have hlow : low.length = 8 := by simpa using hlen
    have hsmall := appended_zero_lt low
    rw [hlow] at hsmall
    cases bit with
    | true => exact ⟨low, by simp, hlow⟩
    | false =>
      have hge : 256 ≤ appended 0 low := hge
      omega
  | succ scale ih =>
    obtain ⟨bit, bits, rfl⟩ := List.exists_cons_of_length_pos (by omega : 0 < bits.length)
    have hrest : bits.length = 9 + scale := by
      rw [List.length_cons] at hlen
      omega
    cases bit with
    | false =>
      obtain ⟨low, hbits, hlow⟩ := ih hrest hge hlt
      exact ⟨low, by rw [hbits, List.replicate_succ, List.cons_append], hlow⟩
    | true =>
      -- a one this far in front makes more than nine bits
      have hbig : 2 ^ 9 ≤ 2 ^ bits.length := Nat.pow_le_pow_right (by decide) (by omega)
      rw [appended_cons, appended_eq] at hlt
      simp only [Bool.toNat_true] at hlt
      omega

/-! ## The start of a decoder -/

/-- **What comes of a start**: a decoder that has taken the head of the bits,
or nothing where they have none. -/
theorem RangeDecoder.ofSource_heads_cases {σ : Type} [BitInput σ] {source : σ}
    (hlen : (pending source).length < wordBound) :
    (∃ zeros low rest, Heads zeros low (pending rest) (pending source) ∧
      BitInput.position rest = BitInput.position source + (zeros + 9) ∧
      ofSource source = .ok ⟨rest, ⟨0, 255, zeros, appended 0 low⟩⟩ rest) ∨
    (¬ ∃ zeros low more, Heads zeros low more (pending source)) ∧
      ∃ rest, ofSource source = .error (.failed .endOfStream) rest := by
  simp only [ofSource]
  rcases start_cases source with ⟨bits, rest, scale, ht, hbits, hge, hlt, hok⟩ |
    ⟨rest, hsmall, he⟩ | ⟨rest, hlong, -⟩
  · obtain ⟨low, hhead⟩ := heads_of_appended hbits hge hlt
    have hlow := appended_zero_lt low
    rw [hhead.length_low] at hlow
    have hvalue : appended 0 bits % 256 = appended 0 low := by
      rw [hhead.bits_eq, List.append_nil, appended_head hhead.length_low]
      omega
    refine .inl ⟨scale, low, rest, ⟨?_, hhead.length_low⟩, ?_, ?_⟩
    · rw [ht.pending_eq, hhead.bits_eq, List.append_nil, List.append_assoc, List.cons_append]
    · rw [ht.position_eq, hbits]
      omega
    · rw [bind_ok hok, hvalue]
      rfl
  · refine .inr ⟨?_, rest, bind_error he⟩
    rintro ⟨zeros, low, more, hhead⟩
    have := hhead.le_appended
    omega
  · omega

namespace Session

/-- **A decoder starts at the first one.** Over fewer bits than a word can
count it starts if and only if they have a head. It has then taken the head
and nothing else, holds the widest range and the value of the head, and says
so; else no bits were left, and there is nothing to say. A slice starts as a
session does that stands in the same bytes at the next multiple of eight. -/
theorem starts_at_first_one :
    (∀ {σ : Type} [BitInput σ] (source : σ), (pending source).length < wordBound →
      ((RangeDecoder.openSource source).result.isOk = true ↔
        ∃ zeros low more, Heads zeros low more (pending source)) ∧
      (∀ zeros low more, Heads zeros low more (pending source) →
        ∃ rest, RangeDecoder.openSource source =
            ⟨.ok ⟨rest, ⟨0, 255, zeros, appended 0 low⟩⟩,
              [.started (zeros + 9) ⟨0, 255, zeros, appended 0 low⟩]⟩ ∧
          pending rest = more ∧ position rest = position source + (zeros + 9)) ∧
      ((¬ ∃ zeros low more, Heads zeros low more (pending source)) →
        RangeDecoder.openSource source = ⟨.error (.failed .endOfStream), []⟩)) ∧
    ∀ cursor : ByteCursor, ∃ boundary : ByteCursor,
      boundary.bytes = cursor.bytes ∧ boundary.position = 8 * ((cursor.position + 7) / 8) ∧
      (ofSlice cursor).result = (ofSource boundary).result := by
  refine ⟨fun source hlen => ?_, fun cursor => ⟨cursor.align, rfl, ?_, result_ofSlice cursor⟩⟩
  · rcases RangeDecoder.ofSource_heads_cases hlen with
      ⟨zeros, low, rest, hhead, hposition, hok⟩ | ⟨hnone, rest, he⟩
    · have hsome : ∃ zeros low more, Heads zeros low more (pending source) := ⟨_, _, _, hhead⟩
      have htaken : position rest - position source = zeros + 9 := by omega
      rw [RangeDecoder.openSource_of_ok hok, htaken]
      refine ⟨⟨fun _ => hsome, fun _ => rfl⟩, ?_, fun hnone => absurd hsome hnone⟩
      intro zeros' low' more' hhead'
      obtain ⟨rfl, rfl, rfl⟩ := hhead.eq_of_heads hhead'
      exact ⟨rest, rfl, rfl, hposition⟩
    · rw [RangeDecoder.openSource_of_error he]
      refine ⟨⟨fun h => ?_, fun h => absurd h hnone⟩, ?_, fun _ => rfl⟩
      · cases h
      · exact fun zeros low more hhead => absurd ⟨zeros, low, more, hhead⟩ hnone
  · exact congrArg Prod.snd cursor.align_eq_alignIn

/-- A code with two zeros in front that ends with its head. Cut short by one
bit there is none. -/
theorem starts_at_first_one_eleven :
    let source := BitTape.ofList
      [false, false, true, true, false, true, true, false, false, false, true]
    let short := BitTape.ofList [false, false, true, true, false, true, true, false, false, false]
    (pending source).length < wordBound ∧ (pending short).length < wordBound ∧
      Heads 2 [true, false, true, true, false, false, false, true] [] (pending source) ∧
      (∃ rest, RangeDecoder.openSource source =
          ⟨.ok ⟨rest, ⟨0, 255, 2, 177⟩⟩, [.started 11 ⟨0, 255, 2, 177⟩]⟩ ∧
        pending rest = [] ∧ position rest = 11) ∧
      ¬ ∃ zeros low more, Heads zeros low more (pending short) := by
  intro source short
  have hlen : (pending source).length < wordBound := by decide
  have hlen' : (pending short).length < wordBound := by decide
  have hheads : Heads 2 [true, false, true, true, false, false, false, true] []
      (pending source) := ⟨rfl, rfl⟩
  have hshort : (RangeDecoder.openSource short).result.isOk = false := by decide +kernel
  have hcode := (starts_at_first_one.1 source hlen).2.1 _ _ _ hheads
  have hnone := (starts_at_first_one.1 short hlen').1
  rw [hshort] at hnone
  exact ⟨hlen, hlen', hheads, hcode, fun h => Bool.false_ne_true (hnone.2 h)⟩

end Session

end AvsEntropy
