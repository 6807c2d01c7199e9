import AvsEntropy.Bits.ByteCursor
import AvsEntropy.Proofs.Bits.Taking
import AvsEntropy.Proofs.Failure

/-!
# More bits behind

A source `Extends` another when it stands where the other does and has
more bits behind the same ones. What a read takes from the shorter source
it takes from the longer one, unless the shorter one has too little: each
read of the one is `InStep` with that of the other.

A cursor is extended by bytes (`ByteCursor.extends_extend`), which does not
move the byte boundary that it skips to.
-/

namespace AvsEntropy

/-! ## One step after another -/

/-- Steps in step may be followed by others. -/
theorem InStep.bind {σ τ α β : Type} {R : σ → τ → Prop} {x : EStateM Stop σ α}
    {y : EStateM Stop τ α} {f : α → EStateM Stop σ β} {g : α → EStateM Stop τ β} {s : σ} {t : τ}
    (h : InStep R (x s) (y t)) (hf : ∀ a s t, R s t → InStep R (f a s) (g a t)) :
    InStep R ((x >>= f) s) ((y >>= g) t) := by
  rcases h.cases with ⟨a, s', t', hx, hy, hR⟩ | ⟨s', hx⟩ | ⟨stop, s', t', hx, hy, hR⟩
  · rw [bind_ok hx, bind_ok hy]
    exact hf a s' t' hR
  · rw [bind_error hx]
    exact .inl rfl
  · rw [bind_error hx, bind_error hy]
    exact .inr ⟨t', rfl, hR⟩

open BitInput

variable {σ τ : Type} [BitInput σ] [BitInput τ] {more bits bits' : List Bool} {s rest : σ}
  {s' rest' : τ}

/-- The second source has `more` bits behind those of the first, and stands
where it does. -/
structure Extends (more : List Bool) (s : σ) (s' : τ) : Prop where
  pending_eq : pending s' = pending s ++ more
  position_eq : position s' = position s

/-- **As many bits from either source are the same bits**, and leave the
one an extension of the other. -/
theorem Extends.of_takes (h : Extends more s s') (ht : Takes s bits rest)
    (ht' : Takes s' bits' rest') (hlen : bits'.length = bits.length) :
    bits' = bits ∧ Extends more rest rest' := by
  have hpending := h.pending_eq
  rw [ht.pending_eq, ht'.pending_eq, List.append_assoc] at hpending
  obtain ⟨hbits, hrest⟩ := List.append_inj hpending hlen
  exact ⟨hbits, hrest, by rw [ht'.position_eq, ht.position_eq, h.position_eq, hlen]⟩

/-- The next bit of the shorter source is the next bit of the longer one. -/
theorem Extends.next? (h : Extends more s s') {bit : Bool} (hn : next? s = some (bit, rest)) :
    ∃ rest', BitInput.next? s' = some (bit, rest') ∧ Extends more rest rest' := by
  have ht := takes_of_next? hn
  cases hn' : BitInput.next? s' with
  | none =>
    have hnone := pending_of_none hn'
    rw [h.pending_eq, ht.pending_eq] at hnone
    cases hnone
  | some next =>
    obtain ⟨bit', rest'⟩ := next
    obtain ⟨hbit, hrest⟩ := h.of_takes ht (takes_of_next? hn') rfl
    injection hbit with hbit
    exact ⟨rest', by rw [← hbit], hrest⟩

/-! ## The reads -/

theorem Extends.readBit (h : Extends more s s') :
    InStep (Extends more) (readBit s) (readBit s') := by
  unfold BitInput.readBit
  cases hn : BitInput.next? s with
  | none => exact .inl rfl
  | some next =>
    obtain ⟨bit, rest⟩ := next
    obtain ⟨rest', hn', hrest⟩ := h.next? hn
    rw [hn']
    exact ⟨rest', rfl, hrest⟩

/-- A read that takes `count` bits, or fails at the end of the source. -/
theorem Extends.inStep_of_cases (h : Extends more s s') {α : Type} {count : ℕ}
    {value : List Bool → α} {x : EStateM.Result Stop σ α} {y : EStateM.Result Stop τ α}
    (hx : (∃ bits rest, bits.length = count ∧ Takes s bits rest ∧ x = .ok (value bits) rest) ∨
      ∃ rest, x = .error (.failed .endOfStream) rest)
    (hy : (∃ bits rest, bits.length = count ∧ Takes s' bits rest ∧ y = .ok (value bits) rest) ∨
      (pending s').length < count) : InStep (Extends more) x y := by
  rcases hx with ⟨bits, rest, hlen, ht, rfl⟩ | ⟨rest, rfl⟩
  · rcases hy with ⟨bits', rest', hlen', ht', rfl⟩ | hshort
    · obtain ⟨rfl, hrest⟩ := h.of_takes ht ht' (hlen'.trans hlen.symm)
      exact ⟨rest', rfl, hrest⟩
    · -- the longer source has what the shorter one gave
      rw [h.pending_eq, List.length_append, ht.length_pending] at hshort
      omega
  · exact .inl rfl

theorem Extends.appendBits (h : Extends more s s') (count value : ℕ) :
    InStep (Extends more) (appendBits count value s) (appendBits count value s') := by
  refine h.inStep_of_cases ((appendBits_cases count value s).imp_right ?_)
    ((appendBits_cases count value s').imp_right ?_)
  · exact fun ⟨rest, _, _, he⟩ => ⟨rest, he⟩
  · exact fun ⟨_, hshort, _⟩ => hshort

theorem Extends.readWord (h : Extends more s s') {count : ℕ} (hcount : count ≤ 32) :
    InStep (Extends more) (readWord count s) (readWord count s') := by
  refine h.inStep_of_cases ((readWord_cases hcount s).imp_right ?_)
    ((readWord_cases hcount s').imp_right ?_)
  · exact fun ⟨rest, _, he⟩ => ⟨rest, he⟩
  · exact fun ⟨_, hshort, _⟩ => hshort

/-! ## Cursors -/

namespace ByteCursor

/-- The cursor in a buffer with more bytes at its end. -/
def extend (c : ByteCursor) (more : Array UInt8) : ByteCursor :=
  ⟨c.bytes ++ more, c.position, by
    have := c.position_le
    rw [Array.size_append]
    omega⟩

/-- The bits of a buffer are those of its first part, then those of its
second. -/
theorem bitAt_append_left {bytes : Array UInt8} (more : Array UInt8) {position : ℕ}
    (h : position < 8 * bytes.size) : bitAt (bytes ++ more) position = bitAt bytes position := by
  have hlt : position / 8 < bytes.size := by omega
  unfold bitAt byteAt
  rw [Array.getD_eq_getD_getElem?, Array.getElem?_append_left hlt, Array.getD_eq_getD_getElem?]

theorem bitAt_append_right (bytes more : Array UInt8) (offset : ℕ) :
    bitAt (bytes ++ more) (8 * bytes.size + offset) = bitAt more offset := by
  have hdiv : (8 * bytes.size + offset) / 8 = bytes.size + offset / 8 := by omega
  have hmod : (8 * bytes.size + offset) % 8 = offset % 8 := by omega
  unfold bitAt byteAt
  rw [hdiv, hmod, Array.getD_eq_getD_getElem?, Array.getElem?_append_right (Nat.le_add_right _ _),
    Nat.add_sub_cancel_left, Array.getD_eq_getD_getElem?]

/-- **Bytes at the end of a buffer are bits at the end of its cursor.** -/
theorem pending_extend (c : ByteCursor) (more : Array UInt8) :
    (c.extend more).pending = c.pending ++ (ofBytes more).pending := by
  have hle := c.position_le
  have hleft : (c.extend more).left = c.left + 8 * more.size := by
    simp only [left, extend, Array.size_append]
    omega
  have hend : c.position + c.left = 8 * c.bytes.size := by
    simp only [left]
    omega
  have hmore : (ofBytes more).left = 8 * more.size := rfl
  have hhead : (List.range' c.position c.left).map (bitAt (c.bytes ++ more)) =
      (List.range' c.position c.left).map (bitAt c.bytes) := by
    refine List.map_congr_left fun position hposition => bitAt_append_left more ?_
    have := List.mem_range'_1.1 hposition
    omega
  have htail : (List.range' (c.position + c.left) (8 * more.size)).map (bitAt (c.bytes ++ more)) =
      (List.range' 0 (8 * more.size)).map (bitAt more) := by
    rw [hend, ← Nat.add_zero (8 * c.bytes.size), ← List.map_add_range', List.map_map]
    exact List.map_congr_left fun offset _ => bitAt_append_right c.bytes more offset
  unfold pending
  rw [hleft, hmore, ← List.range'_append_1, List.map_append]
  change (List.range' c.position c.left).map (bitAt (c.bytes ++ more)) ++
    (List.range' (c.position + c.left) (8 * more.size)).map (bitAt (c.bytes ++ more)) = _
  rw [hhead, htail]
  rfl

theorem extends_extend (c : ByteCursor) (more : Array UInt8) :
    Extends (ofBytes more).pending c (c.extend more) :=
  ⟨c.pending_extend more, rfl⟩

/-- A byte boundary is the same in the longer buffer. -/
theorem align_extend (c : ByteCursor) (more : Array UInt8) :
    (c.extend more).align = c.align.extend more := rfl

end ByteCursor

end AvsEntropy
