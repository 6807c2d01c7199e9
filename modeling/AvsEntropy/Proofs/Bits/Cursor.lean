import AvsEntropy.Proofs.Bits.Extension

/-!
# A cursor as a place in a list of bits

The bits of a buffer are those of its bytes one after the other, the most
significant bit of each first. A cursor is a place in that list: what it
has pending is the list from there on (`ByteCursor.pending_eq_drop`), and
a `Move` of the cursor answers what the same move does in the list, and
leads to the same place, also when it fails (`ByteCursor.endsAs_moved`).

A word read in blocks is the number that a source at the same place reads
bit by bit (`StandsAt.serialWord`). The two part only where the word does
not fit: the cursor then stays where it is, the other source has consumed
what was left.
-/

namespace AvsEntropy

open BitInput

variable {σ α : Type}

/-- The bits of a buffer, the most significant bit of each byte first. -/
def bitList (bytes : Array UInt8) : List Bool :=
  bytes.toList.flatMap fun byte => bitsOf 8 byte.toNat

/-- The answer of a read, and the source that it leaves. -/
def settled : EStateM.Result Stop σ α → Except Stop α × σ
  | .ok a s => (.ok a, s)
  | .error stop s => (.error stop, s)

/-! ## Reads in a list

A read at a place in a list has an answer and leads to a place. -/

/-- The bit behind a place. -/
def bitIn (bits : List Bool) (place : ℕ) : Except Stop Bool × ℕ :=
  match bits[place]? with
  | some bit => (.ok bit, place + 1)
  | none => (.error (.failed .endOfStream), place)

/-- The number that the `count` bits behind a place make. A word that does
not fit before the end leads to `short`. -/
def wordIn (bits : List Bool) (place short count : ℕ) : Except Stop ℕ × ℕ :=
  if 32 < count then (.error (.failed (.invalidArgument (.wideWord count))), place)
  else if place + count ≤ bits.length then
    (.ok (appended 0 ((bits.drop place).take count)), place + count)
  else (.error (.failed .endOfStream), short)

/-- The place `count` bits further on, if there is one. -/
def skipIn (bits : List Bool) (place count : ℕ) : Except Stop Unit × ℕ :=
  if place + count ≤ bits.length then (.ok (), place + count)
  else (.error (.failed .endOfStream), place)

/-- The next multiple of eight, and how far it is. -/
def alignIn (place : ℕ) : ℕ × ℕ :=
  (8 * ((place + 7) / 8) - place, 8 * ((place + 7) / 8))

/-- A source stands at a place of a list. -/
structure StandsAt [BitInput σ] (bits : List Bool) (place : ℕ) (s : σ) : Prop where
  place_le : place ≤ bits.length
  pending_eq : pending s = bits.drop place
  position_eq : position s = place

/-- Where a word leads that does not fit is of no account to one that does,
or that is too wide. -/
theorem wordIn_eq_wordIn {bits : List Bool} {place count : ℕ} (short short' : ℕ)
    (h : 32 < count ∨ place + count ≤ bits.length) :
    wordIn bits place short count = wordIn bits place short' count := by
  unfold wordIn
  rcases h with hwide | hfits
  · rw [if_pos hwide, if_pos hwide]
  · rw [if_pos hfits, if_pos hfits]

namespace StandsAt

variable [BitInput σ] {bits : List Bool} {place : ℕ} {s rest : σ}

theorem length_pending (h : StandsAt bits place s) :
    (pending s).length = bits.length - place := by
  rw [h.pending_eq, List.length_drop]

/-- Bits that are taken are the next ones of the list. -/
theorem take_eq (h : StandsAt bits place s) {taken : List Bool} (ht : Takes s taken rest) :
    taken = (bits.drop place).take taken.length := by
  rw [← h.pending_eq, ht.pending_eq, List.take_left']
  rfl

/-- **A word bit by bit is the number of the next bits**, and one that does
not fit consumes what is left. -/
theorem serialWord (h : StandsAt bits place s) (count : ℕ) :
    Prod.map id position (settled (serialWord next? count s)) =
      wordIn bits place bits.length count := by
  have hle := h.place_le
  have hlen := h.length_pending
  have hposition := h.position_eq
  unfold AvsEntropy.serialWord wordIn
  split
  · exact Prod.ext rfl hposition
  · rcases appendBits_cases count 0 s with
      ⟨taken, rest, htaken, ht, hok⟩ | ⟨rest, hshort, ht, he⟩
    · have hfits : place + count ≤ bits.length := by
        have := ht.length_pending
        omega
      rw [appendBits] at hok
      rw [if_pos hfits, hok, h.take_eq ht, htaken]
      refine Prod.ext rfl ?_
      rw [Prod.map_snd, settled, ht.position_eq, hposition, htaken]
    · have hover : ¬ place + count ≤ bits.length := by omega
      rw [appendBits] at he
      rw [if_neg hover, he]
      refine Prod.ext rfl ?_
      rw [Prod.map_snd, settled, ht.position_eq, hposition, hlen]
      omega

end StandsAt

namespace ByteCursor

/-! ## Moves

A cursor is moved by reads, by skips and to byte boundaries, and may be
moved on after a move that failed. -/

/-- What a cursor can be asked to do. -/
inductive Move where
  /-- Read a bit. -/
  | bit
  /-- Read a word. -/
  | word (count : ℕ)
  /-- Skip bits. -/
  | skip (count : ℕ)
  /-- Go to the next byte boundary, and answer how far it is. -/
  | align
  deriving DecidableEq, Repr

namespace Move

/-- What a move does at a place in a list: its answer, if it has one, and
the place that it leads to. -/
def inList (bits : List Bool) (place : ℕ) : Move → Except Stop (Option ℕ) × ℕ
  | .bit => (bitIn bits place).map (Except.map fun bit => some bit.toNat) id
  | .word count => (wordIn bits place place count).map (Except.map some) id
  | .skip count => (skipIn bits place count).map (Except.map fun _ => none) id
  | .align => (alignIn place).map (fun distance => .ok (some distance)) id

/-- The answers of moves one after the other, and the states they lead to. -/
def visits (step : σ → Move → α × σ) : σ → List Move → List (α × σ)
  | _, [] => []
  | s, m :: moves => step s m :: visits step (step s m).2 moves

end Move

/-- What a move does to a cursor: its answer, if it has one, and the cursor
that it leads to. -/
def moved (c : ByteCursor) : Move → Except Stop (Option ℕ) × ByteCursor
  | .bit => (settled (readBit c)).map (Except.map fun bit => some bit.toNat) id
  | .word count => (settled (BitInput.readWord count c)).map (Except.map some) id
  | .skip count => (settled (skip count c)).map (Except.map fun _ => none) id
  | .align => (.ok (some c.misalignment), c.align)

/-! ## The list of a cursor -/

/-- The bits of one byte. -/
theorem pending_singleton (byte : UInt8) : (ofBytes #[byte]).pending = bitsOf 8 byte.toNat := by
  simp [pending, left, ofBytes, List.range'_succ, bitAt, byteAt, bitsOf]

/-- A cursor at the start has all bits of its buffer pending. -/
theorem pending_ofBytes (bytes : Array UInt8) : (ofBytes bytes).pending = bitList bytes := by
  obtain ⟨bytes⟩ := bytes
  induction bytes with
  | nil => rfl
  | cons byte bytes ih =>
    have hsplit : ofBytes ⟨byte :: bytes⟩ = (ofBytes #[byte]).extend ⟨bytes⟩ := by
      simp [ofBytes, extend]
    rw [hsplit, pending_extend, ih, pending_singleton, bitList, bitList, List.flatMap_cons]

theorem length_bitList (bytes : Array UInt8) : (bitList bytes).length = 8 * bytes.size := by
  rw [← pending_ofBytes, pending, List.length_map, List.length_range']
  rfl

/-- **A cursor has pending what its buffer has behind its position.** -/
theorem pending_eq_drop (c : ByteCursor) : c.pending = (bitList c.bytes).drop c.position := by
  rw [← pending_ofBytes, pending, pending, ← List.map_drop, List.drop_range']
  simp [ofBytes, left]

/-- What was read and what is left make the buffer. -/
theorem position_add_left (c : ByteCursor) : c.position + c.left = 8 * c.bytes.size := by
  have := c.position_le
  rw [left]
  omega

theorem standsAt (c : ByteCursor) : StandsAt (bitList c.bytes) c.position c where
  place_le := by rw [length_bitList]; exact c.position_le
  pending_eq := c.pending_eq_drop
  position_eq := rfl

/-- As many bits fit before the end as are left. -/
theorem le_left_iff (c : ByteCursor) (count : ℕ) :
    count ≤ c.left ↔ c.position + count ≤ (bitList c.bytes).length := by
  have := c.position_add_left
  rw [length_bitList]
  omega

/-- The bits of the list are those of the bytes. -/
theorem getElem?_bitList (c : ByteCursor) :
    (bitList c.bytes)[c.position]? =
      if 1 ≤ c.left then some (bitAt c.bytes c.position) else none := by
  have hhead : (bitList c.bytes)[c.position]? = c.pending[0]? := by
    rw [pending_eq_drop, List.getElem?_drop, Nat.add_zero]
  rw [hhead, pending, List.getElem?_map]
  split
  · rw [List.getElem?_range' (by omega)]
    rfl
  · rw [List.getElem?_eq_none (by rw [List.length_range']; omega)]
    rfl

/-! ## One move -/

/-- **Words that fit are the same in blocks as bit by bit**, and so are
those that are too wide. -/
theorem readWord_eq_serialWord (c : ByteCursor) {count : ℕ}
    (h : 32 < count ∨ count ≤ c.left) :
    BitInput.readWord count c = serialWord BitInput.next? count c := by
  rcases h with hwide | hfits
  · show readWord count c = _
    rw [readWord, serialWord, if_pos hwide, if_pos hwide]
  · refine readWord_of_le ?_
    show count ≤ c.pending.length
    rw [pending, List.length_map, List.length_range']
    exact hfits

/-- A move of a cursor ends as one in a list: with the same answer, at the
same place, and in the same buffer as before. -/
structure EndsAs (c : ByteCursor) (x : α × ByteCursor) (y : α × ℕ) : Prop where
  answer_eq : x.1 = y.1
  position_eq : x.2.position = y.2
  bytes_eq : x.2.bytes = c.bytes

theorem EndsAs.map {β : Type} {c : ByteCursor} {x : α × ByteCursor} {y : α × ℕ}
    (h : EndsAs c x y) (f : α → β) : EndsAs c (x.map f id) (y.map f id) :=
  ⟨congrArg f h.answer_eq, h.position_eq, h.bytes_eq⟩

theorem endsAs_readBit (c : ByteCursor) :
    EndsAs c (settled (readBit c)) (bitIn (bitList c.bytes) c.position) := by
  have hnext : BitInput.next? c =
      if h : 1 ≤ c.left then some (bitAt c.bytes c.position, c.advance 1 h) else none := rfl
  rw [readBit, hnext, bitIn, getElem?_bitList]
  by_cases h : 1 ≤ c.left
  · rw [dif_pos h, if_pos h]
    exact ⟨rfl, rfl, rfl⟩
  · rw [dif_neg h, if_neg h]
    exact ⟨rfl, rfl, rfl⟩

theorem endsAs_skip (c : ByteCursor) (count : ℕ) :
    EndsAs c (settled (skip count c)) (skipIn (bitList c.bytes) c.position count) := by
  have hfits := c.le_left_iff count
  unfold skip skipIn
  by_cases h : count ≤ c.left
  · rw [dif_pos h, if_pos (hfits.1 h)]
    exact ⟨rfl, rfl, rfl⟩
  · rw [dif_neg h, if_neg (mt hfits.2 h)]
    exact ⟨rfl, rfl, rfl⟩

theorem bytes_settled_readWord (c : ByteCursor) (count : ℕ) :
    (settled (readWord count c)).2.bytes = c.bytes := by
  unfold readWord
  split
  · rfl
  · split
    · cases wordFrom? c.bytes c.position count 0 with
      | some word => rfl
      | none => rfl
    · rfl

theorem endsAs_readWord (c : ByteCursor) (count : ℕ) :
    EndsAs c (settled (readWord count c))
      (wordIn (bitList c.bytes) c.position c.position count) := by
  have hbytes := c.bytes_settled_readWord count
  have hfits := c.le_left_iff count
  by_cases h : 32 < count ∨ count ≤ c.left
  · -- the word is then read as if bit by bit
    have hserial := c.standsAt.serialWord count
    rw [← c.readWord_eq_serialWord h,
      wordIn_eq_wordIn _ c.position (h.imp_right hfits.1)] at hserial
    exact ⟨congrArg Prod.fst hserial, congrArg Prod.snd hserial, hbytes⟩
  · rw [not_or] at h
    rw [readWord, if_neg h.1, dif_neg h.2, wordIn, if_neg h.1, if_neg (mt hfits.2 h.2)]
    exact ⟨rfl, rfl, rfl⟩

/-- The next byte boundary is the next multiple of eight. -/
theorem align_eq_alignIn (c : ByteCursor) :
    (c.misalignment, c.align.position) = alignIn c.position := by
  show (c.misalignment, c.position + c.misalignment) = _
  rw [misalignment, alignIn, Prod.mk.injEq]
  constructor <;> omega

/-- **A move of a cursor is a move in the list of its buffer.** -/
theorem endsAs_moved (c : ByteCursor) (m : Move) :
    EndsAs c (c.moved m) (m.inList (bitList c.bytes) c.position) := by
  cases m with
  | bit => exact c.endsAs_readBit.map _
  | word count => exact (c.endsAs_readWord count).map _
  | skip count => exact (c.endsAs_skip count).map _
  | align =>
    have halign := c.align_eq_alignIn
    rw [Move.inList, ← halign]
    exact ⟨rfl, rfl, rfl⟩

/-! ## Moves one after the other -/

/-- Moves of a cursor are moves in the list of its buffer, and leave the
buffer what it is. -/
theorem visits_moved (c : ByteCursor) (moves : List Move) :
    (Move.visits moved c moves).map (Prod.map id position) =
        Move.visits (Move.inList (bitList c.bytes)) c.position moves ∧
      ∀ visit ∈ Move.visits moved c moves, visit.2.bytes = c.bytes := by
  induction moves generalizing c with
  | nil => exact ⟨rfl, fun _ h => absurd h List.not_mem_nil⟩
  | cons m moves ih =>
    obtain ⟨hanswer, hposition, hbytes⟩ := c.endsAs_moved m
    obtain ⟨hvisits, hall⟩ := ih (c.moved m).2
    rw [hbytes, hposition] at hvisits
    rw [Move.visits, Move.visits, List.map_cons, hvisits]
    refine ⟨congrArg (· :: _) (Prod.ext hanswer hposition), ?_⟩
    intro visit hvisit
    rcases List.mem_cons.1 hvisit with rfl | hvisit
    · exact hbytes
    · exact (hall visit hvisit).trans hbytes

/-- **A cursor walks the list of bits of its buffer.** However it is moved,
its answers and positions are those of the same moves in the list, from the
start of the list on. Wherever it comes, what it has read and what it has
left make the buffer, and it has pending what the list has left. A word that
fits, or is too wide, it reads as if bit by bit; and any source that stands
where it does and reads words bit by bit reads the words of the list, and
consumes all it has for one that does not fit. -/
theorem walk_bitList (bytes : Array UInt8) (moves : List Move) :
    (Move.visits moved (ofBytes bytes) moves).map (Prod.map id position) =
        Move.visits (Move.inList (bitList bytes)) 0 moves ∧
      ∀ c ∈ ofBytes bytes :: (Move.visits moved (ofBytes bytes) moves).map Prod.snd,
        c.position + c.left = 8 * bytes.size ∧
          c.pending = (bitList bytes).drop c.position ∧
          (∀ count, 32 < count ∨ count ≤ c.left →
            BitInput.readWord count c = serialWord BitInput.next? count c) ∧
          ∀ (σ : Type) [BitInput σ] (s : σ), BitInput.pending s = c.pending →
            BitInput.position s = c.position → ∀ count,
              (settled (serialWord BitInput.next? count s)).map id BitInput.position =
                wordIn (bitList bytes) c.position (8 * bytes.size) count := by
  obtain ⟨hvisits, hall⟩ := visits_moved (ofBytes bytes) moves
  refine ⟨hvisits, fun c hc => ?_⟩
  obtain rfl : c.bytes = bytes := by
    rcases List.mem_cons.1 hc with rfl | hc
    · rfl
    · obtain ⟨visit, hvisit, rfl⟩ := List.mem_map.1 hc
      exact hall visit hvisit
  refine ⟨c.position_add_left, c.pending_eq_drop, fun count h => c.readWord_eq_serialWord h, ?_⟩
  intro σ _ s hpending hposition count
  have hstands : StandsAt (bitList c.bytes) c.position s :=
    ⟨c.standsAt.place_le, hpending.trans c.pending_eq_drop, hposition⟩
  rw [← length_bitList]
  exact hstands.serialWord count

example : (Move.visits moved (ofBytes #[0xB1]) [.bit, .skip 8, .word 33, .align]).map
    (Prod.map id position) =
      [(.ok (some 1), 1), (.error (.failed .endOfStream), 1),
        (.error (.failed (.invalidArgument (.wideWord 33))), 1), (.ok (some 7), 8)] := rfl

end ByteCursor

end AvsEntropy
