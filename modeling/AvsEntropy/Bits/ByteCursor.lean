import AvsEntropy.Bits.Input

/-!
# A cursor over bytes

A byte buffer read bit by bit, the most significant bit of each byte
first. The cursor never stands past the last bit, which its type says,
so `left` is an honest difference. A word is taken in blocks, as much of
the current byte at a time as it still needs; one that does not fit
before the end is refused without moving. Each block is looked up in the
buffer and shifted down, which is checked.
-/

namespace AvsEntropy

/-- A bit position in a buffer of bytes. -/
structure ByteCursor where
  /-- The buffer. -/
  bytes : Array UInt8
  /-- The position of the next bit. -/
  position : Nat
  /-- The cursor stands in the buffer or at its end. -/
  position_le : position ≤ 8 * bytes.size
  deriving DecidableEq

namespace ByteCursor

/-- The cursor at the first bit. -/
def ofBytes (bytes : Array UInt8) : ByteCursor := ⟨bytes, 0, Nat.zero_le _⟩

/-- The byte at an index, zero past the end. -/
def byteAt (bytes : Array UInt8) (index : Nat) : Nat := (bytes.getD index 0).toNat

/-- The bit at a position, counted from the most significant bit of the
first byte. -/
def bitAt (bytes : Array UInt8) (position : Nat) : Bool :=
  (byteAt bytes (position / 8)).testBit (7 - position % 8)

/-- How many bits are left. -/
def left (c : ByteCursor) : Nat := 8 * c.bytes.size - c.position

/-- Whether no bit is left. -/
def isAtEnd (c : ByteCursor) : Bool := c.left == 0

/-- Whether the next bit is the first of a byte. -/
def isAligned (c : ByteCursor) : Bool := c.position % 8 == 0

/-- The cursor `count` bits further on. -/
def advance (c : ByteCursor) (count : Nat) (h : count ≤ c.left) : ByteCursor :=
  ⟨c.bytes, c.position + count, by have := c.position_le; simp only [left] at h; omega⟩

/-- Moves `count` bits on, or fails where it stands. -/
def skip (count : Nat) : EStateM Stop ByteCursor Unit := fun c =>
  if h : count ≤ c.left then .ok () (c.advance count h)
  else .error (.failed .endOfStream) c

/-- The distance to the next byte boundary. -/
def misalignment (c : ByteCursor) : Nat := (8 - c.position % 8) % 8

theorem misalignment_le_left (c : ByteCursor) : c.misalignment ≤ c.left := by
  have := c.position_le
  simp only [misalignment, left]
  omega

/-- The cursor at the next byte boundary, which may be where it stands. -/
def align (c : ByteCursor) : ByteCursor := c.advance c.misalignment c.misalignment_le_left

/-- The bits from `position` on, `count` of them, appended below `value`
a block at a time. A block ends with its byte or with the word, and its byte
must be there. -/
def wordFrom? (bytes : Array UInt8) (position count value : Nat) : Option Nat :=
  if count = 0 then some value
  else do
    let offset := position % 8
    let block := min count (8 - offset)
    let byte ← bytes[position / 8]?
    let shift ← difference? (8 - offset) block
    let bits := byte.toNat >>> shift % 1 <<< block
    wordFrom? bytes (position + block) (count - block) (value <<< block + bits)
termination_by count

/-- Reads a word of at most 32 bits in blocks, or fails where it stands. -/
def readWord (bits : Nat) : EStateM Stop ByteCursor Nat := fun c =>
  if 32 < bits then .error (.failed (.invalidArgument (.wideWord bits))) c
  else if h : bits ≤ c.left then
    match wordFrom? c.bytes c.position bits 0 with
    | some word => .ok word (c.advance bits h)
    | none => .error .fault c
  else .error (.failed .endOfStream) c

/-- Takes one bit. -/
def next? (c : ByteCursor) : Option (Bool × ByteCursor) :=
  if h : 1 ≤ c.left then some (bitAt c.bytes c.position, c.advance 1 h) else none

/-- The bits from the cursor to the end of the buffer. -/
def pending (c : ByteCursor) : List Bool :=
  (List.range' c.position c.left).map (bitAt c.bytes)

/-! ## Blocks against bits

A block is the same number as its bits one after the other, so the word
read in blocks is the word read bit by bit. Where the bits are in the buffer
every byte that a block comes from is there, so the word is `wordFrom`. -/

/-- The word that begins at `position`, with no check. -/
def wordFrom (bytes : Array UInt8) (position count value : Nat) : Nat :=
  if count = 0 then value
  else
    let offset := position % 8
    let block := min count (8 - offset)
    let bits := byteAt bytes (position / 8) >>> (8 - offset - block) % 1 <<< block
    wordFrom bytes (position + block) (count - block) (value <<< block + bits)
termination_by count

/-- **No check fails on a word that is in the buffer.** -/
theorem wordFrom?_eq {bytes : Array UInt8} {position count : Nat} (value : Nat)
    (h : position + count ≤ 8 * bytes.size) :
    wordFrom? bytes position count value = some (wordFrom bytes position count value) := by
  fun_induction wordFrom bytes position count value with
  | case1 => rw [wordFrom?, if_pos rfl]
  | case2 position count value hcount offset block bits ih =>
    have hbyte : position / 8 < bytes.size := by omega
    have hat : bytes[position / 8].toNat = byteAt bytes (position / 8) := by
      rw [byteAt, Array.getD_eq_getD_getElem?, Array.getElem?_eq_getElem hbyte, Option.getD_some]
    have hshift : difference? (8 - position % 8) block = some (8 - position % 8 - block) :=
      difference?_of_le (Nat.min_le_right count (8 - position % 8))
    have hrest : position + block + (count - block) ≤ 8 * bytes.size := by
      have : block ≤ count := Nat.min_le_left count (8 - position % 8)
      omega
    rw [wordFrom?, if_neg hcount, ← ih hrest]
    simp only [Array.getElem?_eq_getElem hbyte, Option.bind_eq_bind, Option.bind_some, hat]
    exact congrArg (Option.bind · _) hshift

/-- The first bit of a byte's part, and the rest of it. -/
theorem shiftRight_mod_succ (byte shift block : Nat) :
    byte >>> shift % 1 <<< (block + 1) =
      (byte.testBit (shift + block)).toNat <<< block + byte >>> shift % 1 <<< block := by
  simp only [Nat.shiftLeft_eq, Nat.shiftRight_eq_div_pow, Nat.toNat_testBit, Nat.one_mul]
  rw [Nat.mod_pow_succ, Nat.div_div_eq_div_mul, ← Nat.pow_add, Nat.mul_comm, Nat.add_comm]

/-- A word begins with a block, which is not empty. -/
theorem wordFrom_block {bytes : Array UInt8} {position count block : Nat} (value : Nat)
    (h : min count (8 - position % 8) = block + 1) :
    wordFrom bytes position count value =
      wordFrom bytes (position + (block + 1)) (count - (block + 1))
        (value <<< (block + 1) +
          byteAt bytes (position / 8) >>> (8 - position % 8 - (block + 1)) % 1 <<< (block + 1)) := by
  rw [wordFrom, if_neg (by omega : count ≠ 0)]
  simp only [h]

/-- **A word in blocks begins with its first bit.** -/
theorem wordFrom_succ (bytes : Array UInt8) (position count value : Nat) :
    wordFrom bytes position (count + 1) value =
      wordFrom bytes (position + 1) count (2 * value + (bitAt bytes position).toNat) := by
  obtain ⟨block, hblock⟩ : ∃ b, min (count + 1) (8 - position % 8) = b + 1 :=
    ⟨min (count + 1) (8 - position % 8) - 1, by omega⟩
  have hbit : 8 - position % 8 - (block + 1) + block = 7 - position % 8 := by omega
  rw [wordFrom_block value hblock, shiftRight_mod_succ, hbit]
  rcases block with _ | block
  · simp [bitAt, Nat.shiftLeft_eq, Nat.mod_one, Nat.mul_comm value 2]
  · have hrest : min count (8 - (position + 1) % 8) = block + 1 := by omega
    have hshift : 8 - (position + 1) % 8 - (block + 1) = 8 - position % 8 - (block + 1 + 1) := by
      omega
    have hdiv : (position + 1) / 8 = position / 8 := by omega
    have hvalue (bit low : Nat) :
        value <<< (block + 1 + 1) + (bit <<< (block + 1) + low) =
          (2 * value + bit) <<< (block + 1) + low := by
      rw [Nat.shiftLeft_succ_inside value (block + 1)]
      simp only [Nat.shiftLeft_eq, Nat.add_mul, Nat.add_assoc]
    rw [wordFrom_block _ hrest, hshift, hdiv, hvalue, bitAt, Nat.add_assoc position 1,
      Nat.add_comm 1 (block + 1), Nat.add_sub_add_right]

/-- A word in blocks is a word bit by bit. -/
theorem appendBitsWith_next? (c : ByteCursor) (count value : Nat) (h : count ≤ c.left) :
    appendBitsWith next? count value c =
      .ok (wordFrom c.bytes c.position count value) (c.advance count h) := by
  induction count generalizing c value with
  | zero => simp [appendBitsWith, wordFrom, advance]
  | succ count ih =>
    have h1 : 1 ≤ c.left := by omega
    have hrest : count ≤ (c.advance 1 h1).left := by simp only [left, advance] at h ⊢; omega
    simp only [appendBitsWith, next?, h1, dite_true, wordFrom_succ]
    rw [ih _ _ hrest]
    simp [advance, Nat.add_assoc, Nat.add_comm 1 count]

instance : BitInput ByteCursor where
  pending := pending
  position := position
  next? := next?
  readWord := readWord
  pending_of_none {c} h := by
    have : c.left = 0 := by
      unfold next? at h
      split at h
      · cases h
      · omega
    simp [pending, this]
  pending_of_some {c rest bit} h := by
    simp only [next?, Option.dite_none_right_eq_some, Option.some.injEq, Prod.mk.injEq] at h
    obtain ⟨hl, rfl, rfl⟩ := h
    have : c.left = (c.advance 1 hl).left + 1 := by simp only [left, advance] at hl ⊢; omega
    simp [pending, this, List.range'_succ, advance]
  position_of_some {c rest bit} h := by
    simp only [next?, Option.dite_none_right_eq_some, Option.some.injEq, Prod.mk.injEq] at h
    obtain ⟨_, _, rfl⟩ := h
    rfl
  readWord_of_le {c bits} h := by
    have h : bits ≤ c.left := by simpa [pending] using h
    have hword : wordFrom? c.bytes c.position bits 0 = some (wordFrom c.bytes c.position bits 0) :=
      wordFrom?_eq 0 (by have := c.position_le; simp only [left] at h; omega)
    unfold readWord serialWord
    split
    · rfl
    · simp only [hword]
      exact (appendBitsWith_next? c bits 0 h).symm
  readWord_of_lt {c bits} hw h := by
    have h : c.left < bits := by simpa [pending] using h
    exact ⟨c, by rw [readWord, if_neg (by omega), dif_neg (by omega)]⟩

end ByteCursor

end AvsEntropy
