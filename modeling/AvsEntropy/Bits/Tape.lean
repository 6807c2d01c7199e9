import AvsEntropy.Bits.Input

/-!
# A tape of bits

The plainest source: the bits themselves, and a count of those taken.
Its words are read bit by bit, so a word that runs past the end consumes
the bits that were left.
-/

namespace AvsEntropy

/-- Bits in the order they are read. -/
structure BitTape where
  /-- The bits still to come. -/
  bits : List Bool
  /-- How many were taken. -/
  taken : Nat
  deriving DecidableEq, Repr

namespace BitTape

/-- A tape at its start. -/
def ofList (bits : List Bool) : BitTape := ⟨bits, 0⟩

/-- Takes the first bit. -/
def next? : BitTape → Option (Bool × BitTape)
  | ⟨[], _⟩ => none
  | ⟨bit :: bits, taken⟩ => some (bit, ⟨bits, taken + 1⟩)

/-- More bits than there are cannot be appended. -/
theorem appendBitsWith_next?_of_lt {bits : List Bool} {count : Nat} (h : bits.length < count)
    (value taken : Nat) :
    ∃ rest, appendBitsWith next? count value ⟨bits, taken⟩ =
      .error (.failed .endOfStream) rest := by
  induction bits generalizing count value taken with
  | nil =>
    obtain ⟨count, rfl⟩ : ∃ n, count = n + 1 := ⟨count - 1, by simp at h; omega⟩
    exact ⟨_, rfl⟩
  | cons bit bits ih =>
    obtain ⟨count, rfl⟩ : ∃ n, count = n + 1 := ⟨count - 1, by simp at h; omega⟩
    exact ih (by simpa using h) _ _

instance : BitInput BitTape where
  pending := bits
  position := taken
  next? := next?
  pending_of_none {s} h := by
    obtain ⟨_ | _, _⟩ := s
    · rfl
    · simp [next?] at h
  pending_of_some {s rest bit} h := by
    obtain ⟨_ | _, _⟩ := s
    · simp [next?] at h
    · simp only [next?, Option.some.injEq, Prod.mk.injEq] at h
      obtain ⟨rfl, rfl⟩ := h
      rfl
  position_of_some {s rest bit} h := by
    obtain ⟨_ | _, _⟩ := s
    · simp [next?] at h
    · simp only [next?, Option.some.injEq, Prod.mk.injEq] at h
      obtain ⟨rfl, rfl⟩ := h
      rfl
  readWord_of_le _ := rfl
  readWord_of_lt {s bits} hw h := by
    simp only [serialWord, Nat.not_lt.mpr hw, if_false]
    exact appendBitsWith_next?_of_lt h 0 s.taken

end BitTape

end AvsEntropy
