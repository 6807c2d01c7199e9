import AvsEntropy.Bits.Input
import AvsEntropy.Proofs.Bits.Numbers

/-!
# What a read takes

A read takes bits from the front of its source and nothing else.
`Takes s bits rest` says which: `rest` is `s` with `bits` gone from what
is pending and counted in the position. `readBit`, `appendBits` and
`readWord` each have one lemma, which lists their outcomes; nothing after
this file opens a source.
-/

namespace AvsEntropy

/-! ## One read after another -/

section Bind

variable {σ α β : Type} {x : EStateM Stop σ α} {f : α → EStateM Stop σ β} {s t : σ}

/-- A read that succeeds is followed by the next. -/
theorem bind_ok {a : α} (h : x s = .ok a t) : (x >>= f) s = f a t := by
  show EStateM.bind x f s = _
  rw [EStateM.bind, h]

/-- A read that fails is the last. -/
theorem bind_error {stop : Stop} (h : x s = .error stop t) : (x >>= f) s = .error stop t := by
  show EStateM.bind x f s = _
  rw [EStateM.bind, h]

end Bind

/-! ## Bits taken from the front -/

open BitInput

variable {σ : Type} [BitInput σ]

/-- `rest` is `s` with `bits` taken from the front. -/
structure Takes (s : σ) (bits : List Bool) (rest : σ) : Prop where
  /-- The bits were the first ones pending. -/
  pending_eq : pending s = bits ++ pending rest
  /-- Each of them is counted. -/
  position_eq : position rest = position s + bits.length

namespace Takes

variable {s t u : σ} {bits more : List Bool}

theorem refl (s : σ) : Takes s [] s := ⟨rfl, rfl⟩

/-- Bits taken one after the other. -/
theorem trans (h : Takes s bits t) (h' : Takes t more u) : Takes s (bits ++ more) u where
  pending_eq := by rw [h.pending_eq, h'.pending_eq, List.append_assoc]
  position_eq := by rw [h'.position_eq, h.position_eq, List.length_append, Nat.add_assoc]

/-- What is taken is no longer pending. -/
theorem length_pending (h : Takes s bits t) :
    (pending s).length = bits.length + (pending t).length := by
  rw [h.pending_eq, List.length_append]

/-- What follows the bits that were taken is still pending. -/
theorem prefix_pending (h : Takes s bits t) (hp : bits ++ more <+: pending s) :
    more <+: pending t := by
  rw [h.pending_eq] at hp
  exact (List.prefix_append_right_inj _).1 hp

/-- A source all of whose bits are taken is exhausted. -/
theorem pending_eq_nil (h : Takes s (pending s) t) : pending t = [] := by
  have := h.pending_eq
  simpa using this

end Takes

/-- The next bit is taken alone. -/
theorem takes_of_next? {s rest : σ} {bit : Bool} (h : next? s = some (bit, rest)) :
    Takes s [bit] rest :=
  ⟨pending_of_some h, position_of_some h⟩

/-! ## The reads -/

/-- **A bit is taken, or there is none.** -/
theorem readBit_cases (s : σ) :
    (∃ bit rest, Takes s [bit] rest ∧ readBit s = .ok bit rest) ∨
      pending s = [] ∧ readBit s = .error (.failed .endOfStream) s := by
  cases hn : next? s with
  | none => exact .inr ⟨pending_of_none hn, by simp only [readBit, hn]⟩
  | some next => exact .inl ⟨next.1, next.2, takes_of_next? hn, by simp only [readBit, hn]⟩

/-- **As many bits are taken as were asked for, or all there are**, which
were too few. -/
theorem appendBits_cases (count value : ℕ) (s : σ) :
    (∃ bits rest, bits.length = count ∧ Takes s bits rest ∧
      appendBits count value s = .ok (appended value bits) rest) ∨
    ∃ rest, (pending s).length < count ∧ Takes s (pending s) rest ∧
      appendBits count value s = .error (.failed .endOfStream) rest := by
  induction count generalizing value s with
  | zero => exact .inl ⟨[], s, rfl, .refl s, rfl⟩
  | succ count ih =>
    cases hn : next? s with
    | none =>
      have hs : pending s = [] := pending_of_none hn
      refine .inr ⟨s, by simp [hs], hs ▸ .refl s, ?_⟩
      simp only [appendBits, appendBitsWith, hn]
    | some next =>
      obtain ⟨bit, t⟩ := next
      have ht := takes_of_next? hn
      have hstep : appendBits (count + 1) value s = appendBits count (2 * value + bit.toNat) t := by
        simp only [appendBits, appendBitsWith, hn]
      rcases ih (2 * value + bit.toNat) t with ⟨bits, rest, hlen, hr, h⟩ | ⟨rest, hlen, hr, h⟩
      · exact .inl ⟨bit :: bits, rest, by simp [hlen], ht.trans hr, by rw [hstep, h]; rfl⟩
      · refine .inr ⟨rest, ?_, ?_, by rw [hstep, h]⟩
        · rw [ht.pending_eq]; simpa using hlen
        · rw [ht.pending_eq]; exact ht.trans hr

/-- **A word is taken bit by bit, or the read fails** before the end of
what was asked for; where the source then stands is its own affair. -/
theorem readWord_cases {count : ℕ} (hcount : count ≤ 32) (s : σ) :
    (∃ bits rest, bits.length = count ∧ Takes s bits rest ∧
      readWord count s = .ok (appended 0 bits) rest) ∨
    ∃ rest, (pending s).length < count ∧ readWord count s = .error (.failed .endOfStream) rest := by
  rcases Nat.lt_or_ge (pending s).length count with h | h
  · obtain ⟨rest, hr⟩ := readWord_of_lt hcount h
    exact .inr ⟨rest, h, hr⟩
  · have hword : readWord count s = appendBits count 0 s := by
      rw [readWord_of_le h, serialWord, if_neg (by omega)]
      rfl
    rcases appendBits_cases count 0 s with ⟨bits, rest, hlen, hr, hok⟩ | ⟨rest, hlt, -, -⟩
    · exact .inl ⟨bits, rest, hlen, hr, by rw [hword, hok]⟩
    · omega

/-! ## Reads at the end

A read that finds no bit leaves its source as it is, and not only with as
many bits. -/

section AtEnd

variable {α β : Type} {s : σ}

omit [BitInput σ] in
/-- A read that leaves its source as it is, however it ends. -/
def Idle (x : EStateM Stop σ α) (s : σ) : Prop :=
  match x s with
  | .ok _ rest => rest = s
  | .error _ rest => rest = s

omit [BitInput σ] in
/-- Idle reads one after the other are idle. -/
theorem Idle.bind {x : EStateM Stop σ α} {f : α → EStateM Stop σ β} (hx : Idle x s)
    (hf : ∀ a, Idle (f a) s) : Idle (x >>= f) s := by
  unfold Idle at hx ⊢
  cases h : x s with
  | ok a rest =>
    rw [h] at hx
    obtain rfl : rest = s := hx
    rw [bind_ok h]
    exact hf a
  | error stop rest =>
    rw [h] at hx
    rw [bind_error h]
    exact hx

/-- An exhausted source has no next bit. -/
theorem next?_eq_none (hend : pending s = []) : next? s = none := by
  cases hn : next? s with
  | none => rfl
  | some next =>
    obtain ⟨bit, rest⟩ := next
    have hsome := pending_of_some hn
    rw [hend] at hsome
    cases hsome

theorem idle_readBit (hend : pending s = []) : Idle (readBit (σ := σ)) s := by
  unfold Idle readBit
  rw [next?_eq_none hend]

theorem idle_appendBits (hend : pending s = []) (count value : ℕ) :
    Idle (appendBits (σ := σ) count value) s := by
  unfold Idle appendBits
  cases count with
  | zero => rfl
  | succ count =>
    rw [appendBitsWith, next?_eq_none hend]

end AtEnd

end AvsEntropy
