import AvsEntropy.Proofs.Bin.Transcript

/-!
# Codes

The bins of a transcript without the requests: `Codes t bins a` says that
a tree reads its value `a` off exactly these bins, whatever contexts it
asks of. A tape is read to a value exactly if it begins with a code of it
(`run_iff_codes`). Codes of trees are put together as the trees are, and
what is left is what bins each element has for each of its values.

A number that may be negative is read as a magnitude and a bin that is set
where it is. The number determines both, unless it is zero, which has a sign
bin of either kind; so magnitudes that are read with a sign are positive.
-/

namespace AvsEntropy

/-! ## Magnitudes and signs -/

/-- The magnitude of what is put together from a magnitude and a sign. -/
theorem natAbs_signed (negative : Bool) (magnitude : ℕ) :
    (if negative then -(magnitude : ℤ) else magnitude).natAbs = magnitude := by
  cases negative with
  | false => exact Int.natAbs_natCast magnitude
  | true => exact (Int.natAbs_neg _).trans (Int.natAbs_natCast magnitude)

/-- The sign of it, where the magnitude is positive. -/
theorem decide_signed_lt_zero (negative : Bool) {magnitude : ℕ} (h : 1 ≤ magnitude) :
    decide ((if negative then -(magnitude : ℤ) else magnitude) < 0) = negative := by
  cases negative with
  | false => exact decide_eq_false (by rw [if_neg Bool.false_ne_true]; omega)
  | true => exact decide_eq_true (by rw [if_pos rfl]; omega)

/-- A number is its magnitude with its sign. -/
theorem signed_natAbs (value : ℤ) :
    (if decide (value < 0) then -(value.natAbs : ℤ) else value.natAbs) = value := by
  by_cases h : value < 0
  · rw [decide_eq_true h, if_pos rfl]
    omega
  · rw [decide_eq_false h, if_neg Bool.false_ne_true]
    omega

/-! ## The bins of a count -/

/-- The bins of a count in unary: as many that go on, and one that stops. -/
def unaryCode (stop : Bool) (count : ℕ) : List Bool := List.replicate count (!stop) ++ [stop]

/-- The bins of a count up to a limit, which is not followed by a stop. -/
def truncatedCode (stop : Bool) (limit count : ℕ) : List Bool :=
  if count < limit then unaryCode stop count else List.replicate count (!stop)

namespace BinTree

variable {ω α β : Type} {t : BinTree ω α} {f : α → BinTree ω β} {bins : List Bool} {a : α} {b : β}

/-- A tree reads a value off exactly these bins. -/
def Codes (t : BinTree ω α) (bins : List Bool) (a : α) : Prop :=
  ∃ trace items, t.Reaches trace items a ∧ bins = trace.map Prod.snd

theorem codes_pure {b : α} : (pure b : BinTree ω α).Codes bins a ↔ bins = [] ∧ a = b := by
  constructor
  · rintro ⟨_, _, ⟨rfl, rfl, rfl⟩, rfl⟩
    exact ⟨rfl, rfl⟩
  · rintro ⟨rfl, rfl⟩
    exact ⟨[], [], ⟨rfl, rfl, rfl⟩, rfl⟩

/-- A value that must be there has the empty code if it is. -/
theorem codes_require {x : Option α} :
    (require x : BinTree ω α).Codes bins a ↔ bins = [] ∧ x = some a := by
  constructor
  · rintro ⟨_, _, h, rfl⟩
    obtain ⟨rfl, -, hx⟩ := reaches_require.1 h
    exact ⟨rfl, hx⟩
  · rintro ⟨rfl, hx⟩
    exact ⟨[], [], reaches_require.2 ⟨rfl, rfl, hx⟩, rfl⟩

/-- **A code of a tree built from two** is a code of each, one after the
other. -/
theorem codes_bind : (t >>= f).Codes bins b ↔
    ∃ front back a, bins = front ++ back ∧ t.Codes front a ∧ (f a).Codes back b := by
  constructor
  · rintro ⟨_, _, h, rfl⟩
    obtain ⟨trace₁, trace₂, items₁, items₂, a, rfl, rfl, h₁, h₂⟩ := reaches_bind.1 h
    exact ⟨_, _, a, List.map_append, ⟨trace₁, items₁, h₁, rfl⟩, ⟨trace₂, items₂, h₂, rfl⟩⟩
  · rintro ⟨_, _, a, rfl, ⟨trace₁, items₁, h₁, rfl⟩, ⟨trace₂, items₂, h₂, rfl⟩⟩
    exact ⟨_, _, reaches_bind.2 ⟨trace₁, trace₂, items₁, items₂, a, rfl, rfl, h₁, h₂⟩,
      List.map_append.symm⟩

theorem codes_map {f : α → β} : (f <$> t).Codes bins b ↔ ∃ a, t.Codes bins a ∧ b = f a := by
  rw [map_eq_pure_bind, codes_bind]
  constructor
  · rintro ⟨front, back, a, rfl, h, hback⟩
    obtain ⟨rfl, rfl⟩ := codes_pure.1 hback
    exact ⟨a, by rwa [List.append_nil], rfl⟩
  · rintro ⟨a, h, rfl⟩
    exact ⟨bins, [], a, (List.append_nil _).symm, h, codes_pure.2 ⟨rfl, rfl⟩⟩

theorem codes_ask_done {request : BinRequest} {bin : Bool} :
    (ask request .done : BinTree ω Bool).Codes bins bin ↔ bins = [bin] := by
  constructor
  · rintro ⟨_, _, h, rfl⟩
    obtain ⟨rfl, rfl⟩ := reaches_ask_done.1 h
    rfl
  · rintro rfl
    exact ⟨_, [], reaches_ask_done.2 ⟨rfl, rfl⟩, rfl⟩

/-- A tree that begins with a bin has its codes from the two trees that
follow. -/
theorem codes_symbol_bind {context : ℕ} {f : Bool → BinTree ω β} :
    (symbol context >>= f).Codes bins b ↔
      ∃ bin rest, bins = bin :: rest ∧ (f bin).Codes rest b := by
  simp only [symbol, codes_bind, codes_ask_done]
  constructor
  · rintro ⟨_, rest, bin, rfl, rfl, h⟩
    exact ⟨bin, rest, rfl, h⟩
  · rintro ⟨bin, rest, rfl, h⟩
    exact ⟨[bin], rest, bin, rfl, rfl, h⟩

/-- **A bin that decides which tree follows**, in front of the codes of
each. -/
theorem codes_symbol_ite {context : ℕ} {t e : BinTree ω β} :
    (symbol context >>= fun bin => if bin = true then t else e).Codes bins b ↔
      (∃ rest, bins = true :: rest ∧ t.Codes rest b) ∨
        ∃ rest, bins = false :: rest ∧ e.Codes rest b := by
  rw [codes_symbol_bind, Bool.exists_bool, or_comm]
  simp only [if_true, Bool.false_eq_true, if_false]

/-! ## The codes -/

section Codes

variable {element : Element} {stop : Bool} {request : ℕ → BinRequest}

theorem codes_unary {first limit n : ℕ} (hle : first ≤ limit) :
    (unary element stop first limit request : BinTree ω ℕ).Codes bins n ↔
      first ≤ n ∧ n ≤ limit ∧ bins = unaryCode stop (n - first) := by
  have hbins : (unaryTranscript stop request first n).map Prod.snd = unaryCode stop (n - first) :=
    map_snd_unaryTranscript first n
  constructor
  · rintro ⟨_, _, h, rfl⟩
    obtain ⟨hfirst, hlimit, -, rfl⟩ := (reaches_unary hle).1 h
    exact ⟨hfirst, hlimit, hbins⟩
  · rintro ⟨hfirst, hlimit, rfl⟩
    exact ⟨_, [], (reaches_unary hle).2 ⟨hfirst, hlimit, rfl, rfl⟩, hbins.symm⟩

theorem codes_truncatedUnary {limit n : ℕ} :
    (truncatedUnary stop limit request : BinTree ω ℕ).Codes bins n ↔
      n ≤ limit ∧ bins = truncatedCode stop limit n := by
  have hgoing : (goingOn stop request 0 n).map Prod.snd = List.replicate n (!stop) :=
    map_snd_goingOn 0 n
  have hbins : (unaryTranscript stop request 0 n).map Prod.snd = unaryCode stop n :=
    map_snd_unaryTranscript 0 n
  unfold truncatedCode
  constructor
  · rintro ⟨_, _, h, rfl⟩
    obtain ⟨-, ⟨hlt, rfl⟩ | ⟨rfl, rfl⟩⟩ := reaches_truncatedUnary.1 h
    · exact ⟨hlt.le, by rw [if_pos hlt, hbins]⟩
    · exact ⟨le_rfl, by rw [if_neg (lt_irrefl _), hgoing]⟩
  · rintro ⟨hle, rfl⟩
    rcases hle.lt_or_eq with hlt | rfl
    · exact ⟨_, [], reaches_truncatedUnary.2 ⟨rfl, .inl ⟨hlt, rfl⟩⟩, by rw [if_pos hlt, hbins]⟩
    · exact ⟨_, [], reaches_truncatedUnary.2 ⟨rfl, .inr ⟨rfl, rfl⟩⟩,
        by rw [if_neg (lt_irrefl _), hgoing]⟩

theorem codes_bypassBits {count n : ℕ} (hcount : count ≤ 32) :
    (bypassBits count : BinTree ω ℕ).Codes bins n ↔ n < 2 ^ count ∧ bins = bitsOf count n := by
  have hsnd (bits : List Bool) :
      (bits.map fun bit => (BinRequest.bypass, bit)).map Prod.snd = bits := by
    rw [List.map_map]
    exact List.map_id bits
  rw [← appended_eq_iff_bitsOf]
  constructor
  · rintro ⟨_, _, h, rfl⟩
    obtain ⟨bits, hlen, hn, -, rfl⟩ := (reaches_bypassBits hcount).1 h
    rw [hsnd]
    exact ⟨hlen, hn⟩
  · rintro ⟨hlen, hn⟩
    exact ⟨_, [], (reaches_bypassBits hcount).2 ⟨bins, hlen, hn, rfl, rfl⟩, (hsnd bins).symm⟩

end Codes

/-- **A tape is read to a value exactly if it begins with a code of it**,
and what is left is what followed the code. -/
theorem run_iff_codes {rest : List Bool} :
    (t.run (BinTape.ofList bins)).result = .ok a ∧
        (t.run (BinTape.ofList bins)).state.bins = rest ↔
      ∃ code, t.Codes code a ∧ bins = code ++ rest := by
  constructor
  · rintro ⟨hresult, hrest⟩
    obtain ⟨trace, hreaches, hbins⟩ := run_ofList_iff.1 ⟨hresult, rfl, hrest⟩
    exact ⟨_, ⟨trace, _, hreaches, rfl⟩, hbins⟩
  · rintro ⟨_, ⟨trace, items, hreaches, rfl⟩, hbins⟩
    obtain ⟨hresult, -, hrest⟩ := run_ofList_iff.2 ⟨trace, hreaches, hbins⟩
    exact ⟨hresult, hrest⟩

end BinTree

end AvsEntropy
