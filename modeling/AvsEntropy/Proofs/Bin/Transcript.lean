import AvsEntropy.Bin.Code
import AvsEntropy.Proofs.Bits.Numbers

/-!
# Transcripts

A transcript is the requests of a reading with the bins that answered
them. `Reaches` says that a tree, answered so, ends with a value, and
which items it has written by then. A tree built from two is read along
two transcripts, one after the other (`reaches_bind`), and each code has
one transcript for each of its values.

On a tape the bins of a transcript are consumed and nothing else
(`run_ofList_iff`): which bins are a code, of which value, is a question
about transcripts.
-/

namespace AvsEntropy

/-- Requests, and the bins that answered them. -/
abbrev Transcript := List (BinRequest × Bool)

namespace BinTree

variable {ω α β : Type} {t : BinTree ω α} {f : α → BinTree ω β} {trace : Transcript}
  {items : List ω} {a : α} {b : β}

/-- Answered as the transcript says, a tree writes the items and ends with
the value. -/
def Reaches : BinTree ω α → Transcript → List ω → α → Prop
  | .done b, trace, items, a => trace = [] ∧ items = [] ∧ a = b
  | .refuse .., _, _, _ => False
  | .fault, _, _, _ => False
  | .write item rest, trace, items, a => ∃ more, items = item :: more ∧ rest.Reaches trace more a
  | .ask request next, trace, items, a =>
    ∃ bin more, trace = (request, bin) :: more ∧ (next bin).Reaches more items a

@[simp] theorem reaches_pure {b : α} :
    (pure b : BinTree ω α).Reaches trace items a ↔ trace = [] ∧ items = [] ∧ a = b := Iff.rfl

/-- A value that must be there is reached if it is. -/
theorem reaches_require {x : Option α} :
    (require x : BinTree ω α).Reaches trace items a ↔ trace = [] ∧ items = [] ∧ x = some a := by
  cases x with
  | some b =>
    rw [Option.some.injEq, eq_comm (a := b)]
    exact reaches_pure
  | none => exact iff_of_false id fun h => Option.some_ne_none a h.2.2.symm

theorem reaches_ask {request : BinRequest} {next : Bool → BinTree ω α} :
    (ask request next).Reaches trace items a ↔
      ∃ bin more, trace = (request, bin) :: more ∧ (next bin).Reaches more items a := Iff.rfl

/-- **A tree built from two is read along two transcripts.** -/
theorem reaches_bind : (t >>= f).Reaches trace items b ↔
    ∃ trace₁ trace₂ items₁ items₂ a, trace = trace₁ ++ trace₂ ∧ items = items₁ ++ items₂ ∧
      t.Reaches trace₁ items₁ a ∧ (f a).Reaches trace₂ items₂ b := by
  change (t.bind f).Reaches trace items b ↔ _
  induction t generalizing trace items with
  | done a =>
    constructor
    · exact fun h => ⟨[], trace, [], items, a, rfl, rfl, ⟨rfl, rfl, rfl⟩, h⟩
    · rintro ⟨_, trace₂, _, items₂, _, rfl, rfl, ⟨rfl, rfl, rfl⟩, h⟩
      exact h
  | refuse =>
    constructor
    · exact False.elim
    · rintro ⟨_, _, _, _, _, _, _, h, _⟩
      exact h
  | fault =>
    constructor
    · exact False.elim
    · rintro ⟨_, _, _, _, _, _, _, h, _⟩
      exact h
  | write item rest ih =>
    constructor
    · rintro ⟨more, rfl, h⟩
      obtain ⟨trace₁, trace₂, items₁, items₂, a, rfl, rfl, h₁, h₂⟩ := ih.1 h
      exact ⟨trace₁, trace₂, item :: items₁, items₂, a, rfl, rfl, ⟨items₁, rfl, h₁⟩, h₂⟩
    · rintro ⟨trace₁, trace₂, _, items₂, a, rfl, rfl, ⟨more, rfl, h₁⟩, h₂⟩
      exact ⟨more ++ items₂, rfl, ih.2 ⟨trace₁, trace₂, more, items₂, a, rfl, rfl, h₁, h₂⟩⟩
  | ask request next ih =>
    constructor
    · rintro ⟨bin, more, rfl, h⟩
      obtain ⟨trace₁, trace₂, items₁, items₂, a, rfl, rfl, h₁, h₂⟩ := (ih bin).1 h
      exact ⟨(request, bin) :: trace₁, trace₂, items₁, items₂, a, rfl, rfl,
        ⟨bin, trace₁, rfl, h₁⟩, h₂⟩
    · rintro ⟨_, trace₂, items₁, items₂, a, rfl, rfl, ⟨bin, more, rfl, h₁⟩, h₂⟩
      exact ⟨bin, more ++ trace₂, rfl,
        (ih bin).2 ⟨more, trace₂, items₁, items₂, a, rfl, rfl, h₁, h₂⟩⟩

/-- One request is one entry. -/
theorem reaches_ask_done {request : BinRequest} {bin : Bool} :
    (ask request .done : BinTree ω Bool).Reaches trace items bin ↔
      trace = [(request, bin)] ∧ items = [] := by
  constructor
  · rintro ⟨_, _, rfl, rfl, rfl, rfl⟩
    exact ⟨rfl, rfl⟩
  · rintro ⟨rfl, rfl⟩
    exact ⟨bin, [], rfl, rfl, rfl, rfl⟩

/-! ## Transcripts of the codes -/

section Codes

variable {element : Element} {stop : Bool} {request : ℕ → BinRequest}

/-- The bins that go on, from one count up to another. -/
def goingOn (stop : Bool) (request : ℕ → BinRequest) (first last : ℕ) : Transcript :=
  (List.range' first (last - first)).map fun count => (request count, !stop)

/-- The transcript of a unary code that counts from `first` to `last`. -/
def unaryTranscript (stop : Bool) (request : ℕ → BinRequest) (first last : ℕ) : Transcript :=
  goingOn stop request first last ++ [(request last, stop)]

theorem goingOn_self (count : ℕ) : goingOn stop request count count = [] := by
  unfold goingOn
  rw [Nat.sub_self, List.range'_zero, List.map_nil]

/-- The first of the bins that go on. -/
theorem goingOn_of_lt {first last : ℕ} (h : first < last) : goingOn stop request first last =
    (request first, !stop) :: goingOn stop request (first + 1) last := by
  rw [goingOn, show last - first = last - (first + 1) + 1 by omega, List.range'_succ, List.map_cons,
    goingOn]

/-- The bins that go on are all alike. -/
theorem map_snd_goingOn (first last : ℕ) : (goingOn stop request first last).map Prod.snd =
    List.replicate (last - first) (!stop) := by
  unfold goingOn
  rw [List.map_map, List.eq_replicate_iff]
  refine ⟨by rw [List.length_map, List.length_range'], fun bin hbin => ?_⟩
  obtain ⟨count, -, rfl⟩ := List.mem_map.1 hbin
  rfl

theorem unaryTranscript_self (count : ℕ) :
    unaryTranscript stop request count count = [(request count, stop)] := by
  unfold unaryTranscript
  rw [goingOn_self, List.nil_append]

theorem unaryTranscript_of_lt {first last : ℕ} (h : first < last) :
    unaryTranscript stop request first last =
      (request first, !stop) :: unaryTranscript stop request (first + 1) last := by
  unfold unaryTranscript
  rw [goingOn_of_lt h, List.cons_append]

/-- A unary code goes on as often as it counts, and stops. -/
theorem map_snd_unaryTranscript (first last : ℕ) :
    (unaryTranscript stop request first last).map Prod.snd =
      List.replicate (last - first) (!stop) ++ [stop] := by
  unfold unaryTranscript
  rw [List.map_append, map_snd_goingOn]
  rfl

/-- It asks for its first bin by the first count, and where the other counts
make no difference for all others alike. -/
theorem map_fst_unaryTranscript {first last : ℕ} {later : BinRequest} (hle : first ≤ last)
    (h : ∀ count, first < count → request count = later) :
    (unaryTranscript stop request first last).map Prod.fst =
      request first :: List.replicate (last - first) later := by
  have hcounts : (unaryTranscript stop request first last).map Prod.fst =
      (List.range' first (last - first + 1)).map request := by
    rw [unaryTranscript, goingOn, List.map_append, List.map_map, List.range'_1_concat,
      List.map_append, Nat.add_sub_cancel' hle]
    rfl
  rw [hcounts, List.range'_succ, List.map_cons, List.cons.injEq, List.eq_replicate_iff]
  refine ⟨rfl, by rw [List.length_map, List.length_range'], fun other hother => ?_⟩
  obtain ⟨count, hcount, rfl⟩ := List.mem_map.1 hother
  exact h count (List.mem_range'_1.1 hcount).1

/-- Whether a unary code goes on is decided bin by bin. -/
theorem reaches_ask_ite {count : ℕ} {t : BinTree ω ℕ} {n : ℕ} :
    (ask (request count) fun bin => if bin = stop then done count else t).Reaches trace items n ↔
      (trace = [(request count, stop)] ∧ items = [] ∧ n = count) ∨
      ∃ more, trace = (request count, !stop) :: more ∧ t.Reaches more items n := by
  rw [reaches_ask]
  constructor
  · rintro ⟨bin, more, rfl, h⟩
    by_cases hbin : bin = stop
    · rw [if_pos hbin] at h
      obtain ⟨rfl, rfl, rfl⟩ := h
      exact .inl ⟨by rw [hbin], rfl, rfl⟩
    · rw [if_neg hbin] at h
      exact .inr ⟨more, by rw [Bool.eq_not.2 hbin], h⟩
  · rintro (⟨rfl, rfl, rfl⟩ | ⟨more, rfl, h⟩)
    · refine ⟨stop, [], rfl, ?_⟩
      rw [if_pos rfl]
      exact ⟨rfl, rfl, rfl⟩
    · refine ⟨!stop, more, rfl, ?_⟩
      rwa [if_neg (Bool.not_ne_self stop)]

/-- **A unary code has one transcript for each count up to its limit.** -/
theorem reaches_unary {first limit n : ℕ} (hle : first ≤ limit) :
    (unary element stop first limit request : BinTree ω ℕ).Reaches trace items n ↔
      first ≤ n ∧ n ≤ limit ∧ items = [] ∧ trace = unaryTranscript stop request first n := by
  -- from any count on, and by induction on the room that is left for it
  have key : ∀ room count (trace : Transcript),
      (unaryFrom element stop (fun n => some (request n)) room count : BinTree ω ℕ).Reaches
          trace items n ↔
        count ≤ n ∧ n ≤ count + room ∧ items = [] ∧
          trace = unaryTranscript stop request count n := by
    intro room
    induction room with
    | zero =>
      intro count trace
      rw [unaryFrom, require_some_bind, reaches_ask_ite]
      constructor
      · rintro (⟨rfl, rfl, rfl⟩ | ⟨more, -, h⟩)
        · exact ⟨le_rfl, le_rfl, rfl, (unaryTranscript_self n).symm⟩
        · -- past the limit the count is refused
          unfold overrun at h
          split at h <;> exact h.elim
      · rintro ⟨hge, hn, rfl, rfl⟩
        obtain rfl : n = count := le_antisymm hn hge
        exact .inl ⟨unaryTranscript_self n, rfl, rfl⟩
    | succ room ih =>
      intro count trace
      rw [unaryFrom, require_some_bind, reaches_ask_ite]
      simp only [ih]
      constructor
      · rintro (⟨rfl, rfl, rfl⟩ | ⟨more, rfl, hge, hn, rfl, rfl⟩)
        · exact ⟨le_rfl, by omega, rfl, (unaryTranscript_self n).symm⟩
        · exact ⟨by omega, by omega, rfl, (unaryTranscript_of_lt hge).symm⟩
      · rintro ⟨hge, hn, rfl, rfl⟩
        rcases hge.eq_or_lt with rfl | hlt
        · exact .inl ⟨unaryTranscript_self count, rfl, rfl⟩
        · exact .inr ⟨_, unaryTranscript_of_lt hlt, hlt, by omega, rfl, rfl⟩
  unfold unary checkedUnary
  rw [key, Nat.add_sub_cancel' hle]

/-- **A truncated unary code stops with a bin below its limit**, and
without one at its limit. -/
theorem reaches_truncatedUnary {limit n : ℕ} :
    (truncatedUnary stop limit request : BinTree ω ℕ).Reaches trace items n ↔
      items = [] ∧ (n < limit ∧ trace = unaryTranscript stop request 0 n ∨
        n = limit ∧ trace = goingOn stop request 0 n) := by
  have key : ∀ room count (trace : Transcript), count + room = limit →
      ((truncatedUnaryFrom stop request room count : BinTree ω ℕ).Reaches trace items n ↔
        items = [] ∧ count ≤ n ∧ (n < limit ∧ trace = unaryTranscript stop request count n ∨
          n = limit ∧ trace = goingOn stop request count n)) := by
    intro room
    induction room with
    | zero =>
      rintro count trace rfl
      constructor
      · rintro ⟨rfl, rfl, rfl⟩
        exact ⟨rfl, le_rfl, .inr ⟨rfl, (goingOn_self n).symm⟩⟩
      · rintro ⟨rfl, hge, ⟨hlt, -⟩ | ⟨rfl, rfl⟩⟩
        · omega
        · exact ⟨goingOn_self _, rfl, rfl⟩
    | succ room ih =>
      intro count trace hroom
      have hnext := ih (count + 1)
      rw [truncatedUnaryFrom, reaches_ask_ite]
      constructor
      · rintro (⟨rfl, rfl, rfl⟩ | ⟨more, rfl, h⟩)
        · exact ⟨rfl, le_rfl, .inl ⟨by omega, (unaryTranscript_self n).symm⟩⟩
        · obtain ⟨rfl, hge, ⟨hlt, rfl⟩ | ⟨rfl, rfl⟩⟩ := (hnext more (by omega)).1 h
          · exact ⟨rfl, by omega, .inl ⟨hlt, (unaryTranscript_of_lt hge).symm⟩⟩
          · exact ⟨rfl, by omega, .inr ⟨rfl, (goingOn_of_lt hge).symm⟩⟩
      · rintro ⟨rfl, hge, ⟨hn, rfl⟩ | ⟨rfl, rfl⟩⟩
        · rcases hge.eq_or_lt with rfl | hlt
          · exact .inl ⟨unaryTranscript_self count, rfl, rfl⟩
          · exact .inr ⟨_, unaryTranscript_of_lt hlt,
              (hnext _ (by omega)).2 ⟨rfl, hlt, .inl ⟨hn, rfl⟩⟩⟩
        · have hlt : count < n := by omega
          exact .inr ⟨_, goingOn_of_lt hlt, (hnext _ (by omega)).2 ⟨rfl, hlt, .inr ⟨rfl, rfl⟩⟩⟩
  unfold truncatedUnary
  rw [key limit 0 trace (Nat.zero_add limit)]
  simp only [Nat.zero_le, true_and]

/-- **Bypass bins are appended one by one**, while they fit a word. -/
theorem reaches_bypassBits {count n : ℕ} (hcount : count ≤ 32) :
    (bypassBits count : BinTree ω ℕ).Reaches trace items n ↔
      ∃ bits : List Bool, bits.length = count ∧ appended 0 bits = n ∧ items = [] ∧
        trace = bits.map fun bit => (.bypass, bit) := by
  have key : ∀ count taken value (trace : Transcript), taken + count ≤ 32 → value < 2 ^ taken →
      ((bypassBitsFrom count value : BinTree ω ℕ).Reaches trace items n ↔
        ∃ bits : List Bool, bits.length = count ∧ appended value bits = n ∧ items = [] ∧
          trace = bits.map fun bit => (.bypass, bit)) := by
    intro count
    induction count with
    | zero =>
      intro taken value trace _ _
      constructor
      · rintro ⟨rfl, rfl, rfl⟩
        exact ⟨[], rfl, rfl, rfl, rfl⟩
      · rintro ⟨bits, hlen, rfl, rfl, rfl⟩
        obtain rfl := List.eq_nil_of_length_eq_zero hlen
        exact ⟨rfl, rfl, rfl⟩
    | succ count ih =>
      intro taken value trace htaken hvalue
      have hnext (bin : Bool) : 2 * value + bin.toNat < 2 ^ (taken + 1) := by
        have hbin := bin.toNat_le
        rw [pow_succ]
        omega
      -- the word does not overflow before its 33rd bin
      have hword (bin : Bool) : (2 * value + bin.toNat) % wordBound = 2 * value + bin.toNat :=
        Nat.mod_eq_of_lt (lt_of_lt_of_le (hnext bin)
          (Nat.pow_le_pow_right (by decide) (by omega : taken + 1 ≤ 32)))
      rw [bypassBitsFrom, reaches_ask]
      constructor
      · rintro ⟨bin, more, rfl, h⟩
        rw [hword, ih (taken + 1) _ more (by omega) (hnext bin)] at h
        obtain ⟨bits, rfl, rfl, rfl, rfl⟩ := h
        exact ⟨bin :: bits, rfl, rfl, rfl, rfl⟩
      · rintro ⟨bits, hlen, rfl, rfl, rfl⟩
        obtain ⟨bin, bits, rfl⟩ := List.exists_cons_of_length_eq_add_one hlen
        refine ⟨bin, bits.map fun bit => (.bypass, bit), rfl, ?_⟩
        rw [hword, ih (taken + 1) _ _ (by omega) (hnext bin)]
        exact ⟨bits, by simpa using hlen, rfl, rfl, rfl⟩
  rw [bypassBits, key count 0 0 trace (by omega) (by decide)]

end Codes

/-! ## Runs on a tape -/

/-- A tape that holds the bins of a transcript is read to its end. -/
theorem run_of_reaches (h : t.Reaches trace items a) (rest : List Bool)
    (requests : Array BinRequest) :
    t.run (⟨trace.map Prod.snd ++ rest, requests⟩ : BinTape) =
      ⟨.ok a, items, ⟨rest, requests ++ (trace.map Prod.fst).toArray⟩⟩ := by
  induction t generalizing trace items requests with
  | done b =>
    obtain ⟨rfl, rfl, rfl⟩ := h
    simp [run]
  | refuse => exact h.elim
  | fault => exact h.elim
  | write item rest ih =>
    obtain ⟨more, rfl, h⟩ := h
    rw [run, ih h]
  | ask request next ih =>
    obtain ⟨bin, more, rfl, h⟩ := h
    simp only [List.map_cons, List.cons_append, run, BinInput.answer, ih bin h]
    simp

/-- A tape that was read to a value began with the bins of a transcript. -/
theorem reaches_of_run {s : BinTape} (h : (t.run s).result = .ok a) :
    ∃ trace, t.Reaches trace (t.run s).written a ∧
      s.bins = trace.map Prod.snd ++ (t.run s).state.bins := by
  induction t generalizing s with
  | done b =>
    obtain rfl : b = a := by simpa [run] using h
    exact ⟨[], ⟨rfl, rfl, rfl⟩, rfl⟩
  | refuse => simp [run] at h
  | fault => simp [run] at h
  | write item rest ih =>
    obtain ⟨trace, hreaches, hbins⟩ := ih h
    exact ⟨trace, ⟨_, rfl, hreaches⟩, hbins⟩
  | ask request next ih =>
    obtain ⟨_ | ⟨bin, bins⟩, requests⟩ := s
    · simp [run, BinInput.answer] at h
    · obtain ⟨trace, hreaches, hbins⟩ := ih bin h
      exact ⟨(request, bin) :: trace, ⟨bin, trace, rfl, hreaches⟩, congrArg (bin :: ·) hbins⟩

/-- **A tape is read to a value exactly along a transcript of the value**,
and what is left is what followed its bins. -/
theorem run_ofList_iff {bins rest : List Bool} :
    (t.run (BinTape.ofList bins)).result = .ok a ∧
        (t.run (BinTape.ofList bins)).written = items ∧
        (t.run (BinTape.ofList bins)).state.bins = rest ↔
      ∃ trace, t.Reaches trace items a ∧ bins = trace.map Prod.snd ++ rest := by
  constructor
  · rintro ⟨hresult, rfl, rfl⟩
    exact reaches_of_run hresult
  · rintro ⟨trace, hreaches, rfl⟩
    have hrun := run_of_reaches hreaches rest #[]
    rw [BinTape.ofList, hrun]
    exact ⟨rfl, rfl, rfl⟩

end BinTree

end AvsEntropy
