import AvsEntropy.Proofs.Coefficient.Binarization
import Mathlib.Data.List.Induction

/-!
# How far a block has been read

The bins of a block, as far as they go, tell which coefficients are complete
and how far the next one is. `Progress` is that, and `Progress.next` reads one
bin more. No scan and no limit is involved, so every list of bins is some
progress (`progressOf`), also one that a block refuses.

Progress forgets nothing: `Progress.bins` gives the bins back
(`bins_progressOf`), and the coefficients that are complete stay so
(`pairs_next`). Hence a list of coefficients is complete exactly if its code
stands in front (`isPrefix_iff_complete`), without its last bin, which only a block
that ends there has.
-/

namespace AvsEntropy

namespace Block

variable {before : List Coefficient} {c : Coefficient}

/-- The bins of coefficients that are followed by another one. -/
def led (pairs : List Coefficient) : List Bool := pairs.flatMap fun c => c.code ++ [false]

theorem led_concat (pairs : List Coefficient) (c : Coefficient) :
    led (pairs ++ [c]) = led pairs ++ c.code ++ [false] := by
  rw [led, List.flatMap_append, List.flatMap_singleton, ← List.append_assoc]
  rfl

/-- The bins of coefficients begin with those of the first of them. -/
theorem isPrefix_led (h : pairs ++ [c] <+: before) : led pairs ++ c.code <+: led before := by
  obtain ⟨more, rfl⟩ := h
  have hsplit : led (pairs ++ [c] ++ more) = led (pairs ++ [c]) ++ led more := List.flatMap_append
  rw [hsplit, led_concat, List.append_assoc _ [false]]
  exact List.prefix_append _ _

/-- How far the bins of a block have been read. -/
inductive Progress where
  /-- In a magnitude, of which only zeros were read. -/
  | magnitude (before : List Coefficient) (zeros : ℕ)
  /-- Past a magnitude of one more than its zeros. -/
  | sign (before : List Coefficient) (zeros : ℕ)
  /-- In a run, of which again only zeros were read. -/
  | run (before : List Coefficient) (zeros : ℕ) (negative : Bool) (more : ℕ)
  /-- Past a coefficient. -/
  | complete (before : List Coefficient) (last : Coefficient)
  /-- Past the end of the block, and past other bins after it. -/
  | ended (before : List Coefficient) (last : Coefficient) (rest : List Bool)

namespace Progress

/-- Reads one bin more. -/
def next : Progress → Bool → Progress
  | .magnitude before zeros, bin =>
    if bin then .sign before zeros else .magnitude before (zeros + 1)
  | .sign before zeros, bin => .run before zeros bin 0
  | .run before zeros negative more, bin =>
    if bin then
      .complete before ⟨if negative then -((zeros + 1 : ℕ) : ℤ) else (zeros + 1 : ℕ), more⟩
    else .run before zeros negative (more + 1)
  | .complete before last, bin =>
    if bin then .ended before last [] else .magnitude (before ++ [last]) 0
  | .ended before last rest, bin => .ended before last (rest ++ [bin])

/-- The coefficients that are complete. -/
def pairs : Progress → List Coefficient
  | .magnitude before _ => before
  | .sign before _ => before
  | .run before _ _ _ => before
  | .complete before last => before ++ [last]
  | .ended before last _ => before ++ [last]

/-- The bins that were read. -/
def bins : Progress → List Bool
  | .magnitude before zeros => led before ++ List.replicate zeros false
  | .sign before zeros => led before ++ (List.replicate zeros false ++ [true])
  | .run before zeros negative more =>
    led before ++ (List.replicate zeros false ++ [true, negative] ++ List.replicate more false)
  | .complete before last => led before ++ last.code
  | .ended before last rest => led before ++ last.code ++ true :: rest

/-- **No bin is forgotten.** -/
theorem bins_next (p : Progress) (bin : Bool) : (p.next bin).bins = p.bins ++ [bin] := by
  cases p with
  | magnitude before zeros =>
    cases bin with
    | true => exact (List.append_assoc ..).symm
    | false =>
      show led before ++ List.replicate (zeros + 1) false = _
      rw [List.replicate_succ', ← List.append_assoc]
      rfl
  | sign before zeros =>
    show led before ++ (List.replicate zeros false ++ [true, bin] ++ []) = _
    simp only [bins, List.append_nil, List.append_assoc, List.cons_append, List.nil_append]
  | run before zeros negative more =>
    cases bin with
    | true =>
      show led before ++ Coefficient.code _ = _
      rw [Coefficient.code, natAbs_signed, decide_signed_lt_zero negative (Nat.le_add_left 1 zeros),
        Nat.add_sub_cancel]
      simp only [bins, List.append_assoc, List.cons_append, List.nil_append]
    | false =>
      show led before ++ (_ ++ List.replicate (more + 1) false) = _
      rw [List.replicate_succ']
      simp only [bins, List.append_assoc]
  | complete before last =>
    cases bin with
    | true => rfl
    | false =>
      show led (before ++ [last]) ++ [] = _
      rw [led_concat, List.append_nil]
      rfl
  | ended before last rest =>
    exact (List.append_assoc (led before ++ last.code) (true :: rest) [bin]).symm

/-- **What is complete stays complete.** -/
theorem pairs_next (p : Progress) (bin : Bool) : p.pairs <+: (p.next bin).pairs := by
  cases p with
  | magnitude before zeros => cases bin <;> exact List.prefix_rfl
  | sign before zeros => exact List.prefix_rfl
  | run before zeros negative more =>
    cases bin with
    | true => exact List.prefix_append _ _
    | false => exact List.prefix_rfl
  | complete before last => cases bin <;> exact List.prefix_rfl
  | ended before last rest => exact List.prefix_rfl

theorem bins_foldl (p : Progress) (more : List Bool) :
    (more.foldl next p).bins = p.bins ++ more := by
  induction more generalizing p with
  | nil => exact (List.append_nil _).symm
  | cons bin more ih => rw [List.foldl_cons, ih, bins_next, ← List.append_cons]

theorem pairs_foldl (p : Progress) (more : List Bool) :
    p.pairs <+: (more.foldl next p).pairs := by
  induction more generalizing p with
  | nil => exact List.prefix_rfl
  | cons bin more ih => exact (pairs_next p bin).trans (ih (p.next bin))

/-- The codes of the coefficients that are complete stand in front. -/
theorem isPrefix_bins {p : Progress} (h : before ++ [c] <+: p.pairs) :
    led before ++ c.code <+: p.bins := by
  -- the last coefficient need not be followed by another one
  have hlast {done : List Coefficient} {last : Coefficient}
      (h : before ++ [c] <+: done ++ [last]) : led before ++ c.code <+: led done ++ last.code := by
    rcases List.prefix_concat_iff.1 h with heq | h
    · obtain ⟨rfl, hlast⟩ := List.append_inj' heq rfl
      obtain rfl := List.singleton_inj.1 hlast
      exact List.prefix_rfl
    · exact (isPrefix_led h).trans (List.prefix_append _ _)
  cases p with
  | magnitude done zeros => exact (isPrefix_led h).trans (List.prefix_append _ _)
  | sign done zeros => exact (isPrefix_led h).trans (List.prefix_append _ _)
  | run done zeros negative more => exact (isPrefix_led h).trans (List.prefix_append _ _)
  | complete done last => exact hlast h
  | ended done last rest => exact (hlast h).trans (List.prefix_append _ _)

/-- Zeros of a magnitude are counted. -/
theorem foldl_next_magnitude (before : List Coefficient) (zeros count : ℕ) :
    (List.replicate count false).foldl next (.magnitude before zeros) =
      .magnitude before (zeros + count) := by
  induction count generalizing zeros with
  | zero => rfl
  | succ count ih =>
    rw [List.replicate_succ, List.foldl_cons]
    exact (ih (zeros + 1)).trans (by rw [Nat.add_right_comm, Nat.add_assoc])

/-- And so are those of a run. -/
theorem foldl_next_run (before : List Coefficient) (zeros : ℕ) (negative : Bool) (more count : ℕ) :
    (List.replicate count false).foldl next (.run before zeros negative more) =
      .run before zeros negative (more + count) := by
  induction count generalizing more with
  | zero => rfl
  | succ count ih =>
    rw [List.replicate_succ, List.foldl_cons]
    exact (ih (more + 1)).trans (by rw [Nat.add_right_comm, Nat.add_assoc])

/-- **A code is read to its coefficient.** -/
theorem foldl_next_code (before : List Coefficient) (hone : 1 ≤ c.level.natAbs) :
    c.code.foldl next (.magnitude before 0) = .complete before c := by
  have hlevel : (if decide (c.level < 0) then -((c.level.natAbs - 1 + 1 : ℕ) : ℤ)
      else (c.level.natAbs - 1 + 1 : ℕ)) = c.level := by
    rw [Nat.sub_add_cancel hone]
    exact signed_natAbs c.level
  simp only [Coefficient.code, List.foldl_append, foldl_next_magnitude, List.foldl_cons,
    List.foldl_nil, next, if_true, foldl_next_run, Nat.zero_add, hlevel]

end Progress

/-- How far the bins of a block go. -/
def progressOf (bins : List Bool) : Progress := bins.foldl Progress.next (.magnitude [] 0)

theorem bins_progressOf (bins : List Bool) : (progressOf bins).bins = bins :=
  Progress.bins_foldl _ bins

theorem progressOf_led {pairs : List Coefficient} (hone : ∀ c ∈ pairs, 1 ≤ c.level.natAbs) :
    progressOf (led pairs) = .magnitude pairs 0 := by
  induction pairs using List.reverseRecOn with
  | nil => rfl
  | append_singleton before c ih =>
    have hbefore := ih fun d hd => hone d (List.mem_append_left _ hd)
    have hc : 1 ≤ c.level.natAbs := hone c (List.mem_append_right _ (List.mem_singleton_self c))
    rw [progressOf] at hbefore ⊢
    rw [led_concat, List.foldl_append, List.foldl_append, hbefore,
      Progress.foldl_next_code before hc]
    rfl

/-- **Coefficients are complete exactly if their codes stand in front.** -/
theorem isPrefix_iff_complete {bins : List Bool} (hone : ∀ d ∈ before ++ [c], 1 ≤ d.level.natAbs) :
    led before ++ c.code <+: bins ↔ before ++ [c] <+: (progressOf bins).pairs := by
  constructor
  · rintro ⟨more, rfl⟩
    have hbefore : progressOf (led before) = _ :=
      progressOf_led fun d hd => hone d (List.mem_append_left _ hd)
    have hc : 1 ≤ c.level.natAbs := hone c (List.mem_append_right _ (List.mem_singleton_self c))
    rw [progressOf] at hbefore ⊢
    rw [List.foldl_append, List.foldl_append, hbefore, Progress.foldl_next_code before hc]
    exact Progress.pairs_foldl (.complete before c) more
  · intro h
    have hprefix := Progress.isPrefix_bins h
    rwa [bins_progressOf] at hprefix

end Block

end AvsEntropy
