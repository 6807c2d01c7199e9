import AvsEntropy.Proofs.Range.Accounting
import AvsEntropy.Proofs.Range.Depth

/-!
# Runs without a renewal

A decision that is answered as predicted takes the range down by its width
and does nothing else. A run of such decisions is therefore a single cut, as
deep as their widths together, and the order they come in is of no account.

Where the range lies against the value decides everything. A run is answered
as predicted until its widths have taken the range down to the value, and the
decision that does so is the first to depart (`Sound.first_departs_iff`). One
state is apart: the value that a decoder starts with may lie no deeper than the
range, and then the first decision departs, whatever its width. A run of no
decisions is as predicted also there (`empty_run_at_value`).
-/

namespace AvsEntropy

namespace Registers

variable {r : Registers} {width : ℕ}

/-- The registers with the range at a depth. -/
def atDepth (r : Registers) (depth : ℕ) : Registers :=
  { r with rangeScale := depth / 256, rangeRest := 255 - depth % 256 }

@[simp] theorem rangeDepth_atDepth (r : Registers) (depth : ℕ) :
    (r.atDepth depth).rangeDepth = depth := by
  unfold rangeDepth atDepth
  dsimp only
  omega

@[simp] theorem valueDepth_atDepth (r : Registers) (depth : ℕ) :
    (r.atDepth depth).valueDepth = r.valueDepth := rfl

/-- Registers are where their depth says. -/
theorem atDepth_rangeDepth (hr : r.rangeRest < 256) : r.atDepth r.rangeDepth = r := by
  obtain ⟨scale, rest, _, _⟩ := r
  simp only [atDepth, rangeDepth, mk.injEq, and_true]
  dsimp only at hr
  omega

/-- **A cut takes the range down by its width**, and changes nothing else. -/
theorem narrow_split (hr : r.rangeRest < 256) (hw : 1 ≤ width) (hw' : width ≤ 256) :
    r.narrow (r.split width) = r.atDepth (r.rangeDepth + width) := by
  have hdepth := rangeDepth_narrow r (r.split width)
  rw [depth_split hr hw'] at hdepth
  rw [← hdepth]
  exact (atDepth_rangeDepth (split_rest_lt hr hw)).symm

end Registers

/-- How much the decisions of a run cut off together. -/
def totalWidth (qs : List Decision) : ℕ := (qs.map Decision.width).sum

@[simp] theorem totalWidth_nil : totalWidth [] = 0 := rfl

@[simp] theorem totalWidth_cons (q : Decision) (qs : List Decision) :
    totalWidth (q :: qs) = q.width + totalWidth qs := rfl

/-- One decision more cuts off its width more. -/
theorem totalWidth_take_succ {qs : List Decision} {k : ℕ} (hk : k < qs.length) :
    totalWidth (qs.take (k + 1)) = totalWidth (qs.take k) + qs[k].width := by
  rw [totalWidth, ← List.take_append_getElem hk, List.map_append, List.sum_append_nat]
  rfl

theorem totalWidth_perm {qs qs' : List Decision} (h : qs'.Perm qs) :
    totalWidth qs' = totalWidth qs :=
  (h.map Decision.width).sum_nat

namespace RangeDecoder

open BitInput

variable {σ : Type}

/-- The decoder with its range at a depth. -/
def atDepth (d : RangeDecoder σ) (depth : ℕ) : RangeDecoder σ :=
  ⟨d.source, d.registers.atDepth depth⟩

@[simp] theorem rangeDepth_atDepth (d : RangeDecoder σ) (depth : ℕ) :
    (d.atDepth depth).registers.rangeDepth = depth :=
  Registers.rangeDepth_atDepth d.registers depth

@[simp] theorem valueDepth_atDepth (d : RangeDecoder σ) (depth : ℕ) :
    (d.atDepth depth).registers.valueDepth = d.registers.valueDepth :=
  Registers.valueDepth_atDepth d.registers depth

@[simp] theorem atDepth_atDepth (d : RangeDecoder σ) (depth depth' : ℕ) :
    (d.atDepth depth).atDepth depth' = d.atDepth depth' := rfl

variable [BitInput σ] {d : RangeDecoder σ} {q : Decision} {qs : List Decision}

/-- A decoder that decisions, failed ones among them, have led to since it
was started on a source. -/
def Reached (source : σ) (d : RangeDecoder σ) : Prop :=
  ∃ start s before, ofSource source = .ok start s ∧ d = start.afterAll before

theorem Reached.sound {source : σ} (hlen : (pending source).length < wordBound)
    (h : Reached source d) : d.Sound := by
  obtain ⟨start, s, before, hopen, rfl⟩ := h
  exact (Sound.of_ofSource hlen hopen).afterAll before

/-- Every decision of a run is answered as predicted. -/
def AsPredicted (qs : List Decision) (d : RangeDecoder σ) : Prop :=
  (trail qs d).map Prod.fst = qs.map fun q => .ok q.predicted

/-- A decision finds the value outside the range that it predicts. It is then
answered against the prediction, if the bits do not run out. -/
def Departs (q : Decision) (d : RangeDecoder σ) : Prop :=
  ¬ d.registers.isBelow (d.registers.split q.width) = true ∧
    ((outcome q d).1 = .ok !q.predicted ∨ (outcome q d).1 = .error (.failed .endOfStream))

/-! ## One decision -/

/-- **A decision stays inside the range** that it takes down where that
stays above the value. -/
theorem Sound.outcome_narrow (hd : d.Sound) (hq : q.InRange)
    (h : d.registers.rangeDepth + q.width < d.registers.valueDepth) :
    outcome q d = (.ok q.predicted, d.atDepth (d.registers.rangeDepth + q.width)) := by
  have hr := hd.registers
  have hw := hq.width_bounds
  have hb := (Registers.isBelow_split_iff hr hw.1 (by omega)).2 h
  rcases hd.decide_cases hq with ⟨-, hok⟩ | ⟨hnot, -⟩
  · unfold outcome
    rw [hok, Registers.narrow_split hr.rangeRest_lt hw.1 (by omega)]
    rfl
  · exact absurd hb hnot

/-- And departs where it does not. -/
theorem Sound.departs_iff (hd : d.Sound) (hq : q.InRange) :
    Departs q d ↔ d.registers.valueDepth ≤ d.registers.rangeDepth + q.width := by
  have hw := hq.width_bounds
  have hbelow := Registers.isBelow_split_iff hd.registers hw.1 (by omega)
  constructor
  · rintro ⟨hnot, -⟩
    rw [hbelow] at hnot
    omega
  · intro h
    have hnot : ¬ d.registers.isBelow (d.registers.split q.width) = true := by
      rw [hbelow]
      omega
    refine ⟨hnot, ?_⟩
    unfold outcome
    rcases hd.decide_cases hq with ⟨hb, -⟩ | ⟨-, ⟨_, _, _, _, -, -, hok⟩ | ⟨_, -, he⟩⟩
    · exact absurd hb hnot
    · rw [hok]
      exact .inl rfl
    · rw [he]
      exact .inr rfl

/-- A decision is answered as predicted where its range stays above the
value. -/
theorem Sound.outcome_fst_iff (hd : d.Sound) (hq : q.InRange) :
    (outcome q d).1 = .ok q.predicted ↔
      d.registers.rangeDepth + q.width < d.registers.valueDepth := by
  constructor
  · intro hpredicted
    by_contra hnot
    rcases ((hd.departs_iff hq).2 (by omega)).2 with h | h <;> rw [hpredicted] at h
    · exact Bool.not_ne_self _ (Except.ok.inj h).symm
    · cases h
  · intro h
    rw [hd.outcome_narrow hq h]

/-- And a range that stays above the value is one to go on from. -/
theorem Sound.atDepth (hd : d.Sound) (hq : q.InRange)
    (h : d.registers.rangeDepth + q.width < d.registers.valueDepth) :
    (d.atDepth (d.registers.rangeDepth + q.width)).Sound := by
  have hafter := hd.after q
  rwa [hd.outcome_narrow hq h] at hafter

/-! ## A run of decisions -/

theorem asPredicted_nil (d : RangeDecoder σ) : AsPredicted [] d := rfl

/-- A run as predicted begins as predicted. -/
theorem AsPredicted.take (h : AsPredicted qs d) (n : ℕ) : AsPredicted (qs.take n) d := by
  unfold AsPredicted at h ⊢
  rw [trail_take, List.map_take, List.map_take, h]

/-- A run is as predicted where its first decision is and the others are from
there on. -/
theorem Sound.asPredicted_cons_iff (hd : d.Sound) (hq : q.InRange) :
    AsPredicted (q :: qs) d ↔ d.registers.rangeDepth + q.width < d.registers.valueDepth ∧
      AsPredicted qs (d.atDepth (d.registers.rangeDepth + q.width)) := by
  unfold AsPredicted
  rw [trail, List.map_cons, List.map_cons, List.cons.injEq, hd.outcome_fst_iff hq]
  refine and_congr_right fun h => ?_
  rw [hd.outcome_narrow hq h]

/-- **A run is one cut.** It is answered as predicted where a range taken
down by all its widths stays above the value. -/
theorem Sound.asPredicted_iff (hd : d.Sound) (hqs : ∀ q ∈ qs, q.InRange) :
    AsPredicted qs d ↔
      qs = [] ∨ d.registers.rangeDepth + totalWidth qs < d.registers.valueDepth := by
  induction qs generalizing d with
  | nil => exact ⟨fun _ => .inl rfl, fun _ => asPredicted_nil d⟩
  | cons q qs ih =>
    have hq := hqs q List.mem_cons_self
    have hrest := fun q' hq' => hqs q' (List.mem_cons_of_mem _ hq')
    rw [hd.asPredicted_cons_iff hq, totalWidth_cons, ← Nat.add_assoc]
    constructor
    · rintro ⟨hfirst, hothers⟩
      refine .inr ?_
      rcases (ih (hd.atDepth hq hfirst) hrest).1 hothers with rfl | hdeep
      · exact hfirst
      · rwa [rangeDepth_atDepth, valueDepth_atDepth] at hdeep
    · rintro (hnil | hdeep)
      · cases hnil
      · have hfirst : d.registers.rangeDepth + q.width < d.registers.valueDepth := by omega
        refine ⟨hfirst, (ih (hd.atDepth hq hfirst) hrest).2 (.inr ?_)⟩
        rwa [rangeDepth_atDepth, valueDepth_atDepth]

/-- **A run as predicted takes the range down** by all its widths, and
changes nothing else. -/
theorem Sound.afterAll_of_asPredicted (hd : d.Sound) (hqs : ∀ q ∈ qs, q.InRange)
    (h : AsPredicted qs d) :
    d.afterAll qs = d.atDepth (d.registers.rangeDepth + totalWidth qs) := by
  induction qs generalizing d with
  | nil =>
    rw [afterAll_nil, totalWidth_nil, Nat.add_zero, RangeDecoder.atDepth,
      Registers.atDepth_rangeDepth hd.registers.rangeRest_lt]
  | cons q qs ih =>
    have hq := hqs q List.mem_cons_self
    obtain ⟨hfirst, hothers⟩ := (hd.asPredicted_cons_iff hq).1 h
    rw [afterAll_cons, hd.outcome_narrow hq hfirst,
      ih (hd.atDepth hq hfirst) (fun q' hq' => hqs q' (List.mem_cons_of_mem _ hq')) hothers,
      rangeDepth_atDepth, atDepth_atDepth, totalWidth_cons, Nat.add_assoc]

/-- **A run departs at the decision that takes the range down to the
value.** -/
theorem Sound.first_departs_iff (hd : d.Sound) (hqs : ∀ q ∈ qs, q.InRange) {k : ℕ}
    (hk : k < qs.length) :
    AsPredicted (qs.take k) d ∧ Departs qs[k] (d.afterAll (qs.take k)) ↔
      (∀ n < k, d.registers.rangeDepth + totalWidth (qs.take (n + 1)) < d.registers.valueDepth) ∧
        d.registers.valueDepth ≤ d.registers.rangeDepth + totalWidth (qs.take (k + 1)) := by
  have htake (n : ℕ) : ∀ q ∈ qs.take n, q.InRange := fun q hq => hqs q (List.mem_of_mem_take hq)
  -- what comes before is as predicted exactly where each of its beginnings is
  have hbefore : AsPredicted (qs.take k) d ↔
      ∀ n < k, d.registers.rangeDepth + totalWidth (qs.take (n + 1)) < d.registers.valueDepth := by
    constructor
    · intro h n hn
      have hpart := h.take (n + 1)
      rw [List.take_take, Nat.min_eq_left hn] at hpart
      rcases (hd.asPredicted_iff (htake (n + 1))).1 hpart with hnil | hdeep
      · have hlen := congrArg List.length hnil
        rw [List.length_take, List.length_nil] at hlen
        omega
      · exact hdeep
    · intro h
      refine (hd.asPredicted_iff (htake k)).2 ?_
      cases k with
      | zero => exact .inl rfl
      | succ k => exact .inr (h k (Nat.lt_succ_self k))
  rw [← hbefore]
  refine and_congr_right fun h => ?_
  rw [(hd.afterAll (qs.take k)).departs_iff (hqs _ (List.getElem_mem hk)),
    hd.afterAll_of_asPredicted (htake k) h, totalWidth_take_succ hk, ← Nat.add_assoc,
    rangeDepth_atDepth, valueDepth_atDepth]

/-- **Runs as predicted add up.** Whatever has led to a decoder, a run of
decisions, if it has any, is answered as predicted if and only if the value
lies deeper than the range and all the widths together; the range is then
deeper by the widths, and the value and the source are as they were. So the
order of the decisions makes no difference, and the first to take the range
down to the value is the first to depart. -/
theorem predicted_run_iff_depth {source : σ} (hlen : (pending source).length < wordBound)
    (hreached : Reached source d) (hqs : ∀ q ∈ qs, q.InRange) :
    (AsPredicted qs d ↔
      qs = [] ∨ d.registers.rangeDepth + totalWidth qs < d.registers.valueDepth) ∧
    (AsPredicted qs d →
      (d.afterAll qs).registers.rangeDepth = d.registers.rangeDepth + totalWidth qs ∧
      (d.afterAll qs).registers.valueScale = d.registers.valueScale ∧
      (d.afterAll qs).registers.valueRest = d.registers.valueRest ∧
      (d.afterAll qs).source = d.source) ∧
    (∀ qs', qs'.Perm qs → (AsPredicted qs' d ↔ AsPredicted qs d) ∧
      (AsPredicted qs d → d.afterAll qs' = d.afterAll qs)) ∧
    ∀ k (hk : k < qs.length),
      (AsPredicted (qs.take k) d ∧ Departs qs[k] (d.afterAll (qs.take k)) ↔
        (∀ n < k,
          d.registers.rangeDepth + totalWidth (qs.take (n + 1)) < d.registers.valueDepth) ∧
        d.registers.valueDepth ≤ d.registers.rangeDepth + totalWidth (qs.take (k + 1))) := by
  have hd := hreached.sound hlen
  refine ⟨hd.asPredicted_iff hqs, fun h => ?_, fun qs' hperm => ?_,
    fun k hk => hd.first_departs_iff hqs hk⟩
  · rw [hd.afterAll_of_asPredicted hqs h]
    exact ⟨Registers.rangeDepth_atDepth _ _, rfl, rfl, rfl⟩
  · have hqs' : ∀ q ∈ qs', q.InRange := fun q hq => hqs q (hperm.mem_iff.1 hq)
    have hsame : AsPredicted qs' d ↔ AsPredicted qs d := by
      rw [hd.asPredicted_iff hqs', hd.asPredicted_iff hqs, totalWidth_perm hperm]
      refine or_congr_left ⟨?_, ?_⟩
      · rintro rfl
        exact hperm.symm.eq_nil
      · rintro rfl
        exact hperm.eq_nil
    refine ⟨hsame, fun h => ?_⟩
    rw [hd.afterAll_of_asPredicted hqs' (hsame.2 h), hd.afterAll_of_asPredicted hqs h,
      totalWidth_perm hperm]

/-- A run after a decision that was refused. Its first decision is as
predicted, and its second departs. -/
theorem predicted_run_iff_depth_two :
    let source := ByteCursor.ofBytes #[0x7F, 0xFF, 0xFF]
    let d : RangeDecoder ByteCursor := ⟨source.advance 10 (by decide), ⟨0, 255, 1, 255⟩⟩
    let qs : List Decision := [.bin true 400, .bypass]
    (pending source).length < wordBound ∧ Reached source d ∧ (∀ q ∈ qs, q.InRange) ∧
      d.registers.rangeDepth = 0 ∧ totalWidth (qs.take 1) = 100 ∧ totalWidth qs = 355 ∧
      d.registers.valueDepth = 256 ∧
      AsPredicted (qs.take 1) d ∧ Departs (.bypass) (d.afterAll (qs.take 1)) ∧
      ¬ AsPredicted qs d := by
  intro source d qs
  have hlen : (pending source).length < wordBound := by decide
  have hqs : ∀ q ∈ qs, q.InRange := by decide
  have hopen : ofSource source = .ok d d.source := by decide +kernel
  have hrefused : d = d.afterAll [.bin false 2] := by decide +kernel
  have hreached : Reached source d := ⟨d, d.source, [.bin false 2], hopen, hrefused⟩
  obtain ⟨hrun, -, -, hfirst⟩ := predicted_run_iff_depth hlen hreached hqs
  obtain ⟨hone, htwo⟩ := (hfirst 1 (by decide)).2 (by decide)
  refine ⟨hlen, hreached, hqs, rfl, rfl, rfl, rfl, hone, htwo, ?_⟩
  rw [hrun]
  decide

/-- **A run without decisions departs from nothing**, though the range may have
come down to the value before it: a code of ones starts with its range and its
value at the same depth. -/
theorem empty_run_at_value :
    let source := ByteCursor.ofBytes #[255, 255, 255, 255]
    let d : RangeDecoder ByteCursor := ⟨source.advance 9 (by decide), ⟨0, 255, 0, 255⟩⟩
    (pending source).length < wordBound ∧ Reached source d ∧
      d.registers.rangeDepth = 0 ∧ d.registers.valueDepth = 0 ∧
      ¬ (AsPredicted [] d ↔
        d.registers.rangeDepth + totalWidth [] < d.registers.valueDepth) := by
  intro source d
  have hlen : (pending source).length < wordBound := by decide
  have hopen : ofSource source = .ok d d.source := by decide +kernel
  refine ⟨hlen, ⟨d, d.source, [], hopen, rfl⟩, rfl, rfl, fun h => ?_⟩
  exact absurd (h.1 (asPredicted_nil d)) (by decide)

end RangeDecoder

end AvsEntropy
