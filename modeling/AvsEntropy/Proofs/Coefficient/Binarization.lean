import AvsEntropy.Proofs.Coefficient.Transcript

/-!
# The code of a coefficient block

`Block.code` writes a list of coefficients as bins, without any scan: a
magnitude in unary, a sign and a run in unary, a bin between one
coefficient and the next, and one at the end unless the block is full.
Reading a block is the inverse of writing it (`run_read_iff`): the lists
that have a code are those of magnitudes in range that fit the block, and
what follows a code is not touched.

The proof compares `code` with the transcript of the block. Past the first
coefficient the two agree bin for bin (`map_snd_transcriptFrom`), since
from then on the peak is positive and every coefficient is preceded by a
bin.
-/

namespace AvsEntropy

/-- The bins of a coefficient: its magnitude, less one, in unary, its sign,
and its run in unary. -/
def Coefficient.code (c : Coefficient) : List Bool :=
  List.replicate (c.level.natAbs - 1) false ++ [true] ++ [decide (c.level < 0)] ++
    List.replicate c.run false ++ [true]

namespace Block

open BinTree

/-- The positions that coefficients take, with the runs before them. -/
def span (pairs : List Coefficient) : ℕ := (pairs.map fun c => c.run + 1).sum

/-- The bins of a block. -/
def code : List Coefficient → List Bool
  | [] => []
  | c :: cs => c.code ++ cs.flatMap (fun c => false :: c.code) ++
      if span (c :: cs) < 64 then [true] else []

/-- The coefficients that a block can have: at least one, of magnitudes in
range, and not more than there are positions for. -/
structure HasCode (pairs : List Coefficient) : Prop where
  ne_nil : pairs ≠ []
  one_le : ∀ c ∈ pairs, 1 ≤ c.level.natAbs
  le_max : ∀ c ∈ pairs, c.level.natAbs ≤ 2048
  span_le : span pairs ≤ 64

/-- The scan that coefficients end with: the positions they take, the
largest magnitude and its tier, and the last. -/
def scanOf (pairs : List Coefficient) : Scan where
  position := span pairs
  peak := (pairs.map fun c => c.level.natAbs).foldr max 0
  tier := Scan.tierOf ((pairs.map fun c => c.level.natAbs).foldr max 0)
  level := (pairs.getLast?.map fun c => c.level.natAbs).getD 0

variable {plane : Plane} {scan : Scan} {c : Coefficient} {cs : List Coefficient}

theorem span_cons (c : Coefficient) (cs : List Coefficient) :
    span (c :: cs) = c.run + 1 + span cs := by
  unfold span
  rw [List.map_cons, List.sum_cons]

/-- What a coefficient adds to the position it takes from the span. -/
theorem position_advance_add_span :
    (scan.advance c).position + span cs = scan.position + span (c :: cs) := by
  rw [span_cons]
  show scan.position + c.run + 1 + span cs = _
  omega

/-! ## The bins of the transcript -/

theorem map_snd_coefficientTranscript :
    (coefficientTranscript plane scan c).map Prod.snd = c.code := by
  simp only [coefficientTranscript, List.map_append, map_snd_unaryTranscript, Coefficient.code,
    Nat.sub_zero, Bool.not_true, List.map_cons, List.map_nil, List.append_assoc]

/-- Where the peak is positive, an end of block is one bin. -/
theorem map_snd_endTranscript (hpeak : 0 < scan.peak) (ended : Bool) :
    (endTranscript plane scan ended).map Prod.snd = [ended] := by
  rw [endTranscript, if_pos hpeak]
  rfl

/-- **After the first coefficient the transcript is the code**, bin for
bin. -/
theorem map_snd_transcriptFrom {pairs : List Coefficient} (hpeak : 0 < scan.peak)
    (h : Continues scan pairs) :
    (transcriptFrom plane scan pairs).map Prod.snd =
      pairs.flatMap (fun c => false :: c.code) ++
        if scan.position + span pairs < 64 then [true] else [] := by
  induction pairs generalizing scan with
  | nil =>
    rw [transcriptFrom, scanLength, List.flatMap_nil, List.nil_append, span, List.map_nil,
      List.sum_nil, Nat.add_zero]
    split
    · exact map_snd_endTranscript hpeak true
    · rfl
  | cons c cs ih =>
    obtain ⟨-, hc, hcs⟩ := h
    have hnext := ih (Scan.peak_advance_pos hc.one_le) hcs
    rw [position_advance_add_span] at hnext
    rw [transcriptFrom, List.map_append, List.map_append, map_snd_endTranscript hpeak,
      map_snd_coefficientTranscript, hnext, List.flatMap_cons]
    simp only [List.cons_append, List.nil_append, List.append_assoc]

/-- From the start, the first coefficient has no bin before it. -/
theorem map_snd_transcriptFrom_initial {pairs : List Coefficient}
    (h : Continues .initial pairs) :
    (transcriptFrom plane .initial pairs).map Prod.snd = code pairs := by
  cases pairs with
  | nil => exact absurd h (by rintro (h | h) <;> exact absurd h (by decide))
  | cons c cs =>
    obtain ⟨-, hc, hcs⟩ := h
    have hnext : (transcriptFrom plane (Scan.initial.advance c) cs).map Prod.snd = _ :=
      map_snd_transcriptFrom (Scan.peak_advance_pos hc.one_le) hcs
    have hstart : Scan.initial.position + span (c :: cs) = span (c :: cs) := Nat.zero_add _
    rw [position_advance_add_span, hstart] at hnext
    -- nothing is asked before the first coefficient
    have hfirst : endTranscript plane .initial false = [] := rfl
    rw [transcriptFrom, hfirst, List.nil_append, List.map_append, map_snd_coefficientTranscript,
      hnext, code, List.append_assoc]

/-! ## Which lists have a code -/

/-- A coefficient that is allowed is in range, and leaves a scan inside
the block. -/
theorem continues_cons_iff :
    Continues scan (c :: cs) ↔
      (1 ≤ c.level.natAbs ∧ c.level.natAbs ≤ 2048) ∧ (scan.advance c).position ≤ 64 ∧
        Continues (scan.advance c) cs := by
  have hadvance : (scan.advance c).position = scan.position + c.run + 1 := rfl
  have hmaxRun : scan.maxRun = 63 - scan.position := rfl
  rw [hadvance]
  constructor
  · rintro ⟨hlt, ⟨hone, hmax, hrun⟩, hcs⟩
    rw [scanLength] at hlt
    exact ⟨⟨hone, hmax⟩, by omega, hcs⟩
  · rintro ⟨⟨hone, hmax⟩, hposition, hcs⟩
    exact ⟨by rw [scanLength]; omega, ⟨hone, hmax, by omega⟩, hcs⟩

/-- **A block goes on with whatever still fits**, and ends when it has
begun. -/
theorem continues_iff {pairs : List Coefficient} (hbegun : 0 < scan.peak ∨ pairs ≠ [])
    (hposition : scan.position ≤ 64) :
    Continues scan pairs ↔
      (∀ c ∈ pairs, 1 ≤ c.level.natAbs) ∧ (∀ c ∈ pairs, c.level.natAbs ≤ 2048) ∧
        scan.position + span pairs ≤ 64 := by
  induction pairs generalizing scan with
  | nil =>
    constructor
    · exact fun _ => ⟨fun _ h => absurd h List.not_mem_nil, fun _ h => absurd h List.not_mem_nil,
        hposition⟩
    · exact fun _ => .inl (hbegun.resolve_right fun h => h rfl)
  | cons c cs ih =>
    have hspan : (scan.advance c).position + span cs = scan.position + span (c :: cs) :=
      position_advance_add_span
    rw [continues_cons_iff, List.forall_mem_cons, List.forall_mem_cons, ← hspan]
    constructor
    · rintro ⟨⟨hone, hmax⟩, hnext, hcs⟩
      have hpeak : 0 < (scan.advance c).peak := Scan.peak_advance_pos hone
      obtain ⟨hones, hmaxs, hfits⟩ := (ih (.inl hpeak) hnext).1 hcs
      exact ⟨⟨hone, hones⟩, ⟨hmax, hmaxs⟩, hfits⟩
    · rintro ⟨⟨hone, hones⟩, ⟨hmax, hmaxs⟩, hfits⟩
      have hpeak : 0 < (scan.advance c).peak := Scan.peak_advance_pos hone
      have hnext : (scan.advance c).position ≤ 64 := le_trans (Nat.le_add_right _ _) hfits
      exact ⟨⟨hone, hmax⟩, hnext, (ih (.inl hpeak) hnext).2 ⟨hones, hmaxs, hfits⟩⟩

/-- From the start: at least one coefficient, and no more than fit. -/
theorem continues_initial_iff {pairs : List Coefficient} :
    Continues .initial pairs ↔ HasCode pairs := by
  have hstart : Scan.initial.position + span pairs = span pairs := Nat.zero_add _
  constructor
  · intro h
    have hne : pairs ≠ [] := by
      rintro rfl
      rcases h with h | h <;> exact absurd h (by decide)
    obtain ⟨hone, hmax, hspan⟩ := (continues_iff (.inr hne) (Nat.zero_le _)).1 h
    rw [hstart] at hspan
    exact ⟨hne, hone, hmax, hspan⟩
  · rintro ⟨hne, hone, hmax, hspan⟩
    refine (continues_iff (.inr hne) (Nat.zero_le _)).2 ⟨hone, hmax, ?_⟩
    rwa [hstart]

/-! ## Where the scan ends -/

/-- Coefficient by coefficient, the scan counts the positions, keeps the
largest magnitude and replaces the last. That its tier is right to begin with is
all there is to say of a scan that does not advance. -/
theorem foldl_advance (h : scan.Tiered) (pairs : List Coefficient) :
    pairs.foldl Scan.advance scan =
      ⟨scan.position + span pairs, max scan.peak ((pairs.map fun c => c.level.natAbs).foldr max 0),
        Scan.tierOf (max scan.peak ((pairs.map fun c => c.level.natAbs).foldr max 0)),
        (pairs.getLast?.map fun c => c.level.natAbs).getD scan.level⟩ := by
  induction pairs generalizing scan with
  | nil =>
    have htier : Scan.tierOf scan.peak = scan.tier := h.symm
    simp [span, htier]
  | cons c cs ih =>
    have hlast : ((c :: cs).getLast?.map fun c => c.level.natAbs).getD scan.level =
        (cs.getLast?.map fun c => c.level.natAbs).getD (scan.advance c).level := by
      cases cs with
      | nil => rfl
      | cons d ds =>
        rw [List.getLast?_cons_cons, List.getLast?_eq_some_getLast (List.cons_ne_nil d ds)]
        rfl
    rw [List.foldl_cons, ih (scan.tiered_advance c), span_cons, hlast]
    simp only [Scan.advance, List.map_cons, List.foldr_cons, max_assoc, Nat.add_assoc]

theorem foldl_advance_initial (pairs : List Coefficient) :
    pairs.foldl Scan.advance .initial = scanOf pairs := by
  rw [foldl_advance Scan.tiered_initial, scanOf]
  simp [Scan.initial]

theorem scanOf_concat (pairs : List Coefficient) (c : Coefficient) :
    (scanOf pairs).advance c = scanOf (pairs ++ [c]) := by
  rw [← foldl_advance_initial, ← foldl_advance_initial, List.foldl_append]
  rfl

/-- The peak is positive as soon as there is a coefficient. -/
theorem peak_scanOf_pos {pairs : List Coefficient} (hne : pairs ≠ [])
    (hone : ∀ c ∈ pairs, 1 ≤ c.level.natAbs) : 0 < (scanOf pairs).peak := by
  cases pairs with
  | nil => exact absurd rfl hne
  | cons c cs => exact lt_of_lt_of_le (hone c List.mem_cons_self) (le_max_left _ _)

/-- **Reading a block is the inverse of writing it.** A tape is read to a
scan, with coefficients written and bins left, exactly if it holds the
code of those coefficients in front of those bins, and the scan is
theirs, with the tier of its largest magnitude. -/
theorem run_read_iff {bins rest : List Bool} {pairs : List Coefficient} {final : Scan} :
    ((read plane).run (BinTape.ofList bins)).result = .ok final ∧
        ((read plane).run (BinTape.ofList bins)).written = pairs ∧
        ((read plane).run (BinTape.ofList bins)).state.bins = rest ↔
      HasCode pairs ∧ bins = code pairs ++ rest ∧ final = scanOf pairs ∧
        final.tier = Scan.tierOf final.peak := by
  rw [run_ofList_iff, read]
  simp only [reaches_readFrom, continues_initial_iff]
  constructor
  · rintro ⟨_, ⟨hcode, rfl, rfl⟩, rfl⟩
    rw [map_snd_transcriptFrom_initial (continues_initial_iff.2 hcode)]
    exact ⟨hcode, rfl, foldl_advance_initial pairs, Scan.tiered_initial.foldl_advance pairs⟩
  · rintro ⟨hcode, rfl, rfl, -⟩
    refine ⟨_, ⟨hcode, rfl, (foldl_advance_initial pairs).symm⟩, ?_⟩
    rw [map_snd_transcriptFrom_initial (continues_initial_iff.2 hcode)]

end Block

end AvsEntropy
