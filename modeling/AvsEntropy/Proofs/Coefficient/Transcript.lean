import AvsEntropy.Coefficient.Block
import AvsEntropy.Proofs.Bin.Codes
import AvsEntropy.Proofs.Bin.Transcript
import AvsEntropy.Proofs.Coefficient.Scan

/-!
# The transcript of a coefficient block

A block that was read to its end has one transcript, and the coefficients
it wrote determine it: which bins answered, and also which contexts they
were asked of. `transcriptFrom` is that transcript, from any scan on;
`Continues` says which lists of coefficients can follow a scan.

The induction is on the loop of `Block.readFrom` with the scan
generalized. An end of block can only be read where the peak is positive,
which is why an empty list cannot follow the initial scan.
-/

namespace AvsEntropy

namespace Block

open BinTree

variable {ω : Type} {trace : Transcript} {plane : Plane} {scan : Scan}

/-- The bin that tells whether the block ends; before the first
coefficient there is none. -/
def endTranscript (plane : Plane) (scan : Scan) (ended : Bool) : Transcript :=
  let start := (Element.coefficients plane).start
  if 0 < scan.peak then
    [(.blended (scan.endByTier start) (scan.endByPosition start), ended)]
  else []

/-- The bins of a coefficient: its magnitude, its sign and its run. -/
def coefficientTranscript (plane : Plane) (scan : Scan) (c : Coefficient) : Transcript :=
  let start := (Element.coefficients plane).start
  unaryTranscript true (fun count => .symbol (scan.levelContext start count)) 1 c.level.natAbs ++
    [(.bypass, decide (c.level < 0))] ++
    unaryTranscript true (fun count => .symbol (scan.runContext start c.level.natAbs count)) 0 c.run

/-- The bins of the coefficients from a scan on, to the end of the block. -/
def transcriptFrom (plane : Plane) : Scan → List Coefficient → Transcript
  | scan, [] => if scan.position < scanLength then endTranscript plane scan true else []
  | scan, c :: cs =>
    endTranscript plane scan false ++ coefficientTranscript plane scan c ++
      transcriptFrom plane (scan.advance c) cs

/-- Coefficients after which the block can end. -/
def Continues : Scan → List Coefficient → Prop
  | scan, [] => 0 < scan.peak ∨ scanLength ≤ scan.position
  | scan, c :: cs => scan.position < scanLength ∧ scan.Allows c ∧ Continues (scan.advance c) cs

theorem reaches_ends {items : List ω} {ended : Bool} :
    (ends plane scan : BinTree ω Bool).Reaches trace items ended ↔
      items = [] ∧ trace = endTranscript plane scan ended ∧ (ended = true → 0 < scan.peak) := by
  rw [ends_eq, endTranscript]
  by_cases hpeak : 0 < scan.peak
  · rw [if_pos hpeak, if_pos hpeak, blended, reaches_ask_done]
    constructor
    · rintro ⟨rfl, rfl⟩
      exact ⟨rfl, rfl, fun _ => hpeak⟩
    · rintro ⟨rfl, rfl, -⟩
      exact ⟨rfl, rfl⟩
  · rw [if_neg hpeak, if_neg hpeak, reaches_pure]
    constructor
    · rintro ⟨rfl, rfl, rfl⟩
      exact ⟨rfl, rfl, fun h => absurd h Bool.false_ne_true⟩
    · rintro ⟨rfl, rfl, h⟩
      exact ⟨rfl, rfl, Bool.eq_false_iff.2 fun hended => hpeak (h hended)⟩

/-- **A coefficient has one transcript.** -/
theorem reaches_coefficient {items : List ω} {c : Coefficient}
    (hposition : scan.position < scanLength) :
    (coefficient plane scan : BinTree ω Coefficient).Reaches trace items c ↔
      items = [] ∧ scan.Allows c ∧ trace = coefficientTranscript plane scan c := by
  simp only [coefficient_eq plane hposition, reaches_bind, bypass, reaches_ask_done, reaches_pure,
    reaches_require, signed?_eq_some, reaches_unary (by decide : 1 ≤ maxLevel),
    reaches_unary (Nat.zero_le scan.maxRun)]
  constructor
  · rintro ⟨_, _, _, _, level, rfl, rfl, ⟨hone, hmax, rfl, rfl⟩, _, _, _, _, negative, rfl, rfl,
      ⟨rfl, rfl⟩, _, _, _, _, run, rfl, rfl, ⟨-, hrun, rfl, rfl⟩, _, _, _, _, _, rfl, rfl,
      ⟨rfl, rfl, -, rfl⟩, rfl, rfl, rfl⟩
    have habs := natAbs_signed negative level
    refine ⟨rfl, ⟨by rwa [habs], by rwa [habs], hrun⟩, ?_⟩
    simp only [coefficientTranscript, habs, decide_signed_lt_zero negative hone, List.append_nil,
      List.append_assoc]
  · rintro ⟨rfl, ⟨hone, hmax, hrun⟩, rfl⟩
    refine ⟨_, _, [], [], c.level.natAbs, List.append_assoc .., rfl, ⟨hone, hmax, rfl, rfl⟩, _, _,
      [], [], decide (c.level < 0), rfl, rfl, ⟨rfl, rfl⟩, _, [], [], [], c.run,
      (List.append_nil _).symm, rfl, ⟨Nat.zero_le _, hrun, rfl, rfl⟩, [], [], [], [], c.level, rfl,
      rfl, ⟨rfl, rfl, Nat.lt_of_le_of_lt hmax (by decide), signed_natAbs c.level⟩, rfl, rfl, rfl⟩

/-- **What the loop does where there is room**: the block ends there, or a
coefficient is read and the loop goes on from the next scan. -/
theorem reaches_readFrom_of_lt {pairs : List Coefficient} {final : Scan}
    (hposition : scan.position < scanLength) :
    (readFrom plane scan).Reaches trace pairs final ↔
      (0 < scan.peak ∧ trace = endTranscript plane scan true ∧ pairs = [] ∧ final = scan) ∨
      ∃ c cs rest, scan.Allows c ∧ pairs = c :: cs ∧
        trace = endTranscript plane scan false ++ (coefficientTranscript plane scan c ++ rest) ∧
        (readFrom plane (scan.advance c)).Reaches rest cs final := by
  -- the next scan of every coefficient that is allowed
  have hnext {c : Coefficient} (hc : scan.Allows c) := Scan.advance?_eq hposition hc
  rw [readFrom_of_lt hposition, reaches_bind]
  simp only [reaches_ends]
  constructor
  · rintro ⟨_, trace₂, _, items₂, ended, rfl, rfl, ⟨rfl, rfl, hended⟩, h⟩
    cases ended with
    | true =>
      rw [if_pos rfl, reaches_pure] at h
      obtain ⟨rfl, rfl, rfl⟩ := h
      exact .inl ⟨hended rfl, List.append_nil _, rfl, rfl⟩
    | false =>
      rw [if_neg Bool.false_ne_true, reaches_bind] at h
      obtain ⟨_, rest, _, _, c, rfl, rfl, hc, cs, rfl, hrest⟩ := h
      obtain ⟨rfl, hallows, rfl⟩ := (reaches_coefficient hposition).1 hc
      rw [hnext hallows, require_some_bind] at hrest
      exact .inr ⟨c, cs, rest, hallows, rfl, rfl, hrest⟩
  · rintro (⟨hpeak, rfl, rfl, rfl⟩ | ⟨c, cs, rest, hallows, rfl, rfl, hrest⟩)
    · refine ⟨_, [], [], [], true, (List.append_nil _).symm, rfl, ⟨rfl, rfl, fun _ => hpeak⟩, ?_⟩
      rw [if_pos rfl]
      exact ⟨rfl, rfl, rfl⟩
    · refine ⟨_, coefficientTranscript plane scan c ++ rest, [], c :: cs, false, rfl, rfl,
        ⟨rfl, rfl, fun h => absurd h Bool.false_ne_true⟩, ?_⟩
      rw [if_neg Bool.false_ne_true, reaches_bind]
      refine ⟨_, rest, [], c :: cs, c, rfl, rfl,
        (reaches_coefficient hposition).2 ⟨rfl, hallows, rfl⟩, cs, rfl, ?_⟩
      rw [hnext hallows, require_some_bind]
      exact hrest

/-- **A block is read along the transcript of its coefficients**, which it
writes, and its scan advances by each of them. -/
theorem reaches_readFrom {pairs : List Coefficient} {final : Scan} :
    (readFrom plane scan).Reaches trace pairs final ↔
      Continues scan pairs ∧ trace = transcriptFrom plane scan pairs ∧
        final = pairs.foldl Scan.advance scan := by
  induction scan using readFrom.induct generalizing trace pairs with
  | case1 scan hfull =>
    rw [readFrom_of_le hfull, reaches_pure]
    constructor
    · rintro ⟨rfl, rfl, rfl⟩
      exact ⟨.inr hfull, by rw [transcriptFrom, if_neg (by omega)], rfl⟩
    · rintro ⟨hcont, rfl, rfl⟩
      cases pairs with
      | nil => exact ⟨by rw [transcriptFrom, if_neg (by omega)], rfl, rfl⟩
      | cons c cs => exact absurd hcont.1 (by omega)
  | case2 scan hroom ih =>
    have hposition : scan.position < scanLength := Nat.lt_of_not_le hroom
    have hrest {c : Coefficient} (hc : scan.Allows c) (rest : Transcript) (cs : List Coefficient) :
        (readFrom plane (scan.advance c)).Reaches rest cs final ↔
          Continues (scan.advance c) cs ∧ rest = transcriptFrom plane (scan.advance c) cs ∧
            final = cs.foldl Scan.advance (scan.advance c) :=
      ih c _ (Scan.advance?_eq hposition hc)
    rw [reaches_readFrom_of_lt hposition]
    constructor
    · rintro (⟨hpeak, rfl, rfl, rfl⟩ | ⟨c, cs, rest, hallows, rfl, rfl, h⟩)
      · exact ⟨.inl hpeak, by rw [transcriptFrom, if_pos hposition], rfl⟩
      · obtain ⟨hcont, rfl, rfl⟩ := (hrest hallows _ _).1 h
        exact ⟨⟨hposition, hallows, hcont⟩, by rw [transcriptFrom, List.append_assoc], rfl⟩
    · rintro ⟨hcont, rfl, rfl⟩
      cases pairs with
      | nil =>
        refine .inl ⟨hcont.resolve_right hroom, ?_, rfl, rfl⟩
        rw [transcriptFrom, if_pos hposition]
      | cons c cs =>
        obtain ⟨-, hallows, hcont⟩ := hcont
        refine .inr ⟨c, cs, _, hallows, rfl, ?_, (hrest hallows _ _).2 ⟨hcont, rfl, rfl⟩⟩
        rw [transcriptFrom, List.append_assoc]

end Block

end AvsEntropy
