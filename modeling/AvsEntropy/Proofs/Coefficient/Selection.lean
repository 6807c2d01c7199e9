import AvsEntropy.Proofs.Bin.Watching
import AvsEntropy.Proofs.Coefficient.Binarization

/-!
# The contexts of a block, from its coefficients

Which contexts a block asks for is a function of the coefficients it writes,
and `requestsFrom` is that function, without any scan. For each coefficient
it looks at the list of those before it: at their largest magnitude, which
gives the tier, and at the positions that they take. `asked_read` says that a
block that is read to its end has made these requests and no others.

The induction is on the coefficients still to come, with those that came
before as a parameter. Their scan is `scanOf`, so nothing has to be said of
when a scan is advanced.
-/

namespace AvsEntropy

namespace Block

open BinTree

variable {plane : Plane} {start : ℕ} {before pairs : List Coefficient} {c : Coefficient}

/-- The tier of contexts after some coefficients, by their largest
magnitude. -/
def tierAfter (before : List Coefficient) : ℕ :=
  Scan.tierOf ((before.map fun c => c.level.natAbs).foldr max 0)

/-- What is asked for to see whether the block ends after some
coefficients. -/
def endRequest (start : ℕ) (before : List Coefficient) : BinRequest :=
  .blended (start + 3 * tierAfter before - 1) (start + 14 + span before / 2)

/-- What is asked for to read a coefficient after others: as many bins as its
magnitude, a sign, and one bin more than its run. The first bin of a
magnitude and of a run has a context of its own. -/
def coefficientRequests (start : ℕ) (before : List Coefficient) (c : Coefficient) :
    List BinRequest :=
  let level := start + 3 * tierAfter before
  let run := start + 46 + 4 * tierAfter before + if 1 < c.level.natAbs then 2 else 0
  (.symbol level :: List.replicate (c.level.natAbs - 1) (.symbol (level + 1))) ++ [.bypass] ++
    (.symbol run :: List.replicate c.run (.symbol (run + 1)))

/-- What is asked for to read the last of some coefficients, after those
before. Between two of them, and after them if there is room for more, it is
asked whether the block ends. -/
def requestsFrom (start : ℕ) (before : List Coefficient) : List Coefficient → List BinRequest
  | [] => if span before < 64 then [endRequest start before] else []
  | c :: cs => (if before = [] then [] else [endRequest start before]) ++
      coefficientRequests start before c ++ requestsFrom start (before ++ [c]) cs

/-! ## The requests of the transcript -/

/-- The tier that the scan has come to is that of the coefficients before. -/
theorem tier_scanOf (before : List Coefficient) : (scanOf before).tier = tierAfter before := by
  have htiered := Scan.tiered_initial.foldl_advance before
  rw [foldl_advance_initial] at htiered
  exact htiered

/-- The context of the position is that of its pair. -/
theorem endByPosition_eq (scan : Scan) (start : ℕ) :
    scan.endByPosition start = start + 14 + scan.position / 2 := by
  rw [Scan.endByPosition]
  omega

theorem map_fst_endTranscript (hne : before ≠ []) (hone : ∀ c ∈ before, 1 ≤ c.level.natAbs)
    (ended : Bool) :
    (endTranscript plane (scanOf before) ended).map Prod.fst =
      [endRequest (Element.coefficients plane).start before] := by
  rw [endTranscript, if_pos (peak_scanOf_pos hne hone), endByPosition_eq, Scan.endByTier,
    tier_scanOf]
  rfl

theorem map_fst_coefficientTranscript (before : List Coefficient) (hone : 1 ≤ c.level.natAbs) :
    (coefficientTranscript plane (scanOf before) c).map Prod.fst =
      coefficientRequests (Element.coefficients plane).start before c := by
  have hlevel (count : ℕ) (hcount : 1 < count) :
      BinRequest.symbol ((scanOf before).levelContext (Element.coefficients plane).start count) =
        .symbol ((Element.coefficients plane).start + 3 * tierAfter before + 1) := by
    rw [Scan.levelContext, if_pos hcount, tier_scanOf]
  have hrun (count : ℕ) (hcount : 0 < count) :
      BinRequest.symbol ((scanOf before).runContext (Element.coefficients plane).start
          c.level.natAbs count) =
        .symbol ((Element.coefficients plane).start + 46 + 4 * tierAfter before +
          (if 1 < c.level.natAbs then 2 else 0) + 1) := by
    rw [Scan.runContext, if_pos hcount, tier_scanOf]
  unfold coefficientTranscript coefficientRequests
  rw [List.map_append, List.map_append, map_fst_unaryTranscript hone hlevel,
    map_fst_unaryTranscript (Nat.zero_le _) hrun]
  rfl

/-- **The requests of a transcript are those of its coefficients.** -/
theorem map_fst_transcriptFrom (hone : ∀ c ∈ before, 1 ≤ c.level.natAbs)
    (h : Continues (scanOf before) pairs) :
    (transcriptFrom plane (scanOf before) pairs).map Prod.fst =
      requestsFrom (Element.coefficients plane).start before pairs := by
  induction pairs generalizing before with
  | nil =>
    have hposition : (scanOf before).position = span before := rfl
    rw [transcriptFrom, requestsFrom, scanLength, hposition]
    by_cases hspan : span before < 64
    · have hne : before ≠ [] := by
        rintro rfl
        exact absurd h (by rintro (h | h) <;> exact absurd h (by decide))
      rw [if_pos hspan, if_pos hspan, map_fst_endTranscript hne hone]
    · rw [if_neg hspan, if_neg hspan, List.map_nil]
  | cons c cs ih =>
    obtain ⟨-, hc, hcs⟩ := h
    have hones : ∀ d ∈ before ++ [c], 1 ≤ d.level.natAbs := by
      intro d hd
      rcases List.mem_append.1 hd with hd | hd
      · exact hone d hd
      · rw [List.mem_singleton.1 hd]
        exact hc.one_le
    have hend : (endTranscript plane (scanOf before) false).map Prod.fst =
        if before = [] then [] else [endRequest (Element.coefficients plane).start before] := by
      by_cases hne : before = []
      · rw [if_pos hne, hne]
        rfl
      · rw [if_neg hne, map_fst_endTranscript hne hone]
    rw [scanOf_concat] at hcs
    rw [transcriptFrom, requestsFrom, scanOf_concat, List.map_append, List.map_append, hend,
      map_fst_coefficientTranscript before hc.one_le, ih hones hcs]

/-- **The coefficients tell what was asked for.** On any source a block that
is read to its end has made the requests of the coefficients it wrote. -/
theorem asked_read {σ : Type} [BinInput σ] {s : σ} {final : Scan}
    (h : ((read plane).run s).result = .ok final) :
    (read plane).asked s =
      requestsFrom (Element.coefficients plane).start [] ((read plane).run s).written := by
  obtain ⟨hcont, htrace, -⟩ := reaches_readFrom.1 (reaches_heard h)
  have hnone : ∀ c ∈ ([] : List Coefficient), 1 ≤ c.level.natAbs :=
    fun _ hc => absurd hc List.not_mem_nil
  rw [asked_eq_of_ok h, read, htrace]
  exact map_fst_transcriptFrom hnone hcont

/-- A block of two coefficients, the second one larger, with its end. -/
theorem asked_read_two :
    let tape := BinTape.ofList
      [true, false, false, false, true, false, false, false, true, true, true, true]
    let o := (read ⟨.frame, .luma⟩).run tape
    o.result = .ok ⟨4, 3, 3, 3⟩ ∧ o.written = [⟨1, 2⟩, ⟨-3, 0⟩] ∧
      (read ⟨.frame, .luma⟩).asked tape = o.state.requests.toList ∧
      (read ⟨.frame, .luma⟩).asked tape = [.symbol 58, .bypass, .symbol 104, .symbol 105,
        .symbol 105, .blended 60 73, .symbol 61, .symbol 62, .symbol 62, .bypass, .symbol 110,
        .blended 66 74] := by
  intro tape o
  have hresult : o.result = .ok ⟨4, 3, 3, 3⟩ := by decide +kernel
  have hwritten : o.written = [⟨1, 2⟩, ⟨-3, 0⟩] := by decide +kernel
  have hasked := asked_read hresult
  rw [hwritten] at hasked
  exact ⟨hresult, hwritten, by decide +kernel, hasked⟩

end Block

end AvsEntropy
