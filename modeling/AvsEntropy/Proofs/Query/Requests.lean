import AvsEntropy.Proofs.Coefficient.Requests
import AvsEntropy.Proofs.Macroblock.Requests
import AvsEntropy.Query

/-!
# What a query asks for

`Query.Admissible` is what a caller owes: contexts that exist, limits
that fit their words, flags without meaningless bits for a reference
index, and a motion vector difference named by one of its two elements.
Everything else about a query is free. An admissible query asks only for
what a table of contexts can answer, never faults, and its answer fits
its words.

For its requests alone less is owed: a query is `Answerable` unless it is a
bin of a context that does not exist.
-/

namespace AvsEntropy

/-- An answer whose numbers fit 32 bits, signed or not. -/
def Answer.Fits : Answer → Prop
  | .flag _ => True
  | .number n => -2147483648 ≤ n ∧ n < 4294967296
  | .motion v => v.x.natAbs ≤ Macroblock.maxMotion ∧ v.y.natAbs ≤ Macroblock.maxMotion
  | .scan s => s.Fits

namespace Query

open BinTree Macroblock

/-- The arguments are such as a caller must give. -/
def Admissible : Query → Prop
  | .bin request => request.Admissible
  | .skipRun limit => limit + 1 < wordBound
  | .referenceIndex neighbors limit => neighbors.truncate = neighbors ∧ limit < wordBound
  | .motionDifference element _ => element.axis?.isSome = true
  | _ => True

instance : DecidablePred Admissible
  | .bin request => inferInstanceAs (Decidable request.Admissible)
  | .skipRun limit => inferInstanceAs (Decidable (limit + 1 < wordBound))
  | .referenceIndex neighbors limit =>
    inferInstanceAs (Decidable (neighbors.truncate = neighbors ∧ limit < wordBound))
  | .motionDifference element _ => inferInstanceAs (Decidable (element.axis?.isSome = true))
  | .bypassBits _ | .macroblockType .. | .partitionType | .lumaMode | .chromaMode _
  | .motionVector .. | .codedBlocks .. | .quantizerDelta _ | .weighting | .block _ =>
    .isTrue trivial

/-- A number that fits a word. -/
theorem fits_number {n : ℕ} (h : n < wordBound) : (Answer.number n).Fits := by
  unfold wordBound at h
  exact ⟨by omega, by omega⟩

/-- **A count of an element**: its requests are the element's, and a bound
below that of words makes it fit. -/
theorem within_counted {e : Element} {t : BinTree Coefficient ℕ} {bound : ℕ}
    (ht : t.Within (BinRequest.OwnedBy e) (· ≤ bound)) (hbound : bound < wordBound) :
    (counted t).Within BinRequest.Admissible Answer.Fits := by
  refine (ht.mono (fun _ h => h.admissible) fun _ h => h).map fun n hn => ?_
  exact fits_number (lt_of_le_of_lt hn hbound)

/-- **An admissible query asks for what a table can answer.** -/
theorem within_tree {q : Query} (h : q.Admissible) :
    q.tree.Within BinRequest.Admissible Answer.Fits := by
  cases q with
  | bin request => exact Within.map (within_ask.2 ⟨h, fun _ => trivial⟩) fun _ _ => trivial
  | bypassBits count =>
    have hpow : 2 ^ min count 32 ≤ wordBound :=
      Nat.pow_le_pow_right (by decide) (min_le_right count 32)
    exact (within_bypassBits count trivial).map fun n hn => fits_number (lt_of_lt_of_le hn hpow)
  | skipRun limit => exact within_counted (within_skipRun h) (Nat.lt_of_succ_lt h)
  | macroblockType slice neighbors =>
    refine within_counted (within_type slice neighbors) ?_
    cases slice <;> decide
  | partitionType => exact within_counted within_partitionType (by decide)
  | lumaMode => exact within_counted within_lumaMode (by decide)
  | chromaMode neighbors => exact within_counted (within_chromaMode neighbors) (by decide)
  | referenceIndex neighbors limit => exact within_counted (within_referenceIndex h.1 limit) h.2
  | motionDifference element step =>
    obtain ⟨axis, haxis⟩ := Option.isSome_iff_exists.1 h
    rw [tree, motionDifferenceOf_eq haxis]
    refine ((within_motionDifference axis step).mono (fun _ h => h.admissible)
      fun _ h => h).map fun n hn => ?_
    unfold maxMotion at hn
    exact ⟨by omega, by omega⟩
  | motionVector stepX stepY =>
    -- the contexts of one component and of the other, all of them in the table
    refine ((within_motionVector stepX stepY).mono (fun request h => ?_) fun _ h => h).map
      fun _ h => h
    obtain ⟨axis, howned⟩ := h
    exact howned.admissible
  | codedBlocks left top format =>
    exact within_counted (within_codedBlocks left top format) (by decide)
  | quantizerDelta changed =>
    refine ((within_quantizerDelta changed).mono (fun _ h => h.admissible)
      fun _ h => h).map fun n hn => ?_
    exact ⟨by omega, by omega⟩
  | weighting =>
    exact (within_weighting.mono (fun _ h => h.admissible) fun _ h => h).map fun _ _ => trivial
  | block plane =>
    exact ((Block.within_read plane).mono (fun _ h => h.ownedBy.admissible) fun _ h => h).map
      fun _ h => h

/-! ## Requests alone -/

/-- A bin is of contexts that exist. Every syntax element sees to that
itself. -/
def Answerable : Query → Prop
  | .bin request => request.Admissible
  | _ => True

instance : DecidablePred Answerable
  | .bin request => inferInstanceAs (Decidable request.Admissible)
  | .bypassBits _ | .skipRun _ | .macroblockType .. | .partitionType | .lumaMode | .chromaMode _
  | .referenceIndex .. | .motionDifference .. | .motionVector .. | .codedBlocks ..
  | .quantizerDelta _ | .weighting | .block _ => .isTrue trivial

/-- A byte of flags is a step to a context in the table, if not one of the
element. -/
theorem asks_referenceIndex (neighbors : Neighbors) (limit : ℕ) :
    (Macroblock.referenceIndex neighbors limit : BinTree Coefficient ℕ).Asks
      BinRequest.Admissible := by
  have hweight : neighbors.weight < 256 := neighbors.word.toNat_lt
  refine (within_truncatedUnary (P := BinRequest.Admissible) fun count _ => ?_).asks
  simp only [BinRequest.Admissible, Element.start, contextCount]
  split
  · omega
  · split <;> omega

/-- **A syntax element asks for what a table can answer**, whatever its
arguments are. -/
theorem asks_tree {q : Query} (h : q.Answerable) : q.tree.Asks BinRequest.Admissible := by
  by_cases hq : q.Admissible
  · exact (within_tree hq).asks
  · cases q with
    | bin request => exact absurd h hq
    | skipRun limit => exact ((asks_skipRun limit).mono fun _ h => h.admissible).map _
    | referenceIndex neighbors limit => exact (asks_referenceIndex neighbors limit).map _
    | motionDifference element step =>
      have haxis : element.axis? = none := by simpa [Admissible] using hq
      rw [tree, motionDifferenceOf_eq_fault haxis]
      trivial
    | _ => exact absurd trivial hq

end Query

end AvsEntropy
