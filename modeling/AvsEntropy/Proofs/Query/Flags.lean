import AvsEntropy.Proofs.Bin.Watching
import AvsEntropy.Proofs.Element.Ownership
import AvsEntropy.Query

/-!
# The bits of the flags that count

What is known of the neighbours comes as a byte in which two bits mean
something. `Query.truncate` clears the others. Counting the neighbours that
meet a condition looks at the two bits (`Neighbors.tally_truncate`), but
their weight is the whole byte (`Neighbors.eq_of_weight_eq`).

So the type of a macroblock and the chroma mode are read as if there were no
other bits. A reference index is not: the weight is the step to its first
context, and a bit without a meaning leads to a context of another element.
`asked_truncate_iff` says exactly when the other bits make no difference.
-/

namespace AvsEntropy

namespace Neighbors

variable (n : Neighbors)

theorem left_truncate : n.truncate.left = n.left := by
  rw [left, left, truncate, UInt8.and_assoc, show (3 : UInt8) &&& 1 = 1 from rfl]

theorem top_truncate : n.truncate.top = n.top := by
  rw [top, top, truncate, UInt8.and_assoc, show (3 : UInt8) &&& 2 = 2 from rfl]

/-- **The tally looks at the two known bits.** -/
theorem tally_truncate : n.truncate.tally = n.tally := by
  rw [tally, tally, left_truncate, top_truncate]

/-- **The weight looks at all bits**: it is the flags. -/
theorem eq_of_weight_eq {n n' : Neighbors} (h : n.weight = n'.weight) : n = n' := by
  obtain ⟨word⟩ := n
  obtain ⟨word'⟩ := n'
  exact congrArg Neighbors.mk (UInt8.toNat_inj.1 h)

end Neighbors

namespace Query

open BinTree

/-- A query with its flags cut down to the bits that mean something. -/
def truncate : Query → Query
  | .macroblockType slice neighbors => .macroblockType slice neighbors.truncate
  | .chromaMode neighbors => .chromaMode neighbors.truncate
  | .referenceIndex neighbors limit => .referenceIndex neighbors.truncate limit
  | q => q

variable {ω : Type} {q : Query}

theorem type_truncate (slice : Macroblock.SliceKind) (n : Neighbors) :
    (Macroblock.type slice n.truncate : BinTree ω ℕ) = Macroblock.type slice n := by
  cases slice with
  | p => rfl
  | b => rw [Macroblock.type, Macroblock.type, Macroblock.typeB, Macroblock.typeB, n.tally_truncate]

theorem chromaMode_truncate (n : Neighbors) :
    (Macroblock.chromaMode n.truncate : BinTree ω ℕ) = Macroblock.chromaMode n := by
  rw [Macroblock.chromaMode, Macroblock.chromaMode, n.tally_truncate]

/-- A reference index that may be positive is first looked up by the weight
of its flags. -/
theorem asked_referenceIndex {σ : Type} [BinInput σ] (n : Neighbors) (limit : ℕ) (s : σ) :
    ((Query.referenceIndex n (limit + 1)).tree.asked s).head? =
      some (.symbol (Element.referenceIndex.start + n.weight)) := by
  rw [tree, counted, asked_map, Macroblock.referenceIndex, truncatedUnary, truncatedUnaryFrom,
    asked]
  rfl

/-- **The unknown bits make no difference, except to a reference index.** On
any source a query with its flags cut down makes the same requests and comes
to the same end as without, if and only if it is not a reference index that
may be positive with an unknown bit among its flags. -/
theorem asked_truncate_iff {σ : Type} [BinInput σ] (q : Query) (s : σ) :
    q.truncate.tree.asked s = q.tree.asked s ∧ q.truncate.run s = q.run s ↔
      ∀ neighbors limit, q = .referenceIndex neighbors limit →
        limit = 0 ∨ neighbors.truncate = neighbors := by
  constructor
  · rintro ⟨hasked, -⟩ n limit rfl
    cases limit with
    | zero => exact .inl rfl
    | succ limit =>
      have hfirst := congrArg List.head? hasked
      rw [truncate, asked_referenceIndex, asked_referenceIndex] at hfirst
      simp only [Option.some.injEq, BinRequest.symbol.injEq, Nat.add_left_cancel_iff] at hfirst
      exact .inr (Neighbors.eq_of_weight_eq hfirst)
  · intro hknown
    have htree : q.truncate.tree = q.tree := by
      cases q with
      | macroblockType slice n => rw [truncate, tree, tree, type_truncate]
      | chromaMode n => rw [truncate, tree, tree, chromaMode_truncate]
      | referenceIndex n limit =>
        rcases hknown n limit rfl with rfl | hn
        · -- nothing is asked for, so no flag is looked at
          rfl
        · rw [truncate, hn]
      | _ => rfl
    rw [run, run, htree]
    exact ⟨rfl, rfl⟩

/-- With all bits set the first bin of a reference index is decided by a
context of the coefficients. -/
theorem unknown_flags_redirect :
    let q : Query := .referenceIndex ⟨255⟩ 3
    let tape := BinTape.ofList [false]
    ¬ (q.truncate.tree.asked tape = q.tree.asked tape ∧ q.truncate.run tape = q.run tape) ∧
      q.truncate.tree.asked tape = [.symbol 33] ∧ q.tree.asked tape = [.symbol 285] ∧
      (Element.coefficients ⟨.field, .chroma⟩).Owns 285 := by
  intro q tape
  have htruncated : q.truncate.tree.asked tape = [.symbol 33] := by decide
  have hasked : q.tree.asked tape = [.symbol 285] := by decide
  refine ⟨fun h => ?_, htruncated, hasked, by decide⟩
  have heq := h.1
  rw [htruncated, hasked] at heq
  exact absurd heq (by decide)

end Query

end AvsEntropy
