import AvsEntropy.Proofs.Coefficient.Roles
import AvsEntropy.Proofs.Query.Flags
import AvsEntropy.Proofs.Query.Requests

/-!
# Elements keep to their contexts

Whatever the answers are and however a reading ends, the requests of a query
are for contexts of the element that is being decoded at the time, and no
context belongs to two elements. Of the arguments only the flags matter: they
must have no unknown bits. Limits, steps and the patterns of the neighbours
are free.

A motion vector is two elements, one after the other, so the requests of a
query come in as many parts as it has elements (`asked_isolated`). Inside a
plane of coefficients the contexts are kept apart once more, by their roles.
-/

namespace AvsEntropy

namespace Query

open BinTree BinRequest

/-- The syntax elements that a query decodes, one after the other. Bins by
themselves belong to none. -/
def elements : Query → List Element
  | .bin _ | .bypassBits _ => []
  | .skipRun _ => [.skipRun]
  | .macroblockType .. => [.macroblockType]
  | .partitionType => [.partitionType]
  | .lumaMode => [.lumaMode]
  | .chromaMode _ => [.chromaMode]
  | .referenceIndex .. => [.referenceIndex]
  | .motionDifference element _ => [element]
  | .motionVector .. => [.motion .x, .motion .y]
  | .codedBlocks .. => [.codedBlocks]
  | .quantizerDelta _ => [.quantizerDelta]
  | .weighting => [.weighting]
  | .block plane => [.coefficients plane]

variable {σ : Type} [BinInput σ] {q : Query} {e : Element}

/-- A component of a motion vector difference keeps to its element; of an
element that has no axis nothing is asked for. -/
theorem asks_motionDifference (element : Element) (step : ℕ) :
    (Query.motionDifference element step).tree.Asks (OwnedBy element) := by
  rw [tree]
  cases element with
  | motion axis => exact (Macroblock.within_motionDifference axis step).asks.map _
  | _ =>
    rw [Macroblock.motionDifferenceOf_eq_fault rfl]
    trivial

/-- **A query of one element keeps to its contexts.** -/
theorem asks_of_elements (he : q.elements = [e]) (hflags : q.truncate = q) :
    q.tree.Asks (OwnedBy e) := by
  cases q with
  | bin request => cases he
  | bypassBits count => cases he
  | skipRun limit =>
    cases he
    exact (Macroblock.asks_skipRun limit).map _
  | macroblockType slice neighbors =>
    cases he
    exact (Macroblock.within_type slice neighbors).asks.map _
  | partitionType =>
    cases he
    exact Macroblock.within_partitionType.asks.map _
  | lumaMode =>
    cases he
    exact Macroblock.within_lumaMode.asks.map _
  | chromaMode neighbors =>
    cases he
    exact (Macroblock.within_chromaMode neighbors).asks.map _
  | referenceIndex neighbors limit =>
    cases he
    have hknown : neighbors.truncate = neighbors := by
      injection hflags
    exact (Macroblock.within_referenceIndex hknown limit).asks.map _
  | motionDifference element step =>
    cases he
    exact asks_motionDifference _ step
  | motionVector stepX stepY => cases he
  | codedBlocks left top format =>
    cases he
    exact (Macroblock.within_codedBlocks left top format).asks.map _
  | quantizerDelta changed =>
    cases he
    exact (Macroblock.within_quantizerDelta changed).asks.map _
  | weighting =>
    cases he
    exact Macroblock.within_weighting.asks.map _
  | block plane =>
    cases he
    exact ((Block.within_read plane).asks.mono fun _ h => h.ownedBy).map _

/-- **A motion vector is read component by component**: what is asked for the
first one is of its contexts, and so it is with the second one. -/
theorem asked_motionVector (stepX stepY : ℕ) (s : σ) :
    ∃ asked₁ asked₂, (Query.motionVector stepX stepY).tree.asked s = asked₁ ++ asked₂ ∧
      (∀ request ∈ asked₁, OwnedBy (.motion .x) request) ∧
      ∀ request ∈ asked₂, OwnedBy (.motion .y) request := by
  rw [tree, asked_map, Macroblock.motionVector, asked_bind]
  refine ⟨_, _, rfl, fun request h => ?_, fun request h => ?_⟩
  · exact (Macroblock.within_motionDifference .x stepX).asks.of_mem_asked h
  · split at h
    · rename_i x _
      have hy : (Macroblock.motionDifference .y stepY >>= fun y => pure ⟨x, y⟩ :
          BinTree Coefficient Macroblock.MotionVector).Within (OwnedBy (.motion .y))
            fun _ => True :=
        (Macroblock.within_motionDifference .y stepY).bind fun _ _ => trivial
      exact hy.asks.of_mem_asked h
    · exact absurd h List.not_mem_nil

/-- **Every element keeps to its contexts, and they are its own.** The
requests of a query come in as many parts as it has elements, and each part
is for contexts of its element, where the two contexts of a request are
different. No context has two owners. The requests of a block are moreover for
the roles of their phases, which the bins before them tell, and no context has
two roles. -/
theorem asked_isolated (hq : q.elements ≠ []) (hflags : q.truncate = q) (s : σ) :
    (∃ parts : List (List BinRequest), q.tree.asked s = parts.flatten ∧
      List.Forall₂ (fun e part => ∀ request ∈ part, OwnedBy e request) q.elements parts) ∧
    (∀ (e f : Element) (context : ℕ), e.Owns context → f.Owns context → e = f) ∧
    (∀ plane, q = .block plane → ∀ k request, (q.tree.asked s)[k]? = some request →
      Block.Phase.Allows (Element.coefficients plane).start
        (Block.Phase.after (((q.tree.heard s).map Prod.snd).take k)) request) ∧
    ∀ (role role' : Block.Role) (start context : ℕ),
      role.Has start context → role'.Has start context → role = role' := by
  refine ⟨?_, fun _ _ _ he hf => he.unique hf, ?_, fun _ _ _ _ h h' => h.unique h'⟩
  · -- one element is one part
    have hone {e : Element} (he : q.elements = [e]) : ∃ parts : List (List BinRequest),
        q.tree.asked s = parts.flatten ∧
          List.Forall₂ (fun e part => ∀ request ∈ part, OwnedBy e request) q.elements parts := by
      refine ⟨[q.tree.asked s], (List.flatten_singleton).symm, ?_⟩
      rw [he]
      exact .cons (fun _ h => (asks_of_elements he hflags).of_mem_asked h) .nil
    cases q with
    | bin request => exact absurd rfl hq
    | bypassBits count => exact absurd rfl hq
    | motionVector stepX stepY =>
      obtain ⟨asked₁, asked₂, hasked, hx, hy⟩ := asked_motionVector stepX stepY s
      refine ⟨[asked₁, asked₂], ?_, .cons hx (.cons hy .nil)⟩
      rw [hasked, List.flatten_cons, List.flatten_singleton]
    | _ => exact hone rfl
  · rintro plane rfl k request h
    rw [tree, asked_map] at h
    rw [tree, heard_map]
    exact Block.allows_asked_read h

/-- A reference index next to two that are positive, above the limit of
distinct contexts. -/
theorem asked_isolated_reference :
    let q : Query := .referenceIndex ⟨3⟩ 5
    let tape := BinTape.ofList [true, true, true, false]
    q.elements ≠ [] ∧ q.truncate = q ∧
      q.tree.asked tape = [.symbol 33, .symbol 34, .symbol 35, .symbol 35] ∧
      ∃ parts : List (List BinRequest), q.tree.asked tape = parts.flatten ∧
        List.Forall₂ (fun e part => ∀ request ∈ part, OwnedBy e request) [.referenceIndex]
          parts := by
  intro q tape
  have hq : q.elements ≠ [] := by decide
  have hflags : q.truncate = q := by decide
  exact ⟨hq, hflags, by decide, (asked_isolated hq hflags tape).1⟩

end Query

end AvsEntropy
