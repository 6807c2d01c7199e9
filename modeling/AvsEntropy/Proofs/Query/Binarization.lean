import AvsEntropy.Proofs.Macroblock.Binarization
import AvsEntropy.Query

/-!
# The codes of queries

`Query.code` is the table of the codes of all elements of a macroblock:
for a query and an answer the bins that stand for it, or nothing where the
answer is out of range. Reading a tape accepts exactly these codes
(`run_iff_code`), for every element and all its arguments: a tape that
begins with the code of an answer is read to that answer and no further,
and a tape that is read to an answer began with its code.
-/

namespace AvsEntropy

namespace Answer

/-- The answer as a flag. -/
def flag? : Answer → Option Bool
  | .flag value => some value
  | _ => none

/-- The answer as a count. -/
def count? : Answer → Option ℕ
  | .number (.ofNat n) => some n
  | _ => none

/-- The answer as a number. -/
def number? : Answer → Option ℤ
  | .number n => some n
  | _ => none

/-- The answer as a motion vector difference. -/
def motion? : Answer → Option Macroblock.MotionVector
  | .motion vector => some vector
  | _ => none

theorem flag?_eq_some_iff {a : Answer} {value : Bool} :
    a.flag? = some value ↔ a = .flag value := by
  cases a <;> simp [flag?]

theorem count?_eq_some_iff {a : Answer} {n : ℕ} : a.count? = some n ↔ a = .number n := by
  rcases a with flag | (n | n) | v | s <;> simp [count?]

theorem number?_eq_some_iff {a : Answer} {n : ℤ} : a.number? = some n ↔ a = .number n := by
  cases a <;> simp [number?]

theorem motion?_eq_some_iff {a : Answer} {v : Macroblock.MotionVector} :
    a.motion? = some v ↔ a = .motion v := by
  cases a <;> simp [motion?]

end Answer

namespace Query

open BinTree Macroblock

/-- An element of a macroblock, and not single bins or a block of
coefficients. -/
def OfMacroblock : Query → Prop
  | .bin _ | .bypassBits _ | .block _ => False
  | _ => True

instance : DecidablePred OfMacroblock
  | .bin _ | .bypassBits _ | .block _ => .isFalse not_false
  | .skipRun _ | .macroblockType .. | .partitionType | .lumaMode | .chromaMode _
  | .referenceIndex .. | .motionDifference .. | .motionVector .. | .codedBlocks ..
  | .quantizerDelta _ | .weighting => .isTrue trivial

section Row

variable {α : Type} (value? : Answer → Option α) (valid : α → Prop) [DecidablePred valid]
  (code : α → List Bool)

/-- A row of the table: the code of a value that is in range. -/
def row (a : Answer) : Option (List Bool) :=
  match value? a with
  | some value => if valid value then some (code value) else none
  | none => none

variable {value? valid code}

theorem row_eq_some_iff {bins : List Bool} {a : Answer} :
    row value? valid code a = some bins ↔
      ∃ value, value? a = some value ∧ valid value ∧ bins = code value := by
  rw [row]
  cases value? a with
  | none => simp
  | some value =>
    by_cases hvalid : valid value
    · simp [hvalid, eq_comm]
    · simp [hvalid]

end Row

/-- **The codes**: the bins of an answer, if it is in range. -/
def code : Query → Answer → Option (List Bool)
  | .skipRun limit => row Answer.count? (· ≤ limit) (unaryCode true)
  | .macroblockType slice _ => row Answer.count? (· ≤ typeBound slice) (typeCode slice)
  | .partitionType => row Answer.count? (· ≤ 3) (bitsOf 2)
  | .lumaMode => row Answer.count? (· ≤ 4) (truncatedCode true 4)
  | .chromaMode _ => row Answer.count? (· ≤ 3) (truncatedCode false 3)
  | .referenceIndex _ limit => row Answer.count? (· ≤ limit) (truncatedCode false limit)
  | .motionDifference (.motion _) _ => row Answer.number? (·.natAbs ≤ 262144) motionCode
  | .motionVector _ _ =>
    row Answer.motion? (fun v => v.x.natAbs ≤ 262144 ∧ v.y.natAbs ≤ 262144)
      fun v => motionCode v.x ++ motionCode v.y
  | .codedBlocks _ _ format =>
    row Answer.count? (· < 2 ^ patternBits format) (codedBlocksCode format)
  | .quantizerDelta _ => row Answer.number? (fun d => -32 ≤ d ∧ d ≤ 32) quantizerCode
  | .weighting => row Answer.flag? (fun _ => True) fun flag => [flag]
  | _ => fun _ => none

variable {bins : List Bool} {a : Answer}

/-- A tree whose values have their codes in a row of the table reads its
answers off the row. -/
theorem codes_map_iff_row {α : Type} {t : BinTree Coefficient α} {f : α → Answer}
    {value? : Answer → Option α} {valid : α → Prop} [DecidablePred valid] {code : α → List Bool}
    (hvalue : ∀ {a value}, value? a = some value ↔ a = f value)
    (ht : ∀ {value}, t.Codes bins value ↔ valid value ∧ bins = code value) :
    (f <$> t).Codes bins a ↔ row value? valid code a = some bins := by
  rw [codes_map, row_eq_some_iff]
  simp only [hvalue, ht]
  constructor
  · rintro ⟨value, ⟨hvalid, hbins⟩, ha⟩
    exact ⟨value, ha, hvalid, hbins⟩
  · rintro ⟨value, ha, hvalid, hbins⟩
    exact ⟨value, ⟨hvalid, hbins⟩, ha⟩

/-- **Every element of a macroblock is read off its row.** -/
theorem codes_tree_iff {q : Query} (hq : q.OfMacroblock) :
    q.tree.Codes bins a ↔ q.code a = some bins := by
  cases q with
  | bin request => exact hq.elim
  | bypassBits count => exact hq.elim
  | skipRun limit => exact codes_map_iff_row Answer.count?_eq_some_iff codes_skipRun
  | macroblockType slice neighbors =>
    exact codes_map_iff_row Answer.count?_eq_some_iff codes_type
  | partitionType => exact codes_map_iff_row Answer.count?_eq_some_iff codes_partitionType
  | lumaMode => exact codes_map_iff_row Answer.count?_eq_some_iff codes_lumaMode
  | chromaMode neighbors => exact codes_map_iff_row Answer.count?_eq_some_iff codes_chromaMode
  | referenceIndex neighbors limit =>
    exact codes_map_iff_row Answer.count?_eq_some_iff codes_referenceIndex
  | motionDifference element step =>
    cases element with
    | motion axis => exact codes_map_iff_row Answer.number?_eq_some_iff codes_motionDifference
    | _ =>
      -- the tree is a fault, and there is no row
      constructor
      · rintro ⟨_, _, h, _⟩
        exact h.elim
      · exact fun h => absurd h (Option.some_ne_none bins).symm
  | motionVector stepX stepY =>
    exact codes_map_iff_row Answer.motion?_eq_some_iff codes_motionVector
  | codedBlocks left top format =>
    exact codes_map_iff_row Answer.count?_eq_some_iff codes_codedBlocks
  | quantizerDelta changed =>
    exact codes_map_iff_row Answer.number?_eq_some_iff codes_quantizerDelta
  | weighting =>
    refine codes_map_iff_row Answer.flag?_eq_some_iff fun {flag} => ?_
    rw [codes_weighting, true_and]
  | block plane => exact hq.elim

/-- **Reading an element of a macroblock accepts exactly its codes.** A
tape is read to an answer, with bins left, if and only if it holds the
code of the answer in front of those bins. -/
theorem run_iff_code {q : Query} (hq : q.OfMacroblock) {rest : List Bool} :
    (q.run (BinTape.ofList bins)).result = .ok a ∧
        (q.run (BinTape.ofList bins)).state.bins = rest ↔
      ∃ code, q.code a = some code ∧ bins = code ++ rest := by
  rw [run, run_iff_codes]
  constructor
  · rintro ⟨code, hcode, rfl⟩
    exact ⟨code, (codes_tree_iff hq).1 hcode, rfl⟩
  · rintro ⟨code, hcode, rfl⟩
    exact ⟨code, (codes_tree_iff hq).2 hcode, rfl⟩

/-- The largest component of a motion vector difference, with its sign, in
front of two bins. -/
theorem run_iff_code_longest :
    let q : Query := .motionDifference (.motion .y) 1
    let bins := List.replicate 4 true ++ List.replicate 16 false ++ List.replicate 18 true ++
      [true, false]
    q.OfMacroblock ∧ (q.run (BinTape.ofList bins)).result = .ok (.number (-262144)) ∧
      (q.run (BinTape.ofList bins)).state.bins = [true, false] := by
  intro q bins
  have hq : q.OfMacroblock := trivial
  have hcode : q.code (.number (-262144)) = some (List.replicate 4 true ++
      List.replicate 16 false ++ List.replicate 18 true) := by decide +kernel
  exact ⟨hq, (run_iff_code hq).2 ⟨_, hcode, rfl⟩⟩

end Query

end AvsEntropy
