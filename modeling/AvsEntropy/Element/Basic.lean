import AvsEntropy.Element.Plane

/-!
# Syntax elements and their contexts

Every syntax element owns a run of consecutive contexts in one table:
`start` is the first, `size` how many. The runs follow one another in
the order of `Element.all` and fill the table.
-/

namespace AvsEntropy

/-- The number of contexts in the table. -/
def contextCount : Nat := 323

/-- The direction of a motion vector component. -/
inductive Axis where
  /-- Horizontal. -/
  | x
  /-- Vertical. -/
  | y
  deriving DecidableEq, Repr

/-- A syntax element that is coded with contexts. -/
inductive Element where
  /-- The number of macroblocks skipped. -/
  | skipRun
  /-- The type of a macroblock. -/
  | macroblockType
  /-- The prediction of a quarter of a macroblock. -/
  | partitionType
  /-- The intra prediction mode of a luma block. -/
  | lumaMode
  /-- The intra prediction mode of the chroma blocks. -/
  | chromaMode
  /-- The index of a reference picture. -/
  | referenceIndex
  /-- The difference of a motion vector component from its prediction. -/
  | motion (axis : Axis)
  /-- Which blocks of a macroblock carry coefficients. -/
  | codedBlocks
  /-- The change of the quantizer. -/
  | quantizerDelta
  /-- The transform coefficients of a plane. -/
  | coefficients (plane : Plane)
  /-- Whether prediction is weighted. -/
  | weighting
  deriving DecidableEq, Repr

namespace Element

/-- The syntax elements in the order of their contexts. -/
def all : List Element :=
  [.skipRun, .macroblockType, .partitionType, .lumaMode, .chromaMode, .referenceIndex,
    .motion .x, .motion .y, .codedBlocks, .quantizerDelta] ++ Plane.all.map .coefficients ++
    [.weighting]

/-- The first context of an element. -/
def start : Element → Nat
  | .skipRun => 0
  | .macroblockType => 4
  | .partitionType => 19
  | .lumaMode => 22
  | .chromaMode => 26
  | .referenceIndex => 30
  | .motion .x => 36
  | .motion .y => 42
  | .codedBlocks => 48
  | .quantizerDelta => 54
  | .coefficients plane => 58 + 66 * plane.index
  | .weighting => 322

/-- The number of contexts of an element. -/
def size : Element → Nat
  | .skipRun => 4
  | .macroblockType => 15
  | .partitionType => 3
  | .lumaMode => 4
  | .chromaMode => 4
  | .referenceIndex => 6
  | .motion _ => 6
  | .codedBlocks => 6
  | .quantizerDelta => 4
  | .coefficients _ => 66
  | .weighting => 1

/-- The name of an element in messages. -/
def name : Element → String
  | .skipRun => "mb_skip_run"
  | .macroblockType => "mb_type"
  | .partitionType => "mb_part_type"
  | .lumaMode => "intra_luma_pred_mode"
  | .chromaMode => "intra_chroma_pred_mode"
  | .referenceIndex => "mb_reference_index"
  | .motion .x => "mv_diff_x"
  | .motion .y => "mv_diff_y"
  | .codedBlocks => "cbp"
  | .quantizerDelta => "mb_qp_delta"
  | .coefficients ⟨.frame, .luma⟩ => "trans_coefficient(frame_luma)"
  | .coefficients ⟨.frame, .chroma⟩ => "trans_coefficient(frame_chroma)"
  | .coefficients ⟨.field, .luma⟩ => "trans_coefficient(field_luma)"
  | .coefficients ⟨.field, .chroma⟩ => "trans_coefficient(field_chroma)"
  | .weighting => "weighting_prediction"

/-- The number of contexts of some elements together. -/
def sizeOf (elements : List Element) : Nat :=
  elements.foldl (fun total e => total + e.size) 0

/-- The runs of contexts fill the table. -/
theorem sizeOf_all : sizeOf all = contextCount := rfl

/-- Each run of contexts begins where those before it end. -/
theorem map_start : all.map start = (List.range all.length).map fun i => sizeOf (all.take i) :=
  rfl

end Element

end AvsEntropy
