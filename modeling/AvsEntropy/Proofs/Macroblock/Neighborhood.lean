import AvsEntropy.Proofs.Bin.Watching
import AvsEntropy.Proofs.Macroblock.Binarization

/-!
# The neighbourhood of a block

The luma blocks of a macroblock, of the one to its left and of the one above
it lie on one grid (`codedAt`). The context of a luma bin is chosen there: by
the block to the left and the block above, each in whichever macroblock it
lies. A macroblock that is not there has zeros on the grid. The reader never
computes a place on the grid. It has the eight neighbours as constants, four of
them in the pattern it is about to read, and asks each macroblock whether it is
there (`isCoded_eq`).

`patternRequests` are the requests of a pattern by the grid, and
`codedBlocks_neighborhood` says that a pattern is read by these. So of the
patterns next to it four bits count and no others.
-/

namespace AvsEntropy

namespace Macroblock

open BinTree

variable {ω : Type} {left top : Option ℕ} {trace : Transcript} {items : List ω} {n : ℕ}

/-- Whether a block is coded, by its place on the grid of three macroblocks:
the current one has the columns and rows two and three, the left one the
columns before them, the upper one the rows above. All else is zero, and so is
a neighbour that is not there. -/
def codedAt (left top : Option ℕ) (current column row : ℕ) : Bool :=
  let pattern :=
    match column / 2, row / 2 with
    | 0, 1 => left.getD 0
    | 1, 0 => top.getD 0
    | 1, 1 => current
    | _, _ => 0
  pattern.testBit (2 * (row % 2) + column % 2)

/-- The request for the bin of a luma block: the block to the left counts one
and the block above counts two. -/
def lumaRequest (left top : Option ℕ) (pattern block : ℕ) : BinRequest :=
  let column := 2 + block % 2
  let row := 2 + block / 2
  .symbol (Element.codedBlocks.start +
    (codedAt left top pattern (column - 1) row).toNat +
    2 * (codedAt left top pattern column (row - 1)).toNat)

/-- The requests for the chroma blocks, as many as their code has bins. -/
def chromaRequests (chroma : ℕ) : List BinRequest :=
  .symbol (Element.codedBlocks.start + 4) ::
    List.replicate ((chromaCode chroma).length - 1) (.symbol (Element.codedBlocks.start + 5))

/-- The requests for the blocks that only the larger format has. -/
def extraRequests : ChromaFormat → List BinRequest
  | .yuv420 => []
  | .yuv422 => [.bypass, .bypass]

/-- The requests for a pattern, next to those of its neighbours. -/
def patternRequests (left top : Option ℕ) (format : ChromaFormat) (pattern : ℕ) :
    List BinRequest :=
  (List.range 4).map (lumaRequest left top pattern) ++ chromaRequests (pattern / 16 % 4) ++
    extraRequests format

/-! ## The parts of a pattern -/

/-- The left neighbour counts one and the upper one two. -/
theorem weight_ofConditions (left top : Bool) :
    (Neighbors.ofConditions left top).weight = left.toNat + 2 * top.toNat := by
  cases left <;> cases top <;> rfl

/-- **What the reader takes for coded is a bit on the grid**, also of a
neighbour that is not there. -/
theorem isCoded_eq (pattern : Option ℕ) (block : ℕ) :
    isCoded pattern block = (pattern.getD 0).testBit block := by
  cases pattern with
  | some pattern => rfl
  | none => exact (Nat.zero_testBit block).symm

/-- The four luma bits are the lowest ones of a pattern. -/
theorem testBit_luma (b₀ b₁ b₂ b₃ : Bool) (high : ℕ) :
    let pattern := b₀.toNat + 2 * b₁.toNat + 4 * b₂.toNat + 8 * b₃.toNat + 16 * high
    pattern.testBit 0 = b₀ ∧ pattern.testBit 1 = b₁ ∧ pattern.testBit 2 = b₂ := by
  intro pattern
  simp only [Nat.testBit_eq_decide_div_mod_eq, pattern]
  cases b₀ <;> cases b₁ <;> cases b₂ <;> cases b₃ <;>
    simp only [Bool.toNat_false, Bool.toNat_true, decide_eq_true_eq, decide_eq_false_iff_not] <;>
    omega

/-- The request for a luma bin between two blocks. -/
def between (left top : Bool) : BinRequest :=
  .symbol (Element.codedBlocks.start + (Neighbors.ofConditions left top).weight)

/-- The neighbours on the grid, written out. -/
theorem map_lumaRequest (left top : Option ℕ) (pattern : ℕ) :
    (List.range 4).map (lumaRequest left top pattern) =
      [between (isCoded left 1) (isCoded top 2), between (pattern.testBit 0) (isCoded top 3),
        between (isCoded left 3) (pattern.testBit 0),
        between (pattern.testBit 2) (pattern.testBit 1)] := by
  simp only [between, weight_ofConditions, isCoded_eq, ← Nat.add_assoc]
  rfl

/-- **The neighbours that the reader looks at are those on the grid.** -/
theorem requests_lumaPattern
    (h : (lumaPattern left top : BinTree ω ℕ).Reaches trace items n) (high : ℕ) :
    trace.map Prod.fst = (List.range 4).map (lumaRequest left top (n + 16 * high)) := by
  obtain ⟨b₀, _, rfl, b₁, _, rfl, b₂, _, rfl, b₃, _, rfl, rfl, rfl, rfl⟩ := h
  obtain ⟨h₀, h₁, h₂⟩ := testBit_luma b₀ b₁ b₂ b₃ high
  rw [map_lumaRequest, h₀, h₁, h₂]
  rfl

/-- One chroma bin tells whether there is chroma, and one or two more which. -/
theorem requests_chromaPattern
    (h : (chromaPattern : BinTree ω ℕ).Reaches trace items n) :
    trace.map Prod.fst = chromaRequests n := by
  obtain ⟨_ | _, _, rfl, h⟩ := h
  · obtain ⟨rfl, rfl, rfl⟩ := h
    rfl
  · obtain ⟨_ | _, _, rfl, h⟩ := h
    · obtain ⟨_ | _, _, rfl, rfl, rfl, rfl⟩ := h <;> rfl
    · obtain ⟨rfl, rfl, rfl⟩ := h
      rfl

theorem requests_extraPattern {format : ChromaFormat}
    (h : (extraPattern format : BinTree ω ℕ).Reaches trace items n) :
    trace.map Prod.fst = extraRequests format := by
  cases format with
  | yuv420 =>
    obtain ⟨rfl, rfl, rfl⟩ := h
    rfl
  | yuv422 =>
    obtain ⟨_, _, rfl, _, _, rfl, rfl, rfl, rfl⟩ := h
    rfl

/-- **A pattern is read by the requests of the grid.** -/
theorem requests_codedBlocks {format : ChromaFormat}
    (h : (codedBlocks left top format : BinTree ω ℕ).Reaches trace items n) :
    trace.map Prod.fst = patternRequests left top format n := by
  obtain ⟨_, _, _, _, luma, rfl, rfl, hluma, h⟩ := reaches_bind.1 h
  obtain ⟨_, _, _, _, chroma, rfl, rfl, hchroma, h⟩ := reaches_bind.1 h
  obtain ⟨_, _, _, _, extra, rfl, rfl, hextra, rfl, rfl, rfl⟩ := reaches_bind.1 h
  have hluma_lt : luma < 16 := (codes_lumaPattern.1 ⟨_, _, hluma, rfl⟩).1
  have hchroma_lt : chroma < 4 := (codes_chromaPattern.1 ⟨_, _, hchroma, rfl⟩).1
  -- the number holds its three parts, one above the other
  have hhigh : luma + 16 * chroma + 64 * extra = luma + 16 * (chroma + 4 * extra) := by omega
  have hmiddle : (luma + 16 * (chroma + 4 * extra)) / 16 % 4 = chroma := by omega
  rw [List.map_append, List.map_append, List.map_append, hhigh, patternRequests, hmiddle,
    requests_lumaPattern hluma, requests_chromaPattern hchroma, requests_extraPattern hextra,
    List.map_nil, List.append_nil, List.append_assoc]

/-! ## The reading of a pattern -/

/-- Nothing is refused, and everything else is allowed. -/
def unrefused : Watch ω Unit where
  next := fun _ _ => ()
  Allows := fun _ _ _ => True
  Refuses := fun _ _ _ _ _ => False

/-- No bin of a pattern is refused. -/
theorem watched_codedBlocks (left top : Option ℕ) (format : ChromaFormat) :
    (codedBlocks left top format : BinTree ω ℕ).Watched unrefused (fun _ _ _ => True) () [] := by
  have hluma : (lumaPattern left top : BinTree ω ℕ).Watched unrefused (fun _ _ _ => True) () [] :=
    ⟨trivial, fun _ => ⟨trivial, fun _ => ⟨trivial, fun _ => ⟨trivial, fun _ => trivial⟩⟩⟩⟩
  have hchroma (items : List ω) :
      (chromaPattern : BinTree ω ℕ).Watched unrefused (fun _ _ _ => True) () items := by
    refine ⟨trivial, fun some => ?_⟩
    cases some with
    | false => trivial
    | true =>
      refine ⟨trivial, fun both => ?_⟩
      cases both with
      | true => trivial
      | false => exact ⟨trivial, fun second => by cases second <;> trivial⟩
  have hextra (items : List ω) :
      (extraPattern format : BinTree ω ℕ).Watched unrefused (fun _ _ _ => True) () items := by
    cases format with
    | yuv420 => trivial
    | yuv422 => exact ⟨trivial, fun _ => ⟨trivial, fun _ => trivial⟩⟩
  exact hluma.bind fun _ items _ _ => (hchroma items).bind fun _ items _ _ =>
    (hextra items).bind fun _ _ _ _ => trivial

/-- **The neighbourhood of a pattern is two-dimensional.** On any source a
pattern is read to a value, unless the source fails on a request. The bins are
then the code of the value, and the requests those of its blocks on the grid:
for each luma block by the block to its left and the block above, wherever they
lie, for chroma by two contexts of its own, and for the larger format at even
odds. Of the neighbours' patterns the two blocks on either border count, zero if
the neighbour is not there, and nothing else makes a difference to requests or
result. -/
theorem codedBlocks_neighborhood {σ : Type} [BinInput σ] (left top : Option ℕ)
    (format : ChromaFormat) (s : σ) :
    let t : BinTree ω ℕ := codedBlocks left top format
    ((∃ n, (t.run s).result = .ok n) ∨
      ∃ stop, (t.run s).result = .error stop ∧
        answers (t.asked s) s = .error stop (t.run s).state) ∧
    (∀ n, (t.run s).result = .ok n →
      (t.heard s).map Prod.snd = codedBlocksCode format n ∧
      t.asked s = patternRequests left top format n) ∧
    ∀ left' top' : Option ℕ,
      (left'.getD 0).testBit 1 = (left.getD 0).testBit 1 →
      (left'.getD 0).testBit 3 = (left.getD 0).testBit 3 →
      (top'.getD 0).testBit 2 = (top.getD 0).testBit 2 →
      (top'.getD 0).testBit 3 = (top.getD 0).testBit 3 →
      (codedBlocks left' top' format : BinTree ω ℕ).asked s = t.asked s ∧
      (codedBlocks left' top' format : BinTree ω ℕ).run s = t.run s := by
  intro t
  refine ⟨?_, fun n hn => ?_, fun left' top' hleft hleft' htop htop' => ?_⟩
  · rcases (watched_codedBlocks (ω := ω) left top format).run_cases (s := s) with
      ⟨n, hn, -⟩ | ⟨_, _, _, -, -, hrefused⟩ | ⟨_, stop, hstop, -, hanswers, -⟩
    · exact .inl ⟨n, hn⟩
    · exact hrefused.elim
    · exact .inr ⟨stop, hstop, hanswers⟩
  · have hreaches := reaches_heard hn
    refine ⟨(codes_codedBlocks.1 ⟨_, _, hreaches, rfl⟩).2, ?_⟩
    rw [asked_eq_of_ok hn]
    exact requests_codedBlocks hreaches
  · have hluma : (lumaPattern left' top' : BinTree ω ℕ) = lumaPattern left top := by
      rw [← isCoded_eq, ← isCoded_eq] at hleft hleft' htop htop'
      rw [lumaPattern, hleft, hleft', htop, htop']
      rfl
    have htree : (codedBlocks left' top' format : BinTree ω ℕ) = t := by
      rw [codedBlocks, hluma]
      rfl
    rw [htree]
    exact ⟨rfl, rfl⟩

/-- A pattern without luma, next to neighbours all of whose blocks are coded or
which are not there. Of those that are, only the blocks on the border count; and
one that is not there is read like one without coded blocks. -/
theorem codedBlocks_neighborhood_seven :
    let tape := BinTape.ofList [false, false, false, false, true, false, true]
    let t (left top : Option ℕ) : BinTree Unit ℕ := codedBlocks left top .yuv420
    let requests (a b c d : ℕ) : List BinRequest :=
      [.symbol a, .symbol b, .symbol c, .symbol d, .symbol 52, .symbol 53, .symbol 53]
    ((t (some 15) (some 15)).run tape).result = .ok 32 ∧
      ((t (some 15) (some 15)).heard tape).map Prod.snd = codedBlocksCode .yuv420 32 ∧
      (t (some 15) (some 15)).asked tape = requests 51 50 49 48 ∧
      (t none (some 15)).asked tape = requests 50 50 48 48 ∧
      (t (some 15) none).asked tape = requests 49 48 49 48 ∧
      (t none none).asked tape = requests 48 48 48 48 ∧
      (t (some 10) (some 12)).asked tape = (t (some 15) (some 15)).asked tape ∧
      (t (some 0) (some 0)).asked tape = (t none none).asked tape := by
  intro tape t requests
  have hresult (left top : Option ℕ) (h : ((t left top).run tape).result = .ok 32) :=
    (codedBlocks_neighborhood (ω := Unit) left top .yuv420 tape).2.1 32 h
  have hsame (left top : Option ℕ) :=
    (codedBlocks_neighborhood (ω := Unit) left top .yuv420 tape).2.2
  have hboth : ((t (some 15) (some 15)).run tape).result = .ok 32 := by decide
  refine ⟨hboth, (hresult _ _ hboth).1, (hresult _ _ hboth).2, ?_, ?_, ?_, ?_, ?_⟩
  · exact (hresult none (some 15) (by decide)).2
  · exact (hresult (some 15) none (by decide)).2
  · exact (hresult none none (by decide)).2
  · exact (hsame (some 15) (some 15) (some 10) (some 12) (by decide) (by decide) (by decide)
      (by decide)).1
  · exact (hsame none none (some 0) (some 0) rfl rfl rfl rfl).1

end Macroblock

end AvsEntropy
