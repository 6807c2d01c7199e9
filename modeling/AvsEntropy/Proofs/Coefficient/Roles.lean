import AvsEntropy.Coefficient.Block
import AvsEntropy.Proofs.Bin.Codes
import AvsEntropy.Proofs.Bin.Watching
import AvsEntropy.Proofs.Coefficient.Scan

/-!
# The roles of the contexts of a plane

The contexts of a plane have four roles: some are for the bins of a
magnitude, some for those of a run, and a bin that tells whether the block
ends has one by tier and one by position. `Role.steps` lists them, and no
context has two roles (`Role.Has.unique`).

What a bin of a block is for is decided by the bins before it alone.
`Phase.next` follows them without looking at any context: a magnitude goes on
until a one, a sign is one bin, a run goes on until a one, and then a bin
tells whether the block ends. In each phase a block asks only for contexts of
the roles of that phase (`allows_asked_read`), on whatever source it is read
and however that ends.

The phase at the top of the loop is a function of the scan, which is what the
induction carries: an end can be asked for once the peak is positive. The
contexts are those of the tier that the scan has, so it carries also that this
is the tier of its peak.
-/

namespace AvsEntropy

namespace Block

open BinTree

variable {ω : Type} {plane : Plane} {scan : Scan} {start context : ℕ}

/-! ## Roles -/

/-- What a context of a plane is for. -/
inductive Role where
  /-- The bins of a magnitude. -/
  | magnitude
  /-- The end of the block, by the tier. -/
  | tierEnd
  /-- The end of the block, by the position. -/
  | positionEnd
  /-- The bins of a run. -/
  | run
  deriving DecidableEq

namespace Role

variable {role role' : Role}

/-- The contexts of a role, counted from the first one of the plane. -/
def steps : Role → List ℕ
  | .magnitude => [0, 1, 3, 4, 6, 7, 9, 10, 12, 13]
  | .tierEnd => [2, 5, 8, 11]
  | .positionEnd => List.range' 14 32
  | .run => List.range' 46 20

/-- A context has a role in the plane whose contexts begin at `start`. -/
def Has (role : Role) (start context : ℕ) : Prop := ∃ step ∈ role.steps, context = start + step

theorem steps_apart (role role' : Role) :
    ∀ step ∈ role.steps, step ∈ role'.steps → role = role' := by
  cases role <;> cases role' <;> decide

/-- **No context has two roles.** -/
theorem Has.unique (h : role.Has start context) (h' : role'.Has start context) : role = role' := by
  obtain ⟨step, hstep, rfl⟩ := h
  obtain ⟨step', hstep', heq⟩ := h'
  obtain rfl : step = step' := Nat.add_left_cancel heq
  exact steps_apart role role' step hstep hstep'

end Role

theorem has_levelContext (h : scan.Tiered) (start count : ℕ) :
    Role.magnitude.Has start (scan.levelContext start count) := by
  have htier := h.tier_le
  refine ⟨3 * scan.tier + if 1 < count then 1 else 0, ?_, Nat.add_assoc ..⟩
  simp only [Role.steps, List.mem_cons, List.not_mem_nil, or_false]
  split <;> omega

theorem has_runContext (h : scan.Tiered) (start level count : ℕ) :
    Role.run.Has start (scan.runContext start level count) := by
  have htier := h.tier_le
  refine ⟨46 + 4 * scan.tier + (if 1 < level then 2 else 0) + (if 0 < count then 1 else 0), ?_, ?_⟩
  · rw [Role.steps, List.mem_range'_1]
    split <;> split <;> omega
  · rw [Scan.runContext]
    omega

theorem has_endByTier (h : scan.Tiered) (hpeak : 0 < scan.peak) (start : ℕ) :
    Role.tierEnd.Has start (scan.endByTier start) := by
  have htier := h.tier_le
  have hone := h.one_le_tier hpeak
  refine ⟨3 * scan.tier - 1, ?_, ?_⟩
  · simp only [Role.steps, List.mem_cons, List.not_mem_nil, or_false]
    omega
  · rw [Scan.endByTier]
    omega

theorem has_endByPosition (hposition : scan.position < scanLength) (start : ℕ) :
    Role.positionEnd.Has start (scan.endByPosition start) := by
  rw [scanLength] at hposition
  refine ⟨14 + 16 * (scan.position / 32) + scan.position / 2 % 16, ?_, ?_⟩
  · rw [Role.steps, List.mem_range'_1]
    omega
  · rw [Scan.endByPosition]
    omega

/-! ## Phases -/

/-- What a bin of a block is for. -/
inductive Phase where
  /-- It belongs to a magnitude. -/
  | magnitude
  /-- It is a sign. -/
  | sign
  /-- It belongs to a run. -/
  | run
  /-- It tells whether the block ends. -/
  | ending
  deriving DecidableEq

namespace Phase

/-- What the next bin is for, after a bin. -/
def next : Phase → Bool → Phase
  | .magnitude, bin => if bin then .sign else .magnitude
  | .sign, _ => .run
  | .run, bin => if bin then .ending else .run
  | .ending, _ => .magnitude

/-- What a bin is for that follows others from the start of a block. -/
def after (bins : List Bool) : Phase := bins.foldl next .magnitude

/-- What may be asked for in a phase: a context of its role, and for the end
of the block one of each of two roles. -/
def Allows (start : ℕ) : Phase → BinRequest → Prop
  | .magnitude, .symbol context => Role.magnitude.Has start context
  | .sign, .bypass => True
  | .run, .symbol context => Role.run.Has start context
  | .ending, .blended first second =>
    Role.tierEnd.Has start first ∧ Role.positionEnd.Has start second
  | _, _ => False

end Phase

/-- Follows the phases of a block, in a plane whose contexts begin at
`start`. -/
def phases (start : ℕ) : Watch ω Phase where
  next := Phase.next
  Allows phase _ request := phase.Allows start request
  Refuses _ _ _ _ _ := True

/-- The phase in which a scan goes on. -/
def phaseOf (scan : Scan) : Phase := if 0 < scan.peak then .ending else .magnitude

theorem phaseOf_advance {c : Coefficient} (h : 1 ≤ c.level.natAbs) :
    phaseOf (scan.advance c) = .ending :=
  if_pos (Scan.peak_advance_pos h)

variable {items : List ω}

/-- The end is asked for in its phase, and if the block does not end a
magnitude follows. -/
theorem watched_ends (h : scan.Tiered) (hposition : scan.position < scanLength) :
    (ends plane scan : BinTree ω Bool).Watched (phases (Element.coefficients plane).start)
      (fun phase _ _ => phase = .magnitude) (phaseOf scan) items := by
  rw [ends_eq, phaseOf]
  by_cases hpeak : 0 < scan.peak
  · rw [if_pos hpeak, if_pos hpeak]
    exact ⟨⟨has_endByTier h hpeak _, has_endByPosition hposition _⟩, fun _ => rfl⟩
  · rw [if_neg hpeak, if_neg hpeak]
    exact rfl

/-- A coefficient goes through the phases of a magnitude, a sign and a run. -/
theorem watched_coefficient (plane : Plane) (h : scan.Tiered)
    (hposition : scan.position < scanLength) :
    (coefficient plane scan : BinTree ω Coefficient).Watched
      (phases (Element.coefficients plane).start)
      (fun phase _ c => phase = .ending ∧ scan.Allows c) .magnitude items := by
  rw [coefficient_eq plane hposition]
  refine Watched.bind (Q := fun phase _ level => phase = .sign ∧ 1 ≤ level ∧ level ≤ maxLevel)
    (watched_unary (fun _ phase => phase = .magnitude) (by decide) (by decide) ?_ ?_ ?_
      (fun _ => trivial) rfl) ?level
  · rintro count _ - rfl
    exact has_levelContext h _ count
  · rintro count _ - rfl
    rfl
  · rintro count _ hone hmax rfl
    exact ⟨rfl, hone, hmax⟩
  rintro _ _ level ⟨rfl, hone, hmax⟩
  refine Watched.bind (watched_ask_done trivial) ?sign
  rintro _ _ negative ⟨rfl, rfl⟩
  refine Watched.bind (Q := fun phase _ run => phase = .ending ∧ run ≤ scan.maxRun)
    (watched_unary (fun _ phase => phase = .run) (Nat.zero_le _) scan.maxRun_lt ?_ ?_ ?_
      (fun _ => trivial) rfl) ?run
  · rintro count _ - rfl
    exact has_runContext h _ level count
  · rintro count _ - rfl
    rfl
  · rintro count _ - hrun rfl
    exact ⟨rfl, hrun⟩
  rintro _ _ run ⟨rfl, hrun⟩
  have habs := natAbs_signed negative level
  rw [signed?_level negative hmax, require_some_bind]
  exact ⟨rfl, by rw [habs]; exact hone, by rw [habs]; exact hmax, hrun⟩

/-- **From any scan on whose tier is right, a block asks for what its phase
allows.** -/
theorem watched_readFrom (plane : Plane) (h : scan.Tiered) (items : List Coefficient) :
    (readFrom plane scan).Watched (phases (Element.coefficients plane).start)
      (fun _ _ _ => True) (phaseOf scan) items := by
  induction scan using readFrom.induct generalizing items with
  | case1 scan hfull =>
    rw [readFrom_of_le hfull]
    exact trivial
  | case2 scan hroom ih =>
    have hposition := Nat.lt_of_not_le hroom
    rw [readFrom_of_lt hposition]
    refine (watched_ends h hposition).bind ?_
    rintro _ items ended rfl
    split
    · exact trivial
    · refine (watched_coefficient plane h hposition).bind ?_
      rintro _ items c ⟨rfl, hc⟩
      have hnext := Scan.advance?_eq hposition hc
      have hrest := ih c _ hnext (scan.tiered_advance c) (items ++ [c])
      rw [phaseOf_advance hc.one_le] at hrest
      rw [hnext, require_some_bind]
      exact hrest

/-- **Every request of a block is for a role of its phase**, which the bins
before it tell. -/
theorem allows_asked_read {σ : Type} [BinInput σ] {s : σ} {k : ℕ} {request : BinRequest}
    (h : ((read plane).asked s)[k]? = some request) :
    Phase.Allows (Element.coefficients plane).start
      (Phase.after ((((read plane).heard s).map Prod.snd).take k)) request := by
  obtain ⟨_, hallows⟩ := (watched_readFrom plane Scan.tiered_initial []).allows_asked h
  exact hallows

end Block

end AvsEntropy
