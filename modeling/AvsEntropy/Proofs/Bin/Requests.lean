import AvsEntropy.Bin.Code
import AvsEntropy.Proofs.Failure
import Mathlib.Tactic.Ring

/-!
# What a tree asks for

`Within P Q` says of a tree that every request it can come to is `P`,
whatever the answers are, that every value it can end with is `Q`, and
that it meets no broken precondition. It is kept by `bind`, so it is read
off a tree piece by piece; the codes have one lemma each.

A source that answers the requests of `P` and keeps an invariant keeps it
over a whole run, and the run ends as runs may: with a value that is `Q`,
with no bins left, or with a value above its limit (`run_keeps`).

`Asks P` says only the first of the three. It is enough for the invariant.
-/

namespace AvsEntropy

namespace BinTree

variable {σ ω α β : Type} {P P' : BinRequest → Prop} {Q Q' : α → Prop} {R : β → Prop}

/-- Every request of a tree is `P` and every value `Q`, and the tree never
faults. -/
def Within (P : BinRequest → Prop) (Q : α → Prop) : BinTree ω α → Prop
  | .done a => Q a
  | .refuse .. => True
  | .fault => False
  | .write _ rest => rest.Within P Q
  | .ask request next => P request ∧ ∀ bin, (next bin).Within P Q

theorem within_pure {a : α} : (pure a : BinTree ω α).Within P Q ↔ Q a := Iff.rfl

/-- A value that is there is the value. -/
theorem within_require {x : Option α} {a : α} (hx : x = some a) (ha : Q a) :
    (require x : BinTree ω α).Within P Q := by
  rw [hx]
  exact ha

theorem within_ask {request : BinRequest} {next : Bool → BinTree ω α} :
    (ask request next).Within P Q ↔ P request ∧ ∀ bin, (next bin).Within P Q := Iff.rfl

/-- A larger class of requests and values has room for the tree. -/
theorem Within.mono {t : BinTree ω α} (ht : t.Within P Q) (hP : ∀ request, P request → P' request)
    (hQ : ∀ a, Q a → Q' a) : t.Within P' Q' := by
  induction t with
  | done a => exact hQ a ht
  | refuse => trivial
  | fault => exact ht
  | write item rest ih => exact ih ht
  | ask request next ih => exact ⟨hP request ht.1, fun bin => ih bin (ht.2 bin)⟩

/-- **A tree built from two asks for what both ask for**, the second one
from every value of the first. -/
theorem Within.bind {t : BinTree ω α} {f : α → BinTree ω β} (ht : t.Within P Q)
    (hf : ∀ a, Q a → (f a).Within P R) : (t >>= f).Within P R := by
  change (t.bind f).Within P R
  induction t with
  | done a => exact hf a ht
  | refuse => trivial
  | fault => exact ht
  | write item rest ih => exact ih ht
  | ask request next ih => exact ⟨ht.1, fun bin => ih bin (ht.2 bin)⟩

/-- What is done with the value asks for nothing. -/
theorem Within.map {t : BinTree ω α} {f : α → β} (ht : t.Within P Q)
    (hf : ∀ a, Q a → R (f a)) : (f <$> t).Within P R := by
  rw [map_eq_pure_bind]
  exact ht.bind fun a ha => within_pure.2 (hf a ha)

/-- A tree that branches stays within where both branches do. -/
theorem within_ite {p : Prop} [Decidable p] {t e : BinTree ω α} (ht : p → t.Within P Q)
    (he : ¬ p → e.Within P Q) : (if p then t else e).Within P Q := by
  split
  · exact ht ‹_›
  · exact he ‹_›

/-- One bin of a context. -/
theorem within_symbol {context : ℕ} (h : P (.symbol context)) :
    (symbol context : BinTree ω Bool).Within P fun _ => True :=
  ⟨h, fun _ => trivial⟩

/-- One bin of two contexts. -/
theorem within_blended {first second : ℕ} (h : P (.blended first second)) :
    (blended first second : BinTree ω Bool).Within P fun _ => True :=
  ⟨h, fun _ => trivial⟩

/-- One bin at even odds. -/
theorem within_bypass (h : P .bypass) : (bypass : BinTree ω Bool).Within P fun _ => True :=
  ⟨h, fun _ => trivial⟩

/-! ## The codes -/

section Codes

variable {element : Element} {stop : Bool} {first limit : ℕ} {request : ℕ → BinRequest}

/-- **A unary code asks by its counts**, which stay between its first and
its limit. The count that it refuses still fits its word. -/
theorem within_unary (hle : first ≤ limit) (hlimit : limit + 1 < wordBound)
    (h : ∀ count, first ≤ count → count ≤ limit → P (request count)) :
    (unary element stop first limit request : BinTree ω ℕ).Within P
      fun count => first ≤ count ∧ count ≤ limit := by
  -- the count and the room for it make up the limit all along
  have key : ∀ room count, first ≤ count → count + room = limit →
      (unaryFrom element stop (fun n => some (request n)) room count : BinTree ω ℕ).Within P
        fun count => first ≤ count ∧ count ≤ limit := by
    intro room
    induction room with
    | zero =>
      intro count hfirst hroom
      have hfits : count + 1 < wordBound := by omega
      refine ⟨h count hfirst (by omega), fun bin => within_ite (fun _ => ?_) fun _ => ?_⟩
      · exact ⟨hfirst, by omega⟩
      · unfold overrun
        rw [if_pos hfits]
        trivial
    | succ room ih =>
      intro count hfirst hroom
      refine ⟨h count hfirst (by omega), fun bin => within_ite (fun _ => ?_) fun _ => ?_⟩
      · exact ⟨hfirst, by omega⟩
      · exact ih (count + 1) (by omega) (by omega)
  exact key (limit - first) first le_rfl (by omega)

/-- **A truncated unary code asks by the counts below its limit.** -/
theorem within_truncatedUnary (h : ∀ count < limit, P (request count)) :
    (truncatedUnary stop limit request : BinTree ω ℕ).Within P (· ≤ limit) := by
  have key : ∀ room count, count + room = limit →
      (truncatedUnaryFrom stop request room count : BinTree ω ℕ).Within P (· ≤ limit) := by
    intro room
    induction room with
    | zero => exact fun count hroom => le_of_eq hroom
    | succ room ih =>
      intro count hroom
      refine ⟨h count (by omega), fun bin => within_ite (fun _ => ?_) fun _ => ?_⟩
      · exact (by omega : count ≤ limit)
      · exact ih (count + 1) (by omega)
  exact key limit 0 (Nat.zero_add limit)

/-- **Bypass bins make a number of as many bits**, in a word of 32. -/
theorem within_bypassBits (count : ℕ) (h : P .bypass) :
    (bypassBits count : BinTree ω ℕ).Within P (· < 2 ^ min count 32) := by
  have key : ∀ count taken value, value < 2 ^ min taken 32 →
      (bypassBitsFrom count value : BinTree ω ℕ).Within P (· < 2 ^ min (taken + count) 32) := by
    intro count
    induction count with
    | zero => exact fun taken value hvalue => hvalue
    | succ count ih =>
      intro taken value hvalue
      refine ⟨h, fun bin => ?_⟩
      rw [← Nat.add_assoc, Nat.add_right_comm]
      refine ih (taken + 1) _ ?_
      have hbin := bin.toNat_le
      rcases Nat.lt_or_ge taken 32 with htaken | htaken
      · rw [min_eq_left (by omega)] at hvalue ⊢
        refine lt_of_le_of_lt (Nat.mod_le _ _) ?_
        rw [pow_succ]
        omega
      · rw [min_eq_right (by omega)]
        exact Nat.mod_lt _ (by decide)
  simpa only [bypassBits, Nat.zero_add] using key count 0 0 (by simp)

end Codes

/-! ## Requests alone -/

section Asks

variable {t : BinTree ω α}

/-- Every request that a tree can come to is `P`, whatever it ends with. -/
def Asks (P : BinRequest → Prop) : BinTree ω α → Prop
  | .done _ => True
  | .refuse .. => True
  | .fault => True
  | .write _ rest => rest.Asks P
  | .ask request next => P request ∧ ∀ bin, (next bin).Asks P

theorem Within.asks (ht : t.Within P Q) : t.Asks P := by
  induction t with
  | done a => trivial
  | refuse => trivial
  | fault => trivial
  | write item rest ih => exact ih ht
  | ask request next ih => exact ⟨ht.1, fun bin => ih bin (ht.2 bin)⟩

/-- A larger class of requests has room for the tree. -/
theorem Asks.mono (ht : t.Asks P) (h : ∀ request, P request → P' request) : t.Asks P' := by
  induction t with
  | done a => trivial
  | refuse => trivial
  | fault => trivial
  | write item rest ih => exact ih ht
  | ask request next ih => exact ⟨h request ht.1, fun bin => ih bin (ht.2 bin)⟩

/-- What is done with the value asks for nothing. -/
theorem Asks.map (ht : t.Asks P) (f : α → β) : (f <$> t).Asks P := by
  rw [map_eq_pure_bind]
  change (t.bind _).Asks P
  induction t with
  | done a => trivial
  | refuse => trivial
  | fault => trivial
  | write item rest ih => exact ih ht
  | ask request next ih => exact ⟨ht.1, fun bin => ih bin (ht.2 bin)⟩

/-- **A unary code asks by its counts**, however large its limit. -/
theorem asks_unary {element : Element} {stop : Bool} {first limit : ℕ} {request : ℕ → BinRequest}
    (h : ∀ count, P (request count)) :
    (unary element stop first limit request : BinTree ω ℕ).Asks P := by
  have key : ∀ room count,
      (unaryFrom element stop (fun n => some (request n)) room count : BinTree ω ℕ).Asks P := by
    intro room
    induction room with
    | zero =>
      intro count
      refine ⟨h count, fun bin => ?_⟩
      dsimp only
      split
      · trivial
      · unfold overrun
        split <;> trivial
    | succ room ih =>
      intro count
      refine ⟨h count, fun bin => ?_⟩
      dsimp only
      split
      · trivial
      · exact ih (count + 1)
  exact key (limit - first) first

end Asks

/-! ## Runs -/

/-- **A run keeps what its source keeps**, and ends as a run may. -/
theorem run_keeps [BinInput σ] {Inv : σ → Prop}
    (hanswer : ∀ request s, P request → Inv s → Keeps Inv (BinInput.answer request s))
    {t : BinTree ω α} (ht : t.Within P Q) {s : σ} (hs : Inv s) :
    Expected Q (t.run s).result ∧ Inv (t.run s).state := by
  induction t generalizing s with
  | done a => exact ⟨ht, hs⟩
  | refuse => exact ⟨trivial, hs⟩
  | fault => exact ht.elim
  | write item rest ih => exact ih ht hs
  | ask request next ih =>
    have hstep := hanswer request s ht.1 hs
    rw [run]
    cases hanswered : BinInput.answer request s with
    | ok bin after =>
      rw [hanswered] at hstep
      exact ih bin (ht.2 bin) hstep
    | error stop after =>
      rw [hanswered] at hstep
      obtain ⟨rfl, hafter⟩ := hstep
      exact ⟨trivial, hafter⟩

/-- And it keeps that also where it may fault. -/
theorem Asks.keeps [BinInput σ] {Inv : σ → Prop}
    (hanswer : ∀ request s, P request → Inv s → Keeps Inv (BinInput.answer request s))
    {t : BinTree ω α} (ht : t.Asks P) {s : σ} (hs : Inv s) : Inv (t.run s).state := by
  induction t generalizing s with
  | done a => exact hs
  | refuse => exact hs
  | fault => exact hs
  | write item rest ih => exact ih ht hs
  | ask request next ih =>
    have hstep := hanswer request s ht.1 hs
    rw [run]
    cases hanswered : BinInput.answer request s with
    | ok bin after =>
      rw [hanswered] at hstep
      exact ih bin (ht.2 bin) hstep
    | error stop after =>
      rw [hanswered] at hstep
      exact hstep.2

end BinTree

end AvsEntropy
