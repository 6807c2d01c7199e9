import AvsEntropy.Proofs.Bin.Requests

/-!
# Whose contexts are asked for

An element owns the contexts of its run in the table, and a request is
owned by the element whose contexts it names. No context has two owners
(`Owns.unique`), and every owned context is in the table
(`Owns.lt_contextCount`), so that a tree within the requests of its
element is within the requests that a table can answer.
-/

namespace AvsEntropy

namespace Element

/-- A context of the element's run. -/
def Owns (e : Element) (context : ℕ) : Prop :=
  e.start ≤ context ∧ context < e.start + e.size

instance (e : Element) (context : ℕ) : Decidable (e.Owns context) :=
  inferInstanceAs (Decidable (_ ∧ _))

/-- The runs in the order of the table. -/
theorem mem_all (e : Element) : e ∈ all := by
  rcases e with _ | _ | _ | _ | _ | _ | axis | _ | _ | plane | _
  case motion => cases axis <;> decide
  case coefficients => rcases plane with ⟨_ | _, _ | _⟩ <;> decide
  all_goals decide

/-- The runs stay inside the table, and two of them do not meet. -/
theorem runs_apart : ∀ e ∈ all, e.start + e.size ≤ contextCount ∧
    ∀ f ∈ all, e = f ∨ e.start + e.size ≤ f.start ∨ f.start + f.size ≤ e.start := by
  decide

variable {e f : Element} {context : ℕ}

/-- An owned context is in the table. -/
theorem Owns.lt_contextCount (h : e.Owns context) : context < contextCount :=
  lt_of_lt_of_le h.2 (runs_apart e e.mem_all).1

/-- **No context has two owners.** -/
theorem Owns.unique (he : e.Owns context) (hf : f.Owns context) : e = f := by
  obtain ⟨he, he'⟩ := he
  obtain ⟨hf, hf'⟩ := hf
  rcases (runs_apart e e.mem_all).2 f f.mem_all with h | h | h
  · exact h
  · omega
  · omega

end Element

namespace BinRequest

/-- A request for contexts of one element; those of a pair are two. -/
def OwnedBy (e : Element) : BinRequest → Prop
  | .symbol context => e.Owns context
  | .blended first second => e.Owns first ∧ e.Owns second ∧ first ≠ second
  | .bypass => True

/-- A request that the table can answer. -/
def Admissible : BinRequest → Prop
  | .symbol context => context < contextCount
  | .blended first second => first < contextCount ∧ second < contextCount ∧ first ≠ second
  | .bypass => True

instance : DecidablePred Admissible
  | .symbol context => inferInstanceAs (Decidable (context < contextCount))
  | .blended first second =>
    inferInstanceAs (Decidable (first < contextCount ∧ second < contextCount ∧ first ≠ second))
  | .bypass => inferInstanceAs (Decidable True)

variable {e : Element}

/-- **The table answers what an element asks for.** -/
theorem OwnedBy.admissible {request : BinRequest} (h : request.OwnedBy e) :
    request.Admissible := by
  cases request with
  | symbol context => exact h.lt_contextCount
  | blended first second => exact ⟨h.1.lt_contextCount, h.2.1.lt_contextCount, h.2.2⟩
  | bypass => trivial

/-- A context is owned by its distance from the first. -/
theorem ownedBy_symbol {context step : ℕ} (hcontext : context = e.start + step)
    (hstep : step < e.size) : (symbol context).OwnedBy e := by
  subst hcontext
  exact ⟨Nat.le_add_right _ _, Nat.add_lt_add_left hstep _⟩

/-- Every element owns a first context. -/
theorem ownedBy_start (e : Element) : (symbol e.start).OwnedBy e :=
  ownedBy_symbol (Nat.add_zero _).symm (by cases e <;> exact Nat.succ_pos _)

end BinRequest

end AvsEntropy
