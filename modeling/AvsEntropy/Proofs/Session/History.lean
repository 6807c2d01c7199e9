import AvsEntropy.Proofs.Bin.Recording
import AvsEntropy.Proofs.Context.Bounds
import AvsEntropy.Proofs.Failure
import AvsEntropy.Proofs.Range.Decisions
import AvsEntropy.Session

/-!
# Contexts and their history

A context is what it has learned: the bins that were answered by it alone
or by it and another, in order, and nothing else. `lessons` reads them off
a log of answers, and `Taught` says that every context of a table has
adapted to its lessons. A request that is answered adds one lesson, to the
contexts that it asked (`get?_of_answer_ok`); a request that fails, a
bypass bin and the stuffing bit add none.

The log of a whole run of commands is its `history`, in which syntax
elements that fail halfway leave what they had heard by then.
-/

namespace AvsEntropy

/-! ## Lessons -/

namespace BinRequest

/-- Whether the context at an index learns from the answer. -/
def Teaches : BinRequest → ℕ → Prop
  | .symbol context, index => index = context
  | .blended first second, index => index = first ∨ index = second
  | .bypass, _ => False

instance (request : BinRequest) (index : ℕ) : Decidable (request.Teaches index) :=
  match request with
  | .symbol context => inferInstanceAs (Decidable (index = context))
  | .blended first second => inferInstanceAs (Decidable (index = first ∨ index = second))
  | .bypass => .isFalse id

end BinRequest

/-- The bins of a log that the context at an index learns from. -/
def lessons (index : ℕ) (log : Transcript) : List Bool :=
  (log.filter fun entry => entry.1.Teaches index).map Prod.snd

/-- A new answer is the last lesson of the contexts that it teaches. -/
theorem lessons_concat (index : ℕ) (log : Transcript) (request : BinRequest) (bin : Bool) :
    lessons index (log ++ [(request, bin)]) =
      if request.Teaches index then lessons index log ++ [bin] else lessons index log := by
  unfold lessons
  by_cases h : request.Teaches index
  · rw [if_pos h]
    simp [h]
  · rw [if_neg h]
    simp [h]

/-! ## Training -/

namespace ContextTable

variable {t after : ContextTable} {index first second : ℕ} {bin : Bool}

/-- Replacing one context leaves the others as they were. -/
theorem get?_of_set? {c : Context} (h : t.set? index c = some after) (other : ℕ) :
    after.get? other = if other = index then some c else t.get? other := by
  unfold set? at h
  split at h
  · rename_i hindex
    injection h with h
    rw [← h]
    by_cases hother : other = index
    · rw [if_pos hother, hother]
      exact Vector.getElem?_set_self hindex
    · rw [if_neg hother]
      exact Vector.getElem?_set_ne hindex (Ne.symm hother)
  · cases h

/-- **Training changes one context**, by the rule. -/
theorem get?_of_train? (h : t.train? index bin = some after) (other : ℕ) :
    after.get? other =
      if other = index then (t.get? other).map (·.adapt bin) else t.get? other := by
  obtain ⟨c, hc, h⟩ := Option.bind_eq_some_iff.1 h
  obtain ⟨c', hadapt, hset⟩ := Option.bind_eq_some_iff.1 h
  rw [get?_of_set? hset other, Context.eq_adapt_of_adapt? hadapt]
  by_cases hother : other = index
  · rw [if_pos hother, if_pos hother, hother, hc, Option.map_some]
  · rw [if_neg hother, if_neg hother]

/-- Training two contexts changes both and no other. -/
theorem get?_of_trainPair? (h : t.trainPair? first second bin bin = some after) (other : ℕ) :
    after.get? other = if other = first ∨ other = second then (t.get? other).map (·.adapt bin)
      else t.get? other := by
  unfold trainPair? at h
  split at h
  · cases h
  · rename_i hne
    obtain ⟨between, hfirst, hsecond⟩ := Option.bind_eq_some_iff.1 h
    rw [get?_of_train? hsecond other, get?_of_train? hfirst other]
    -- the second training finds the second context as it was
    by_cases hother : other = second
    · have hfirst' : other ≠ first := fun heq => hne (heq.symm.trans hother)
      rw [if_pos hother, if_neg hfirst', if_pos (.inr hother)]
    · simp only [hother, if_false, or_false]

/-! ## Tables that were taught -/

/-- Every context of the table is a fresh one that adapted to its lessons,
in order. -/
def Taught (log : Transcript) (t : ContextTable) : Prop :=
  ∀ index < contextCount,
    t.get? index = some ((lessons index log).foldl Context.adapt Context.fresh)

/-- A fresh table was taught nothing. -/
theorem taught_fresh : Taught [] fresh := by
  intro index hindex
  rw [get?_eq _ hindex, fresh, Vector.getElem_replicate]
  rfl

/-- An answer that every context takes as its lesson, or not, is one more
in the log. -/
theorem Taught.concat {log : Transcript} {request : BinRequest} (h : Taught log t)
    (hafter : ∀ index, after.get? index = if request.Teaches index then
      (t.get? index).map (·.adapt bin) else t.get? index) :
    Taught (log ++ [(request, bin)]) after := by
  intro index hindex
  rw [hafter, lessons_concat, h index hindex]
  by_cases hteaches : request.Teaches index
  · rw [if_pos hteaches, if_pos hteaches, List.foldl_append]
    rfl
  · rw [if_neg hteaches, if_neg hteaches]

end ContextTable

namespace Session

open ContextTable

variable {σ : Type} [BitInput σ] {s after : Session σ} {bin : Bool} {stop : Stop}

/-! ## One request -/

/-- A decision that is answered has taught its contexts. -/
theorem contexts_of_decideWith_ok {prediction : Bool × ℕ}
    {learn : Bool → ContextTable → Option ContextTable}
    (h : decideWith prediction learn s = .ok bin after) :
    learn bin s.contexts = some after.contexts := by
  unfold decideWith at h
  split at h
  · split at h
    · cases h
      assumption
    · cases h
  · cases h

/-- One that is not leaves them alone. -/
theorem contexts_of_decideWith_error {prediction : Bool × ℕ}
    {learn : Bool → ContextTable → Option ContextTable}
    (h : decideWith prediction learn s = .error stop after) : after.contexts = s.contexts := by
  unfold decideWith at h
  split at h
  · split at h <;> cases h
    rfl
  · cases h
    rfl

omit [BitInput σ] in
/-- A decision of the decoder alone leaves the contexts alone, however it
ends. -/
theorem contexts_decided (decision : EStateM Stop (RangeDecoder σ) Bool) (s : Session σ) :
    match decided decision s with
    | .ok _ after => after.contexts = s.contexts
    | .error _ after => after.contexts = s.contexts := by
  unfold decided
  cases decision s.decoder <;> rfl

/-- **An answered request teaches the contexts that it asks**, and no
others. -/
theorem get?_of_answer_ok {request : BinRequest} (h : BinInput.answer request s = .ok bin after)
    (index : ℕ) : after.contexts.get? index = if request.Teaches index then
      (s.contexts.get? index).map (·.adapt bin) else s.contexts.get? index := by
  cases request with
  | symbol context =>
    change symbol context s = _ at h
    unfold symbol at h
    split at h
    · exact get?_of_train? (contexts_of_decideWith_ok h) index
    · cases h
  | blended first second =>
    change blended first second s = _ at h
    unfold blended at h
    split at h
    · exact get?_of_trainPair? (contexts_of_decideWith_ok h) index
    · cases h
  | bypass =>
    have hcontexts := contexts_decided RangeDecoder.bypass s
    change decided RangeDecoder.bypass s = _ at h
    rw [h] at hcontexts
    rw [hcontexts]
    rfl

/-- **A request that fails teaches nothing.** -/
theorem contexts_of_answer_error {request : BinRequest}
    (h : BinInput.answer request s = .error stop after) : after.contexts = s.contexts := by
  cases request with
  | symbol context =>
    change symbol context s = _ at h
    unfold symbol at h
    split at h
    · exact contexts_of_decideWith_error h
    · cases h
      rfl
  | blended first second =>
    change blended first second s = _ at h
    unfold blended at h
    split at h
    · exact contexts_of_decideWith_error h
    · cases h
      rfl
  | bypass =>
    have hcontexts := contexts_decided RangeDecoder.bypass s
    change decided RangeDecoder.bypass s = _ at h
    rwa [h] at hcontexts

/-! ## Commands, one after the other -/

/-- What was answered over a command, but for the stuffing bit, which no
context hears of. -/
def Command.heard (command : Command) (s : Session σ) : Transcript :=
  match command with
  | .query q => q.tree.heard s
  | .stuffing => []

/-- What was answered over a list of commands. A failure does not end the
run. -/
def history : List Command → Session σ → Transcript
  | [], _ => []
  | command :: commands, s => command.heard s ++ history commands (perform command s).state

/-- The session after a list of commands. -/
def afterAll (s : Session σ) (commands : List Command) : Session σ :=
  commands.foldl (fun s command => (perform command s).state) s

/-- **A command teaches what was heard over it**, whatever comes of it. -/
theorem taught_perform {log : Transcript} (h : Taught log s.contexts) (command : Command) :
    Taught (log ++ command.heard s) (perform command s).state.contexts := by
  cases command with
  | query q =>
    refine BinTree.run_heard (fun log (s : Session σ) => Taught log s.contexts) ?_ ?_ h
    · intro request log bin s after hanswer h
      exact h.concat (get?_of_answer_ok hanswer)
    · intro request log stop s after hanswer h
      rwa [contexts_of_answer_error hanswer]
  | stuffing =>
    have hcontexts := contexts_decided RangeDecoder.stuffing s
    change Taught (log ++ []) _
    rw [List.append_nil]
    unfold perform stuffing
    cases hd : decided RangeDecoder.stuffing s <;> rw [hd] at hcontexts <;> exact hcontexts ▸ h

/-- A run teaches its history. -/
theorem taught_afterAll {log : Transcript} (h : Taught log s.contexts) (commands : List Command) :
    Taught (log ++ history commands s) (s.afterAll commands).contexts := by
  induction commands generalizing s log with
  | nil => rwa [history, List.append_nil]
  | cons command commands ih =>
    rw [history, ← List.append_assoc]
    exact ih (taught_perform h command)

/-- **Every context is what it has learned.** However a session is used,
and however often it fails, the context at an index is a fresh one that
adapted to the bins answered by it, alone or with another, in order, and
to nothing else. -/
theorem context_eq_foldl_lessons {source : σ} (hopen : (ofSource source).result = .ok s)
    (commands : List Command) {index : ℕ} (hindex : index < contextCount) :
    (s.afterAll commands).contexts.get? index =
      some ((lessons index (history commands s)).foldl Context.adapt Context.fresh) := by
  have hfresh : s.contexts = .fresh := by
    simp only [ofSource] at hopen
    cases hd : (RangeDecoder.openSource source).result with
    | ok d =>
      rw [hd] at hopen
      cases hopen
      rfl
    | error stop =>
      rw [hd] at hopen
      cases hopen
  have htaught := taught_afterAll (hfresh ▸ taught_fresh : Taught [] s.contexts) commands
  exact htaught index hindex

/-- A context that learns from a skip run that is refused, then with another
context named before it and with one named after it, and again after a read
that ran out of bits. -/
theorem context_eq_foldl_lessons_four :
    let source := ByteCursor.ofBytes #[0x2C, 0x35, 0x91, 0x4A]
    let s : Session ByteCursor := ⟨⟨source.advance 11 (by decide), ⟨0, 255, 2, 97⟩⟩, .fresh⟩
    let commands : List Command := [.query (.macroblockType .b ⟨3⟩), .query (.skipRun 0),
      .query (.bin (.blended 5 0)), .stuffing, .query (.bin (.blended 0 9)),
      .query (.bypassBits 40), .query (.bin (.symbol 0))]
    (ofSource source).result = .ok s ∧ lessons 0 (history commands s) = [false, true, true, true] ∧
      (s.afterAll commands).contexts.get? 0 =
        some ([false, true, true, true].foldl Context.adapt Context.fresh) := by
  intro source s commands
  have hstart : RangeDecoder.ofSource source = .ok s.decoder s.decoder.source := by decide +kernel
  have hopen : (ofSource source).result = .ok s := by
    rw [ofSource, RangeDecoder.openSource_of_ok hstart]
    rfl
  have hlessons : lessons 0 (history commands s) = [false, true, true, true] := by decide +kernel
  have hindex : 0 < contextCount := by decide
  have hcontext := context_eq_foldl_lessons hopen commands hindex
  rw [hlessons] at hcontext
  exact ⟨hopen, hlessons, hcontext⟩

end Session

end AvsEntropy
