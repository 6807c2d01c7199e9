import AvsEntropy.Bits.Tape
import AvsEntropy.Proofs.Bin.Comparison
import AvsEntropy.Proofs.Range.Truncation
import AvsEntropy.Proofs.Session.History
import AvsEntropy.Proofs.Session.Safety

/-!
# Sessions on a source cut short

A session on a source that was cut short `Agrees` with the session on the
whole one: in its registers, its contexts, its position, and in the bits
that it has left. Every request is answered in step, so every command is
carried out in step (`Agrees.perform`), and a run of commands goes the same
way up to the first that runs out of bits. That one has written the
beginning of what it writes on the whole source.
-/

namespace AvsEntropy

namespace Session

open BitInput

variable {σ τ : Type} [BitInput σ] [BitInput τ] {more : List Bool} {s : Session σ} {s' : Session τ}

/-- Two sessions in the same state, of which the second has `more` bits to
come after those of the first. -/
structure Agrees (more : List Bool) (s : Session σ) (s' : Session τ) : Prop where
  decoder : s.decoder.Agrees more s'.decoder
  contexts_eq : s'.contexts = s.contexts

/-! ## One request -/

/-- A decision in step teaches the same. -/
theorem Agrees.decideWith (h : Agrees more s s') (prediction : Bool × ℕ)
    (learn : Bool → ContextTable → Option ContextTable) :
    InStep (Agrees more) (decideWith prediction learn s) (decideWith prediction learn s') := by
  have hdecision := h.decoder.decideBin prediction.1 prediction.2
  unfold Session.decideWith
  rcases hdecision.cases with ⟨bin, d, d', hd, hd', hagree⟩ | ⟨d, hd⟩ |
    ⟨stop, d, d', hd, hd', hagree⟩
  · rw [hd, hd']
    dsimp only
    rw [h.contexts_eq]
    cases learn bin s.contexts with
    | some after => exact ⟨_, rfl, hagree, rfl⟩
    | none => exact .inr ⟨_, rfl, hagree, rfl⟩
  · rw [hd]
    exact .inl rfl
  · rw [hd, hd']
    exact .inr ⟨_, rfl, hagree, h.contexts_eq⟩

theorem Agrees.symbol (h : Agrees more s s') (context : ℕ) :
    InStep (Agrees more) (symbol context s) (symbol context s') := by
  unfold Session.symbol
  rw [h.contexts_eq]
  cases s.contexts.get? context with
  | some c => exact h.decideWith _ _
  | none => exact .inr ⟨s', rfl, h⟩

theorem Agrees.blended (h : Agrees more s s') (first second : ℕ) :
    InStep (Agrees more) (blended first second s) (blended first second s') := by
  unfold Session.blended
  rw [h.contexts_eq]
  split
  · exact h.decideWith _ _
  · exact .inr ⟨s', rfl, h⟩

/-- A decision that leaves the contexts alone. -/
theorem Agrees.decided (h : Agrees more s s') {decision : EStateM Stop (RangeDecoder σ) Bool}
    {decision' : EStateM Stop (RangeDecoder τ) Bool}
    (hdecision : InStep (RangeDecoder.Agrees more) (decision s.decoder) (decision' s'.decoder)) :
    InStep (Agrees more) (decided decision s) (decided decision' s') := by
  unfold Session.decided
  rcases hdecision.cases with ⟨bin, d, d', hd, hd', hagree⟩ | ⟨d, hd⟩ |
    ⟨stop, d, d', hd, hd', hagree⟩
  · rw [hd, hd']
    exact ⟨_, rfl, hagree, h.contexts_eq⟩
  · rw [hd]
    exact .inl rfl
  · rw [hd, hd']
    exact .inr ⟨_, rfl, hagree, h.contexts_eq⟩

theorem Agrees.bypass (h : Agrees more s s') : InStep (Agrees more) (bypass s) (bypass s') :=
  h.decided (h.decoder.decideBin false bypassProbability)

theorem Agrees.stuffing (h : Agrees more s s') : InStep (Agrees more) (stuffing s) (stuffing s') :=
  h.decided (h.decoder.decideBin false stuffingProbability)

/-- **Every request is answered in step.** -/
theorem Agrees.answer (request : BinRequest) (s : Session σ) (s' : Session τ)
    (h : Agrees more s s') :
    InStep (Agrees more) (BinInput.answer request s) (BinInput.answer request s') := by
  cases request with
  | symbol context => exact h.symbol context
  | blended first second => exact h.blended first second
  | bypass => exact h.bypass

/-! ## Commands, one after the other -/

/-- **Every command is carried out in step.** -/
theorem Agrees.perform (h : Agrees more s s') (command : Command) :
    (perform command s).InStep (Agrees more) (perform command s') := by
  cases command with
  | query q => exact BinTree.run_inStep Agrees.answer q.tree h
  | stuffing =>
    unfold Session.perform
    rcases h.stuffing.cases with ⟨bin, after, after', hs, hs', hafter⟩ | ⟨after, hs⟩ |
      ⟨stop, after, after', hs, hs', hafter⟩
    · rw [hs, hs']
      exact ⟨List.prefix_rfl, fun _ => ⟨rfl, rfl, hafter⟩⟩
    · rw [hs]
      exact ⟨List.nil_prefix, fun hresult => absurd rfl hresult⟩
    · rw [hs, hs']
      exact ⟨List.prefix_rfl, fun _ => ⟨rfl, rfl, hafter⟩⟩

/-- A run that does not run out of bits leaves the sessions in agreement. -/
theorem Agrees.afterAll (h : Agrees more s s') {commands : List Command}
    (hbits : ∀ o ∈ trail commands s, o.result ≠ .error (.failed .endOfStream)) :
    Agrees more (s.afterAll commands) (s'.afterAll commands) := by
  induction commands generalizing s s' with
  | nil => exact h
  | cons command commands ih =>
    have hfirst := (h.perform command).same (hbits _ List.mem_cons_self)
    exact ih hfirst.2.2 fun o ho => hbits o (List.mem_cons_of_mem _ ho)

/-- What is promised of two openings, of which the second has `more` bits to
come: the first runs out of bits, both fail for the same reason, or both
start sessions in agreement. Whatever these are told to do, they go on in
agreement until the first runs out of bits, and a command that it runs out
on has written the beginning of what the other writes. -/
def AgreeUntilEnd (more : List Bool) (first : Except Stop (Session σ))
    (second : Except Stop (Session τ)) : Prop :=
  first = .error (.failed .endOfStream) ∨
  (∃ stop, first = .error stop ∧ second = .error stop) ∨
  ∃ s s', first = .ok s ∧ second = .ok s' ∧ Agrees more s s' ∧
    ∀ (before : List Command) (command : Command),
      (∀ o ∈ trail before s, o.result ≠ .error (.failed .endOfStream)) →
        Agrees more (s.afterAll before) (s'.afterAll before) ∧
        (Session.perform command (s.afterAll before)).InStep (Agrees more)
          (Session.perform command (s'.afterAll before))

theorem agreeUntilEnd_ofSource {source : σ} {source' : τ} (h : Extends more source source') :
    AgreeUntilEnd more (ofSource source).result (ofSource source').result := by
  rcases RangeDecoder.ofSource_inStep h with ⟨t, hs⟩ | ⟨stop, t, t', hs, hs'⟩ |
    ⟨d, t, d', t', hs, hs', hd⟩
  · exact .inl (result_ofSource_of_error hs)
  · exact .inr (.inl ⟨stop, result_ofSource_of_error hs, result_ofSource_of_error hs'⟩)
  · have hagree : Agrees more (⟨d, .fresh⟩ : Session σ) ⟨d', .fresh⟩ := ⟨hd, rfl⟩
    refine .inr (.inr ⟨_, _, result_ofSource_of_ok hs, result_ofSource_of_ok hs', hagree,
      fun before command hbits => ?_⟩)
    have hbefore := hagree.afterAll hbits
    exact ⟨hbefore, hbefore.perform command⟩

/-- **Bits that are not needed make no difference**: a session on a source
that was cut short goes as on the whole source, until it runs out of bits.
So it does on a slice of a buffer that was cut short. -/
theorem sessions_agree :
    (∀ {σ τ : Type} [BitInput σ] [BitInput τ] {more : List Bool} {source : σ} {source' : τ},
      Extends more source source' →
        AgreeUntilEnd more (ofSource source).result (ofSource source').result) ∧
    ∀ (cursor : ByteCursor) (more : Array UInt8),
      AgreeUntilEnd (pending (ByteCursor.ofBytes more)) (ofSlice cursor).result
        (ofSlice (cursor.extend more)).result := by
  refine ⟨fun h => agreeUntilEnd_ofSource h, fun cursor more => ?_⟩
  rw [result_ofSlice, result_ofSlice, ByteCursor.align_extend]
  exact agreeUntilEnd_ofSource (cursor.align.extends_extend more)

/-- Twenty bits of a buffer: after a value above its limit, a block runs out
of bits with one of its three coefficients written. -/
theorem sessions_agree_twenty :
    let whole := ByteCursor.ofBytes #[0x35, 0x64, 0x6F, 0x1E, 0xB8]
    let bits : List Bool := (pending whole).take 20
    let cut := BitTape.ofList bits
    let more := (pending whole).drop 20
    let s : Session BitTape := ⟨⟨⟨bits.drop 11, 11⟩, ⟨0, 255, 2, 171⟩⟩, .fresh⟩
    let s' : Session ByteCursor := ⟨⟨whole.advance 11 (by decide), ⟨0, 255, 2, 171⟩⟩, .fresh⟩
    let before : List Command := [.query (.macroblockType .b ⟨3⟩), .query (.skipRun 0), .stuffing]
    let block : Command := .query (.block ⟨.frame, .luma⟩)
    Extends more cut whole ∧ (ofSource cut).result = .ok s ∧ (ofSource whole).result = .ok s' ∧
      (trail before s).map (·.result.isOk) = [true, false, true] ∧
      Agrees more (s.afterAll before) (s'.afterAll before) ∧
      (perform block (s.afterAll before)).written = [⟨-1, 1⟩] ∧
      (perform block (s'.afterAll before)).written = [⟨-1, 1⟩, ⟨1, 0⟩, ⟨-1, 0⟩] ∧
      (perform block (s.afterAll before)).InStep (Agrees more)
        (perform block (s'.afterAll before)) := by
  intro whole bits cut more s s' before block
  have hext : Extends more cut whole := ⟨by decide, rfl⟩
  have hcut : RangeDecoder.ofSource cut = .ok s.decoder s.decoder.source := by decide +kernel
  have hwhole : RangeDecoder.ofSource whole = .ok s'.decoder s'.decoder.source := by decide +kernel
  have hs : (ofSource cut).result = .ok s := result_ofSource_of_ok hcut
  have hs' : (ofSource whole).result = .ok s' := result_ofSource_of_ok hwhole
  have hbits : ∀ o ∈ trail before s, o.result ≠ .error (.failed .endOfStream) := by decide +kernel
  have hagree := sessions_agree.1 hext
  rw [hs, hs'] at hagree
  rcases hagree with h | ⟨stop, h, -⟩ | ⟨_, _, ⟨⟩, ⟨⟩, -, hrun⟩
  · cases h
  · cases h
  obtain ⟨hbefore, hblock⟩ := hrun before block hbits
  exact ⟨hext, hs, hs', by decide +kernel, hbefore, by decide +kernel, by decide +kernel, hblock⟩

end Session

end AvsEntropy
