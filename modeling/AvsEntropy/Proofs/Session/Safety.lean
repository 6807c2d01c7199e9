import AvsEntropy.Proofs.Context.Bounds
import AvsEntropy.Proofs.Query.Requests
import AvsEntropy.Proofs.Range.Decisions
import AvsEntropy.Session

/-!
# Sessions are safe

A session is `Sound` when its decoder and its contexts are. It starts so,
every request that its table can answer keeps it so (`keeps_answer`), and
with it every query and every command (`perform_safe`). So in a whole run
of admissible commands, continued after failures, nothing faults and no
argument is ever rejected: what fails is the end of the bits, or a value
above its limit.
-/

namespace AvsEntropy

namespace Session

open BitInput

variable {σ : Type} [BitInput σ] {s : Session σ}

/-- A session between two commands. -/
structure Sound (s : Session σ) : Prop where
  decoder : s.decoder.Sound
  contexts : s.contexts.Sound

/-! ## One request -/

/-- A prediction that can be decided is, and its contexts learn. -/
theorem Sound.decideWith (h : s.Sound) {prediction : Bool × ℕ}
    (hmin : minProbability ≤ prediction.2) (hmax : prediction.2 ≤ maxProbability)
    {learn : Bool → ContextTable → Option ContextTable}
    (hlearn : ∀ bin, ∃ after, learn bin s.contexts = some after ∧ after.Sound) :
    Keeps Sound (decideWith prediction learn s) := by
  have hdecoder := h.decoder.decideBin hmin hmax prediction.1
  unfold Session.decideWith
  cases hd : RangeDecoder.decideBin prediction.1 prediction.2 s.decoder with
  | ok bin decoder =>
    obtain ⟨after, hafter, hsound⟩ := hlearn bin
    rw [hd] at hdecoder
    simp only [hafter]
    exact ⟨hdecoder, hsound⟩
  | error stop decoder =>
    rw [hd] at hdecoder
    exact ⟨hdecoder.1, hdecoder.2, h.contexts⟩

theorem Sound.symbol (h : s.Sound) {context : ℕ} (hcontext : context < contextCount) :
    Keeps Sound (symbol context s) := by
  have hprediction := (h.contexts context hcontext).decidable
  unfold Session.symbol
  rw [ContextTable.get?_eq _ hcontext]
  exact h.decideWith hprediction.1 hprediction.2 fun bin => h.contexts.train? hcontext bin

theorem Sound.blended (h : s.Sound) {first second : ℕ} (hfirst : first < contextCount)
    (hsecond : second < contextCount) (hne : first ≠ second) :
    Keeps Sound (blended first second s) := by
  obtain ⟨hblend, hlow, hhigh⟩ := (h.contexts first hfirst).blend?_eq (h.contexts second hsecond)
  unfold Session.blended
  rw [ContextTable.pair?_eq _ hfirst hsecond hne]
  simp only [Option.bind_some, hblend]
  exact h.decideWith (le_trans (by decide) hlow) hhigh fun bin =>
    h.contexts.trainPair? hfirst hsecond hne bin bin

/-- A decision that leaves the contexts alone. -/
theorem Sound.decided (h : s.Sound) {decision : EStateM Stop (RangeDecoder σ) Bool}
    (hdecision : Keeps RangeDecoder.Sound (decision s.decoder)) :
    Keeps Sound (decided decision s) := by
  unfold Session.decided
  cases hd : decision s.decoder with
  | ok bin decoder =>
    rw [hd] at hdecision
    exact ⟨hdecision, h.contexts⟩
  | error stop decoder =>
    rw [hd] at hdecision
    exact ⟨hdecision.1, hdecision.2, h.contexts⟩

theorem Sound.bypass (h : s.Sound) : Keeps Sound (bypass s) :=
  h.decided (h.decoder.decideBin (by decide) (by decide) false)

theorem Sound.stuffing (h : s.Sound) : Keeps Sound (stuffing s) :=
  h.decided (h.decoder.decideBin (by decide) (by decide) false)

/-- **A request that the table can answer keeps a session sound.** -/
theorem keeps_answer (request : BinRequest) (s : Session σ) (hrequest : request.Admissible)
    (h : s.Sound) : Keeps Sound (BinInput.answer request s) := by
  cases request with
  | symbol context => exact h.symbol hrequest
  | blended first second => exact h.blended hrequest.1 hrequest.2.1 hrequest.2.2
  | bypass => exact h.bypass

/-! ## Commands, one after the other -/

namespace Command

/-- The arguments are such as a caller must give. -/
def Admissible : Command → Prop
  | .query q => q.Admissible
  | .stuffing => True

instance : DecidablePred Admissible
  | .query q => inferInstanceAs (Decidable q.Admissible)
  | .stuffing => .isTrue trivial

end Command

/-- **A command ends as expected and keeps a session sound.** -/
theorem perform_safe {command : Command} (hcommand : command.Admissible) (h : s.Sound) :
    Expected Answer.Fits (perform command s).result ∧ (perform command s).state.Sound := by
  cases command with
  | query q => exact BinTree.run_keeps keeps_answer (Query.within_tree hcommand) h
  | stuffing =>
    have hstep := h.stuffing
    unfold perform
    cases hs : Session.stuffing s with
    | ok bin after =>
      rw [hs] at hstep
      exact ⟨trivial, hstep⟩
    | error stop after =>
      rw [hs] at hstep
      obtain ⟨rfl, hafter⟩ := hstep
      exact ⟨trivial, hafter⟩

/-- The outcomes of a list of commands. A failure does not end the run:
the next command starts from what it left behind. -/
def trail : List Command → Session σ → List (Outcome (Session σ) Coefficient Answer)
  | [], _ => []
  | command :: commands, s =>
    perform command s :: trail commands (perform command s).state

/-- Every outcome of a run is as expected, and sound. -/
theorem trail_safe {commands : List Command} (hcommands : ∀ c ∈ commands, c.Admissible)
    (h : s.Sound) :
    ∀ o ∈ trail commands s, Expected Answer.Fits o.result ∧ o.state.Sound := by
  induction commands generalizing s with
  | nil => exact fun o ho => absurd ho List.not_mem_nil
  | cons command commands ih =>
    obtain ⟨hresult, hstate⟩ := perform_safe (hcommands command List.mem_cons_self) h
    intro o ho
    rcases List.mem_cons.1 ho with rfl | ho
    · exact ⟨hresult, hstate⟩
    · exact ih (fun c hc => hcommands c (List.mem_cons_of_mem _ hc)) hstate o ho

/-! ## From the start -/

section Start

variable {source rest : σ}

/-- A session starts where its decoder does, with fresh contexts. -/
theorem result_ofSource_of_ok {d : RangeDecoder σ} (h : RangeDecoder.ofSource source = .ok d rest) :
    (ofSource source).result = .ok ⟨d, .fresh⟩ := by
  rw [ofSource, RangeDecoder.openSource_of_ok h]
  rfl

/-- And it does not where its decoder does not. -/
theorem result_ofSource_of_error {stop : Stop}
    (h : RangeDecoder.ofSource source = .error stop rest) :
    (ofSource source).result = .error stop := by
  rw [ofSource, RangeDecoder.openSource_of_error h]
  rfl

end Start

/-- A slice is the source at the next byte boundary. -/
theorem result_ofSlice (cursor : ByteCursor) :
    (ofSlice cursor).result = (ofSource cursor.align).result := by
  unfold ofSlice
  split <;> rfl

/-- What a session that was started does with a list of commands: it
begins sound, and every outcome is as expected and sound. One that could
not be started found no bits left. -/
def SafeUnder (commands : List Command) : Except Stop (Session σ) → Prop
  | .ok s => s.Sound ∧ ∀ o ∈ trail commands s, Expected Answer.Fits o.result ∧ o.state.Sound
  | .error stop => stop = .failed .endOfStream

/-- A session that starts where a source stands is safe. -/
theorem safeUnder_ofSource {commands : List Command} (hcommands : ∀ c ∈ commands, c.Admissible)
    {source : σ} (hlen : (pending source).length < wordBound) :
    SafeUnder commands (ofSource source).result := by
  rcases RangeDecoder.ofSource_cases hlen with ⟨d, s, hopen, hd⟩ | ⟨s, hopen⟩
  · have hs : Sound (⟨d, .fresh⟩ : Session σ) := ⟨hd, ContextTable.sound_fresh⟩
    rw [result_ofSource_of_ok hopen]
    exact ⟨hs, trail_safe hcommands hs⟩
  · rw [result_ofSource_of_error hopen]
    exact rfl

/-- Skipping to a byte boundary adds no bits. -/
theorem length_pending_align_le (cursor : ByteCursor) :
    (pending cursor.align).length ≤ (pending cursor).length := by
  show (ByteCursor.pending cursor.align).length ≤ (ByteCursor.pending cursor).length
  simp only [ByteCursor.pending, List.length_map, List.length_range', ByteCursor.left,
    ByteCursor.align, ByteCursor.advance]
  omega

/-- **A session over fewer bits than a word can count is safe**, wherever
it starts and whatever it is told to do, as long as the commands are
admissible. -/
theorem sessions_safe {commands : List Command} (hcommands : ∀ c ∈ commands, c.Admissible) :
    (∀ {σ : Type} [BitInput σ] (source : σ), (pending source).length < wordBound →
      SafeUnder commands (ofSource source).result) ∧
    ∀ cursor : ByteCursor, (pending cursor).length < wordBound →
      SafeUnder commands (ofSlice cursor).result := by
  refine ⟨fun source hlen => safeUnder_ofSource hcommands hlen, fun cursor hlen => ?_⟩
  rw [result_ofSlice]
  exact safeUnder_ofSource hcommands (lt_of_le_of_lt (length_pending_align_le cursor) hlen)

/-- A run from inside a byte that meets a value above its limit, decodes a
block after it, and then runs out of bits. -/
theorem sessions_safe_six :
    let commands : List Command := [.query (.macroblockType .b ⟨3⟩), .query (.skipRun 0),
      .query (.block ⟨.frame, .luma⟩), .stuffing, .query (.bypassBits 40), .query .lumaMode]
    let cursor : ByteCursor := ⟨#[255, 0x2C, 0x35, 0x91, 0x4A], 3, by decide⟩
    (∀ c ∈ commands, c.Admissible) ∧ (pending cursor).length < wordBound ∧
      (ofSlice cursor).result.toOption.map (fun s => (trail commands s).map (·.result.isOk)) =
        some [true, false, true, true, false, false] ∧
      SafeUnder commands (ofSlice cursor).result := by
  intro commands cursor
  have hcommands : ∀ c ∈ commands, c.Admissible := by decide
  have hlen : (pending cursor).length < wordBound := by decide
  exact ⟨hcommands, hlen, by decide +kernel, (sessions_safe hcommands).2 cursor hlen⟩

end Session

end AvsEntropy
