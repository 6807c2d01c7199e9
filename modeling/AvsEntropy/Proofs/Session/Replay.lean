import AvsEntropy.Proofs.Bin.Comparison
import AvsEntropy.Proofs.Session.History
import AvsEntropy.Proofs.Session.Safety

/-!
# Bins in place of a session

A tape of bins answers whatever it is asked, and a session answers by its
contexts and its bits. To the reader of a syntax element it is the same:
given the bins that a session answered, in their order, it reads from the
tape what it read from the session (`replay_eq`), whether that was a value, a
value above its limit, or the end of the bits.

This is said of sessions that are `Reachable`: started on fewer bits than a
word can count, and told nothing but what contexts that exist can answer.
-/

namespace AvsEntropy

namespace Session

open BitInput

variable {σ : Type} [BitInput σ] {s : Session σ}

/-- A command asks for contexts that exist. -/
def Command.Answerable : Command → Prop
  | .query q => q.Answerable
  | .stuffing => True

instance : DecidablePred Command.Answerable
  | .query q => inferInstanceAs (Decidable q.Answerable)
  | .stuffing => .isTrue trivial

/-- A session that was started and has carried out commands, with or without
success. -/
inductive Reachable : Session σ → Prop where
  /-- It starts where a source stands. -/
  | opened {source : σ} {s : Session σ} (hlen : (pending source).length < wordBound)
    (hopen : (ofSource source).result = .ok s) : Reachable s
  /-- It goes on from what a command left behind. -/
  | performed {s : Session σ} (hs : Reachable s) {command : Command}
    (hcommand : command.Answerable) : Reachable (perform command s).state

/-- A session that starts at a byte boundary is reachable. -/
theorem reachable_ofSlice {cursor : ByteCursor} {s : Session ByteCursor}
    (hlen : (pending cursor).length < wordBound) (hopen : (ofSlice cursor).result = .ok s) :
    s.Reachable := by
  rw [result_ofSlice] at hopen
  exact .opened (lt_of_le_of_lt (length_pending_align_le cursor) hlen) hopen

/-- A run of commands leads from one reachable session to another. -/
theorem Reachable.afterAll (hs : s.Reachable) {commands : List Command}
    (hcommands : ∀ c ∈ commands, c.Answerable) : (s.afterAll commands).Reachable := by
  induction commands generalizing s with
  | nil => exact hs
  | cons command commands ih =>
    exact ih (hs.performed (hcommands command List.mem_cons_self))
      fun c hc => hcommands c (List.mem_cons_of_mem _ hc)

/-- An answerable command keeps a session sound, also where it faults. -/
theorem Sound.perform (h : s.Sound) {command : Command} (hcommand : command.Answerable) :
    (perform command s).state.Sound := by
  cases command with
  | query q => exact (Query.asks_tree hcommand).keeps keeps_answer h
  | stuffing =>
    have hadmissible : Command.stuffing.Admissible := trivial
    exact (perform_safe hadmissible h).2

/-- **Reachable sessions are sound.** -/
theorem Reachable.sound (hs : s.Reachable) : s.Sound := by
  induction hs with
  | opened hlen hopen =>
    have hnone : ∀ c ∈ ([] : List Command), c.Admissible := fun _ h => absurd h List.not_mem_nil
    have hsafe := safeUnder_ofSource hnone hlen
    rw [hopen] at hsafe
    exact hsafe.1
  | performed _ hcommand ih => exact ih.perform hcommand

/-- **A tape of the bins stands in for the session.** What is read from a
tape of the bins that a session answers over a query ends as it does on the
session, has written the same items, makes the same requests in the same
order, and uses up the bins. They are the answers to these requests, one by
one; only where the session has no more bits is the last request without
one. -/
theorem replay_eq (hs : s.Reachable) {q : Query} (hq : q.Answerable) :
    q.run (BinTape.ofList ((q.tree.heard s).map Prod.snd)) =
      ⟨(q.run s).result, (q.run s).written, ⟨[], (q.tree.asked s).toArray⟩⟩ ∧
    (q.tree.asked s = (q.tree.heard s).map Prod.fst ∧
        (q.run s).result ≠ .error (.failed .endOfStream) ∨
      ∃ request, q.tree.asked s = (q.tree.heard s).map Prod.fst ++ [request] ∧
        (q.run s).result = .error (.failed .endOfStream)) := by
  have hasks := Query.asks_tree hq
  have htape := hasks.run_tape keeps_answer hs.sound #[]
  rw [Array.empty_append] at htape
  exact ⟨htape, hasks.asked_cases keeps_answer hs.sound⟩

/-- A block that runs out of bits after its first coefficient, in a slice in
which a value was above its limit before. -/
theorem replay_eq_block :
    let cursor : ByteCursor := ⟨#[255, 0x35, 0x64], 3, by decide⟩
    let start : Session ByteCursor :=
      ⟨⟨cursor.advance 16 (by decide), ⟨0, 255, 2, 171⟩⟩, .fresh⟩
    let before : List Command := [.query (.macroblockType .b ⟨3⟩), .query (.skipRun 0), .stuffing]
    let s := start.afterAll before
    let q : Query := .block ⟨.frame, .luma⟩
    s.Reachable ∧ q.Answerable ∧
      (q.tree.heard s).map Prod.snd = [true, true, false, true, false] ∧
      q.run (BinTape.ofList [true, true, false, true, false]) =
        ⟨.error (.failed .endOfStream), [⟨-1, 1⟩], ⟨[], #[.symbol 58, .bypass, .symbol 104,
          .symbol 105, .blended 60 73, .symbol 61]⟩⟩ := by
  intro cursor start before s q
  have hlen : (pending cursor).length < wordBound := by decide
  have hstart : RangeDecoder.ofSource cursor.align = .ok start.decoder start.decoder.source := by
    decide +kernel
  have hopen : (ofSlice cursor).result = .ok start := by
    rw [result_ofSlice]
    exact result_ofSource_of_ok hstart
  have hs : s.Reachable := (reachable_ofSlice hlen hopen).afterAll (by decide)
  have hq : q.Answerable := by decide
  have hbins : (q.tree.heard s).map Prod.snd = [true, true, false, true, false] := by
    decide +kernel
  have hresult : (q.run s).result = .error (.failed .endOfStream) := by decide +kernel
  have hwritten : (q.run s).written = [⟨-1, 1⟩] := by decide +kernel
  have hasked : q.tree.asked s = [.symbol 58, .bypass, .symbol 104, .symbol 105,
      .blended 60 73, .symbol 61] := by decide +kernel
  have hreplay := (replay_eq hs hq).1
  rw [hbins, hresult, hwritten, hasked] at hreplay
  exact ⟨hs, hq, hbins, hreplay⟩

end Session

end AvsEntropy
