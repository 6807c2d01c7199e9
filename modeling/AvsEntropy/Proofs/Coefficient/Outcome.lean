import AvsEntropy.Proofs.Bin.Watching
import AvsEntropy.Proofs.Coefficient.Progress

/-!
# What a block leaves behind

However the reading of a block ends, and on whatever source, it leaves the
coefficients that its bins complete, and no others, whatever the list held
before; these are in range and fit the block. It can end without a value in
three ways only: on a magnitude past its limit, on a run past the end of the
block, or because the source fails.

A block is watched by its `Progress`. It asks for a bin only where the
progress is one that `Waits`: that is what bounds the requests, since the bins
are a function of the progress (`Waits.length_bins_lt`). The bound is reached by
a full block of the largest magnitudes (`length_asked_longest`).
-/

namespace AvsEntropy

namespace Block

open BinTree

variable {plane : Plane} {scan : Scan} {before pairs written : List Coefficient}
  {p : Progress} {value limit : ℕ}

/-- A magnitude in range. -/
structure InRange (c : Coefficient) : Prop where
  one_le : 1 ≤ c.level.natAbs
  le_max : c.level.natAbs ≤ 2048

/-! ## How many bins coefficients have -/

theorem span_concat (pairs : List Coefficient) (c : Coefficient) :
    span (pairs ++ [c]) = span pairs + c.run + 1 := by
  unfold span
  rw [List.map_append, List.sum_append]
  rfl

/-- Every coefficient takes a position. -/
theorem length_le_span (pairs : List Coefficient) : pairs.length ≤ span pairs := by
  induction pairs with
  | nil => exact le_rfl
  | cons c cs ih =>
    rw [span_cons, List.length_cons]
    omega

theorem length_code {c : Coefficient} (hone : 1 ≤ c.level.natAbs) :
    c.code.length = c.level.natAbs + c.run + 2 := by
  simp only [Coefficient.code, List.length_append, List.length_replicate, List.length_singleton]
  omega

/-- Coefficients in range have at most so many bins for a position. -/
theorem length_led_le (h : ∀ c ∈ pairs, InRange c) : (led pairs).length ≤ 2051 * span pairs := by
  induction pairs with
  | nil => exact Nat.zero_le _
  | cons c cs ih =>
    have hc := h c List.mem_cons_self
    have hmax := hc.le_max
    have hcs := ih fun d hd => h d (List.mem_cons_of_mem c hd)
    have hsplit : led (c :: cs) = c.code ++ [false] ++ led cs := List.flatMap_cons
    rw [hsplit, List.length_append, List.length_append, length_code hc.one_le,
      List.length_singleton, span_cons]
    omega

namespace Progress

/-- Where a block goes on after some coefficients. -/
def afterPairs (before : List Coefficient) : Progress :=
  match before.getLast? with
  | none => .magnitude [] 0
  | some last => .complete before.dropLast last

theorem afterPairs_concat (before : List Coefficient) (c : Coefficient) :
    afterPairs (before ++ [c]) = .complete before c := by
  rw [afterPairs, List.getLast?_concat, List.dropLast_concat]

/-! ## Progress of a block -/

/-- The coefficients that are complete have been written, are in range and fit
the block. -/
structure Holds (p : Progress) (written : List Coefficient) : Prop where
  pairs_eq : p.pairs = written
  inRange : ∀ c ∈ p.pairs, InRange c
  span_le : span p.pairs ≤ 64

/-- A bin may be asked for: the block has room for what has begun, and no
limit is passed. -/
def Waits : Progress → Prop
  | .magnitude before zeros => span before ≤ 63 ∧ zeros ≤ 2047
  | .sign before zeros => span before ≤ 63 ∧ zeros ≤ 2047
  | .run before zeros _ more => span before + more ≤ 63 ∧ zeros ≤ 2047
  | .complete before last => span (before ++ [last]) ≤ 63
  | .ended .. => False

/-- A limit is passed: that of a magnitude, or the one that its position sets
to a run. -/
def Exceeds : Progress → ℕ → ℕ → Prop
  | .magnitude _ zeros, value, limit => zeros = 2048 ∧ value = 2049 ∧ limit = 2048
  | .run before _ _ more, value, limit =>
    limit + span before = 63 ∧ more = limit + 1 ∧ value = limit + 1
  | _, _, _ => False

/-- **There is always room for the bin that is asked for.** -/
theorem Waits.length_bins_lt (h : p.Waits) (hrange : ∀ c ∈ p.pairs, InRange c) :
    p.bins.length < 131263 := by
  cases p with
  | magnitude before zeros =>
    obtain ⟨hspan, hzeros⟩ := h
    have hled : (led before).length ≤ _ := length_led_le hrange
    rw [bins, List.length_append, List.length_replicate]
    omega
  | sign before zeros =>
    obtain ⟨hspan, hzeros⟩ := h
    have hled : (led before).length ≤ _ := length_led_le hrange
    simp only [bins, List.length_append, List.length_replicate, List.length_singleton]
    omega
  | run before zeros negative more =>
    obtain ⟨hspan, hzeros⟩ := h
    -- a longer run leaves fewer positions for coefficients before it
    have hled : (led before).length ≤ _ := length_led_le hrange
    simp only [bins, List.length_append, List.length_replicate, List.length_cons, List.length_nil]
    omega
  | complete before last =>
    have hspan : span (before ++ [last]) ≤ 63 := h
    have hled : (led (before ++ [last])).length ≤ _ := length_led_le hrange
    rw [led_concat, List.length_append, List.length_singleton] at hled
    rw [bins]
    omega
  | ended before last rest => exact h.elim

/-- What was read where a limit is passed. -/
theorem Exceeds.bins_eq (h : p.Exceeds value limit) :
    (value = 2049 ∧ limit = 2048 ∧ p.bins = led p.pairs ++ List.replicate 2048 false) ∨
      ∃ zeros negative, limit + span p.pairs = 63 ∧ value = limit + 1 ∧
        p.bins = led p.pairs ++ (List.replicate zeros false ++ [true, negative] ++
          List.replicate (limit + 1) false) := by
  cases p with
  | magnitude before zeros =>
    obtain ⟨rfl, rfl, rfl⟩ := h
    exact .inl ⟨rfl, rfl, rfl⟩
  | run before zeros negative more =>
    obtain ⟨hspan, rfl, rfl⟩ := h
    exact .inr ⟨zeros, negative, hspan, rfl, rfl⟩
  | _ => exact h.elim

/-! ## The watch -/

/-- Follows the progress of a block, and allows what may be asked for and
refused in it. -/
def watch (plane : Plane) : Watch Coefficient Progress where
  next := next
  Allows p written _ := p.Holds written ∧ p.Waits
  Refuses p written element value limit :=
    p.Holds written ∧ element = .coefficients plane ∧ p.Exceeds value limit

/-- The end is asked for past a coefficient, and if the block does not end
there a magnitude begins. -/
theorem watched_ends (hrange : ∀ c ∈ before, InRange c) (hspan : span before ≤ 63) :
    (ends plane (scanOf before) : BinTree Coefficient Bool).Watched (watch plane)
      (fun p written ended => written = before ∧
        if ended then p.Holds before else p = .magnitude before 0)
      (afterPairs before) before := by
  rcases List.eq_nil_or_concat before with rfl | ⟨front, last, rfl⟩
  · exact ⟨rfl, rfl⟩
  · rw [List.concat_eq_append] at hrange hspan ⊢
    have hpeak : 0 < (scanOf (front ++ [last])).peak :=
      peak_scanOf_pos (List.concat_ne_nil _ _) fun c hc => (hrange c hc).one_le
    have hfits : span (front ++ [last]) ≤ 64 := hspan.trans (by decide)
    rw [ends_eq, if_pos hpeak, afterPairs_concat]
    refine ⟨⟨⟨rfl, hrange, hfits⟩, hspan⟩, fun ended => ?_⟩
    cases ended with
    | true => exact ⟨rfl, ⟨rfl, hrange, hfits⟩⟩
    | false => exact ⟨rfl, rfl⟩

/-- A coefficient goes from the beginning of its magnitude to its completion. -/
theorem watched_coefficient (hrange : ∀ c ∈ before, InRange c) (hspan : span before ≤ 63) :
    (coefficient plane (scanOf before) : BinTree Coefficient Coefficient).Watched (watch plane)
      (fun p written c => written = before ∧ p = .complete before c ∧ InRange c ∧
        span before + c.run ≤ 63)
      (.magnitude before 0) before := by
  have hfits : span before ≤ 64 := hspan.trans (by decide)
  have hmaxRun : (scanOf before).maxRun = 63 - span before := rfl
  have hposition : (scanOf before).position < scanLength := Nat.lt_succ_of_le hspan
  rw [coefficient_eq plane hposition]
  refine Watched.bind (Q := fun p written level => written = before ∧
      ∃ zeros, zeros ≤ 2047 ∧ level = zeros + 1 ∧ p = .sign before zeros)
    (watched_unary (fun count p => ∃ zeros, count = zeros + 1 ∧ p = .magnitude before zeros)
      (by decide) (by decide) ?_ ?_ ?_ ?_ ⟨0, rfl, rfl⟩) ?level
  · rintro _ _ hle ⟨zeros, rfl, rfl⟩
    exact ⟨⟨rfl, hrange, hfits⟩, hspan, Nat.le_of_succ_le_succ hle⟩
  · rintro _ _ - ⟨zeros, rfl, rfl⟩
    exact ⟨zeros + 1, rfl, rfl⟩
  · rintro _ _ - hle ⟨zeros, rfl, rfl⟩
    exact ⟨rfl, zeros, Nat.le_of_succ_le_succ hle, rfl, rfl⟩
  · rintro _ ⟨zeros, hzeros, rfl⟩
    obtain rfl : 2048 = zeros := Nat.succ.inj hzeros
    exact ⟨⟨rfl, hrange, hfits⟩, rfl, rfl, rfl, rfl⟩
  rintro _ _ _ ⟨rfl, zeros, hzeros, rfl, rfl⟩
  refine Watched.bind (watched_ask_done ⟨⟨rfl, hrange, hfits⟩, hspan, hzeros⟩) ?sign
  rintro _ before negative ⟨rfl, rfl⟩
  rw [signed?_level negative (Nat.succ_le_succ hzeros)]
  simp only [require_some_bind]
  refine Watched.bind (Q := fun p written run => written = before ∧ span before + run ≤ 63 ∧
      p = .complete before ⟨if negative then -((zeros + 1 : ℕ) : ℤ) else (zeros + 1 : ℕ), run⟩)
    (watched_unary (fun count p => p = .run before zeros negative count) (Nat.zero_le _)
      (Scan.maxRun_lt _) ?_ ?_ ?_ ?_ rfl) ?run
  · rintro count _ hle rfl
    exact ⟨⟨rfl, hrange, hfits⟩, by omega, hzeros⟩
  · rintro count _ - rfl
    rfl
  · rintro count _ - hle rfl
    exact ⟨rfl, by omega, rfl⟩
  · rintro _ rfl
    exact ⟨⟨rfl, hrange, hfits⟩, rfl, by omega, rfl, rfl⟩
  rintro _ _ run ⟨rfl, hrun, rfl⟩
  have habs := natAbs_signed negative (zeros + 1)
  exact ⟨rfl, rfl, ⟨by rw [habs]; omega, by rw [habs]; omega⟩, hrun⟩

/-- A run that ends inside the block is allowed there. -/
theorem allows_scanOf (hc : InRange c) (hrun : span before + c.run ≤ 63) :
    (scanOf before).Allows c := by
  have hmaxRun : (scanOf before).maxRun = 63 - span before := rfl
  exact ⟨hc.one_le, hc.le_max, by omega⟩

/-- **From any scan on, a block asks and refuses by its progress**, and has
written the coefficients of that when it ends. -/
theorem watched_readFrom (hscan : scan = scanOf before) (hrange : ∀ c ∈ before, InRange c)
    (hspan : span before ≤ 64) :
    (readFrom plane scan).Watched (watch plane) (fun p written _ => p.Holds written)
      (afterPairs before) before := by
  have hposition : scan.position = span before := by rw [hscan, scanOf]
  induction scan using readFrom.induct generalizing before with
  | case1 scan hfull =>
    rw [readFrom_of_le hfull]
    rw [scanLength, hposition] at hfull
    rcases List.eq_nil_or_concat before with rfl | ⟨front, last, rfl⟩
    · exact absurd hfull (by decide)
    · rw [List.concat_eq_append] at hrange hspan ⊢
      rw [afterPairs_concat]
      exact ⟨rfl, hrange, hspan⟩
  | case2 scan hroom ih =>
    have hspan' : span before ≤ 63 := by
      rw [scanLength, hposition] at hroom
      omega
    rw [readFrom_of_lt (Nat.lt_of_not_le hroom), hscan]
    refine (watched_ends hrange hspan').bind ?_
    rintro p _ ended ⟨rfl, hended⟩
    cases ended with
    | true => exact hended
    | false =>
      obtain rfl : p = .magnitude _ 0 := hended
      refine (watched_coefficient hrange hspan').bind ?_
      rintro _ before c ⟨rfl, rfl, hc, hrun⟩
      have hcs : ∀ d ∈ before ++ [c], InRange d :=
        List.forall_mem_append.2 ⟨hrange, List.forall_mem_singleton.2 hc⟩
      have hfits : span (before ++ [c]) ≤ 64 := by
        rw [span_concat]
        omega
      have hnext : scan.advance? c = some (scanOf (before ++ [c])) := by
        rw [Scan.advance?_eq (Nat.lt_of_not_le hroom) (hscan ▸ allows_scanOf hc hrun), hscan,
          scanOf_concat]
      have hrest := ih c _ hnext rfl hcs hfits (by rw [scanOf])
      rw [afterPairs_concat] at hrest
      rw [← hscan, hnext, require_some_bind]
      exact hrest

theorem watched_read (plane : Plane) :
    (read plane).Watched (watch plane) (fun p written _ => p.Holds written)
      (.magnitude [] 0) [] :=
  watched_readFrom rfl (fun _ hc => absurd hc List.not_mem_nil) (Nat.zero_le _)

end Progress

/-! ## Every outcome -/

section Outcome

variable {σ : Type} [BinInput σ] {s : σ}

/-- **A block makes at most 131263 requests**, the last one counted also if it
is not answered. -/
theorem length_asked_le (plane : Plane) (s : σ) : ((read plane).asked s).length ≤ 131263 := by
  refine (Progress.watched_read plane).length_asked_le fun bins written request hallows => ?_
  obtain ⟨hholds, hwaits⟩ := hallows
  have hlength := hwaits.length_bins_lt hholds.inRange
  rwa [Progress.watch, ← progressOf, bins_progressOf] at hlength

/-- A block that is read off its code makes a request for each bin of it. -/
theorem length_asked_code (plane : Plane) (h : HasCode pairs) :
    ((read plane).asked (BinTape.ofList (code pairs))).length = (code pairs).length := by
  have hcont : Continues .initial pairs := continues_initial_iff.2 h
  have hbins : (transcriptFrom plane .initial pairs).map Prod.snd = code pairs :=
    map_snd_transcriptFrom_initial hcont
  obtain ⟨hresult, hwritten, -⟩ := run_ofList_iff.2
    ⟨_, reaches_readFrom.2 ⟨hcont, rfl, rfl⟩, (List.append_nil _).symm⟩
  rw [hbins] at hresult hwritten
  obtain ⟨-, hheard, -⟩ := reaches_readFrom.1 (reaches_heard hresult)
  rw [read, asked_eq_of_ok hresult, hheard, hwritten, ← hbins, List.length_map, List.length_map]

/-- A full block of the largest magnitudes makes as many requests as a block
can. -/
theorem length_asked_longest (plane : Plane) :
    ((read plane).asked (BinTape.ofList (code (List.replicate 64 ⟨2048, 0⟩)))).length = 131263 := by
  have hmem {c : Coefficient} (hc : c ∈ List.replicate 64 (⟨2048, 0⟩ : Coefficient)) :
      c.level.natAbs = 2048 := by
    rw [List.eq_of_mem_replicate hc]
    rfl
  have hcode : HasCode (List.replicate 64 ⟨2048, 0⟩) := {
    ne_nil := nofun
    one_le := fun c hc => by
      rw [hmem hc]
      decide
    le_max := fun c hc => (hmem hc).le
    span_le := by decide }
  have hspan : ¬ span (List.replicate 64 ⟨2048, 0⟩) < 64 := by decide
  rw [length_asked_code plane hcode]
  rw [List.replicate_succ] at hspan ⊢
  rw [code, if_neg hspan, List.append_nil, List.length_append, List.length_flatMap,
    List.map_replicate, List.sum_replicate_nat, List.length_cons, length_code (by decide)]
  rfl

/-- **A block that is read into a list leaves nothing of what the list held.** -/
theorem readInto_eq (plane : Plane) (out : List Coefficient) (s : σ) :
    readInto plane out s = (read plane).run s := by
  rw [readInto, runInto_eq, List.take_zero, List.nil_append]

/-- How the reading of a block ends: with a value, where its progress exceeds a
limit, or on a last request that the source fails on. -/
theorem read_cases (plane : Plane) (s : σ) :
    let o := (read plane).run s
    let p := progressOf (((read plane).heard s).map Prod.snd)
    p.Holds o.written ∧
      ((∃ final, o.result = .ok final) ∨
        (∃ value limit, o.result = .error (.failed (.outOfRange
            (Element.coefficients plane).name value limit)) ∧ p.Exceeds value limit) ∨
        ∃ request stop, o.result = .error stop ∧
          (read plane).asked s = ((read plane).heard s).map Prod.fst ++ [request] ∧
          answers ((read plane).asked s) s = .error stop o.state) := by
  intro o p
  rcases (Progress.watched_read plane).run_cases (s := s) with ⟨final, hresult, -, hholds⟩ |
    ⟨_, value, limit, hresult, -, hholds, rfl, hexceeds⟩ |
    ⟨request, stop, hresult, hasked, hanswers, hholds, -⟩
  · exact ⟨hholds, .inl ⟨final, hresult⟩⟩
  · exact ⟨hholds, .inr (.inl ⟨value, limit, hresult, hexceeds⟩)⟩
  · exact ⟨hholds, .inr (.inr ⟨request, stop, hresult, hasked, hanswers⟩)⟩

/-- **What a block leaves behind on every outcome.** What its list held before
makes no difference to it: all is as on a reading into no list. Coefficients are
then in the list exactly if the bins of this reading begin with their codes.
Their magnitudes are in range, they fit the block, and no more than 131263
requests were made. A reading without a value was refused a magnitude after 2048 zeros
or a run one past the limit that its position sets, or it made a last request
that the source fails on by itself. -/
theorem read_outcome (plane : Plane) (out : List Coefficient) (s : σ) :
    let o := readInto plane out s
    let bins := ((read plane).heard s).map Prod.snd
    o = (read plane).run s ∧
    (∀ before c, (∀ d ∈ before ++ [c], 1 ≤ d.level.natAbs) →
      (led before ++ c.code <+: bins ↔ before ++ [c] <+: o.written)) ∧
    (∀ c ∈ o.written, 1 ≤ c.level.natAbs ∧ c.level.natAbs ≤ 2048) ∧
    span o.written ≤ 64 ∧ o.written.length ≤ 64 ∧
    ((read plane).asked s).length ≤ 131263 ∧
    ∀ stop, o.result = .error stop →
      (stop = .failed (.outOfRange (Element.coefficients plane).name 2049 2048) ∧
        bins = led o.written ++ List.replicate 2048 false) ∨
      (∃ limit zeros negative, limit + span o.written = 63 ∧
        stop = .failed (.outOfRange (Element.coefficients plane).name (limit + 1) limit) ∧
        bins = led o.written ++ (List.replicate zeros false ++ [true, negative] ++
          List.replicate (limit + 1) false)) ∨
      ∃ request, (read plane).asked s = ((read plane).heard s).map Prod.fst ++ [request] ∧
        answers ((read plane).asked s) s = .error stop o.state := by
  intro o bins
  have ho : o = (read plane).run s := readInto_eq plane out s
  obtain ⟨hholds, hcases⟩ := read_cases plane s
  rw [← ho] at hholds hcases
  have hbins : (progressOf bins).bins = bins := bins_progressOf bins
  have hspan : span o.written ≤ 64 := by
    have hfits := hholds.span_le
    rwa [hholds.pairs_eq] at hfits
  refine ⟨ho, fun before c hone => ?_, fun c hc => ?_, hspan, (length_le_span _).trans hspan,
    length_asked_le plane s, fun stop hstop => ?_⟩
  · rw [isPrefix_iff_complete hone, hholds.pairs_eq]
  · have hrange := hholds.inRange c (by rwa [hholds.pairs_eq])
    exact ⟨hrange.one_le, hrange.le_max⟩
  · rcases hcases with ⟨final, hresult⟩ | ⟨value, limit, hresult, hexceeds⟩ |
      ⟨request, other, hresult, hasked, hanswers⟩
    · cases hresult.symm.trans hstop
    · obtain rfl := Except.error.inj (hresult.symm.trans hstop)
      have hread := hexceeds.bins_eq
      rw [hbins, hholds.pairs_eq] at hread
      rcases hread with ⟨rfl, rfl, hread⟩ | ⟨zeros, negative, hposition, rfl, hread⟩
      · exact .inl ⟨rfl, hread⟩
      · exact .inr (.inl ⟨limit, zeros, negative, hposition, rfl, hread⟩)
    · obtain rfl := Except.error.inj (hresult.symm.trans hstop)
      exact .inr (.inr ⟨request, hasked, hanswers⟩)

end Outcome

/-- A run that does not fit behind a coefficient of three positions: that one is
left, of the two that the list held before neither, and the bins of another one,
as far as they go. -/
theorem read_outcome_long_run :
    let tape := BinTape.ofList
      ([true, false, false, false, true, false, true, true] ++ List.replicate 61 false)
    let o := readInto ⟨.frame, .luma⟩ [⟨5, 0⟩, ⟨-7, 1⟩] tape
    let bins := ((read ⟨.frame, .luma⟩).heard tape).map Prod.snd
    o.result = .error (.failed (.outOfRange "trans_coefficient(frame_luma)" 61 60)) ∧
      o.written = [⟨1, 2⟩] ∧ ([⟨1, 2⟩] <+: o.written ↔ [true, false, false, false, true] <+: bins) ∧
      ∃ zeros negative, bins = led [⟨1, 2⟩] ++ (List.replicate zeros false ++ [true, negative] ++
        List.replicate 61 false) := by
  intro tape o bins
  have hresult : o.result =
      .error (.failed (.outOfRange "trans_coefficient(frame_luma)" 61 60)) := by decide +kernel
  have hwritten : o.written = [⟨1, 2⟩] := by decide +kernel
  have hlength : ((read ⟨.frame, .luma⟩).asked tape).length =
      ((read ⟨.frame, .luma⟩).heard tape).length := by decide +kernel
  obtain ⟨-, hcomplete, -, -, -, -, hstop⟩ :=
    read_outcome ⟨.frame, .luma⟩ [⟨5, 0⟩, ⟨-7, 1⟩] tape
  refine ⟨hresult, hwritten, (hcomplete [] ⟨1, 2⟩ (by decide)).symm, ?_⟩
  rcases hstop _ hresult with ⟨hvalue, -⟩ | ⟨limit, zeros, negative, hposition, hvalue, hbins⟩ |
    ⟨request, hasked, -⟩
  · exact absurd hvalue (by decide)
  · obtain rfl : 60 = limit := by
      injection hvalue with hvalue
      injection hvalue
    have hwritten' :
        (readInto ⟨.frame, .luma⟩ [⟨5, 0⟩, ⟨-7, 1⟩] tape).written = [⟨1, 2⟩] := hwritten
    rw [hwritten'] at hbins
    exact ⟨zeros, negative, hbins⟩
  · -- every request was answered
    rw [hasked, List.length_append, List.length_map, List.length_singleton] at hlength
    omega

end Block

end AvsEntropy
