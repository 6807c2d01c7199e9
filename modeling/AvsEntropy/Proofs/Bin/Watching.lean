import AvsEntropy.Proofs.Bin.Comparison

/-!
# Watching a run

The requests of a run are those that its tree may ask for
(`Asks.of_mem_asked`), and a tree built from two asks for what the first one
asks for and then, if that had a value, for what the second one does
(`asked_bind`).

What may be asked for can depend on the bins so far, and on what has been
written. A `Watch` follows the bins with a state of its own and says which
requests each state allows, and which refusals. `t.Watched w Q m items` says
that a tree, watched from the state `m` on and with `items` written, asks only
for what is allowed at the time and refuses only what is, whatever the answers
are, and that a value it ends with is `Q` of the last state. Like `Within` it
is kept by `bind`.

It says of every run that each request was allowed after the bins before it
(`Watched.allows_asked`), and so how many there can be
(`Watched.length_asked_le`). Of the end of every run it says that it is one of
three (`Watched.run_cases`): a value, a refusal, or a request that the source
itself fails on.
-/

namespace AvsEntropy

/-- Follows the bins of a run, and judges by what it has seen. -/
structure Watch (ω μ : Type) where
  /-- The state after a bin. -/
  next : μ → Bool → μ
  /-- The requests that are allowed, by the state and the items so far. -/
  Allows : μ → List ω → BinRequest → Prop
  /-- The values that may be refused, with the limits of their elements. -/
  Refuses : μ → List ω → Element → ℕ → ℕ → Prop

namespace BinTree

variable {σ ω α β μ : Type} {t : BinTree ω α} {f : α → BinTree ω β}

/-! ## The requests of a run -/

section Requests

variable [BinInput σ] {s : σ} {P : BinRequest → Prop}

/-- **A tree built from two asks for what the first one asks for**, and from
its value on for what the second one does. -/
theorem asked_bind (t : BinTree ω α) (f : α → BinTree ω β) (s : σ) :
    (t >>= f).asked s = t.asked s ++
      match (t.run s).result with
      | .ok a => (f a).asked (t.run s).state
      | .error _ => [] := by
  change (t.bind f).asked s = _
  induction t generalizing s with
  | done a => rfl
  | refuse => rfl
  | fault => rfl
  | write item rest ih => exact ih s
  | ask request next ih =>
    rw [bind, asked, asked, run]
    cases BinInput.answer request s with
    | ok bin after => exact congrArg (request :: ·) (ih bin after)
    | error stop after => rfl

/-- What is done with the value asks for nothing. -/
theorem asked_map (t : BinTree ω α) (g : α → β) (s : σ) : (g <$> t).asked s = t.asked s := by
  rw [map_eq_pure_bind, asked_bind]
  cases (t.run s).result with
  | ok a => exact List.append_nil _
  | error stop => exact List.append_nil _

/-- And nothing is heard of it. -/
theorem heard_map (t : BinTree ω α) (g : α → β) (s : σ) : (g <$> t).heard s = t.heard s := by
  rw [map_eq_pure_bind]
  change (t.bind _).heard s = t.heard s
  rw [heard, heard, run_bind, Outcome.andThen]
  cases (t.run (⟨s, []⟩ : Recording σ)).result with
  | ok a => rfl
  | error stop => rfl

/-- On the way to a value every request is answered, and what was asked for
is what was heard of. -/
theorem asked_eq_of_ok {a : α} (h : (t.run s).result = .ok a) :
    t.asked s = (t.heard s).map Prod.fst := by
  induction t generalizing s with
  | done b => rfl
  | refuse => cases h
  | fault => cases h
  | write item rest ih => exact ih h
  | ask request next ih =>
    rw [run] at h
    rw [asked]
    cases hanswer : BinInput.answer request s with
    | ok bin after =>
      rw [hanswer] at h
      rw [heard_ask_of_ok hanswer]
      exact congrArg (request :: ·) (ih bin h)
    | error stop after =>
      rw [hanswer] at h
      cases h

/-- Every request of a run is one that the tree may ask for. -/
theorem Asks.of_mem_asked (ht : t.Asks P) {request : BinRequest} (h : request ∈ t.asked s) :
    P request := by
  induction t generalizing s with
  | done a => exact absurd h List.not_mem_nil
  | refuse => exact absurd h List.not_mem_nil
  | fault => exact absurd h List.not_mem_nil
  | write item rest ih => exact ih ht h
  | ask first next ih =>
    rw [asked] at h
    rcases List.mem_cons.1 h with rfl | h
    · exact ht.1
    · cases hanswer : BinInput.answer first s with
      | ok bin after =>
        rw [hanswer] at h
        exact ih bin (ht.2 bin) h
      | error stop after =>
        rw [hanswer] at h
        exact absurd h List.not_mem_nil

end Requests

/-! ## Watched trees -/

section Watched

variable {w : Watch ω μ} {m : μ} {items : List ω} {Q : μ → List ω → α → Prop}
  {R : μ → List ω → β → Prop}

/-- From a state on and with items written, a tree asks for what the watch
allows at the time, refuses what it may and never faults, and ends with a
value that is `Q` of what there is then. -/
def Watched (w : Watch ω μ) (Q : μ → List ω → α → Prop) : BinTree ω α → μ → List ω → Prop
  | .done a, m, items => Q m items a
  | .refuse element value limit, m, items => w.Refuses m items element value limit
  | .fault, _, _ => False
  | .write item rest, m, items => rest.Watched w Q m (items ++ [item])
  | .ask request next, m, items =>
    w.Allows m items request ∧ ∀ bin, (next bin).Watched w Q (w.next m bin) items

/-- **A tree built from two is watched over both**, the second one from where
the first one ended. -/
theorem Watched.bind (ht : t.Watched w Q m items)
    (hf : ∀ m items a, Q m items a → (f a).Watched w R m items) :
    (t >>= f).Watched w R m items := by
  change (t.bind f).Watched w R m items
  induction t generalizing m items with
  | done a => exact hf m items a ht
  | refuse => exact ht
  | fault => exact ht
  | write item rest ih => exact ih ht
  | ask request next ih => exact ⟨ht.1, fun bin => ih bin (ht.2 bin)⟩

/-- One request, if it is allowed. -/
theorem watched_ask_done {request : BinRequest} (h : w.Allows m items request) :
    (ask request .done : BinTree ω Bool).Watched w
      (fun m' items' bin => m' = w.next m bin ∧ items' = items) m items :=
  ⟨h, fun _ => ⟨rfl, rfl⟩⟩

/-- **A unary code is watched by an invariant of its counts**: it allows the
bin of every count, is kept by the bins that go on, and where they go past the
limit it allows that to be refused. -/
theorem watched_unary {element : Element} {stop : Bool} {first limit : ℕ}
    {request : ℕ → BinRequest} {Q : μ → List ω → ℕ → Prop} (I : ℕ → μ → Prop)
    (hle : first ≤ limit) (hlimit : limit + 1 < wordBound)
    (hask : ∀ {count m}, count ≤ limit → I count m → w.Allows m items (request count))
    (hgo : ∀ {count m}, count ≤ limit → I count m → I (count + 1) (w.next m !stop))
    (hstop : ∀ {count m}, first ≤ count → count ≤ limit → I count m →
      Q (w.next m stop) items count)
    (hrefuse : ∀ {m}, I (limit + 1) m → w.Refuses m items element (limit + 1) limit)
    (h : I first m) :
    (unary element stop first limit request : BinTree ω ℕ).Watched w Q m items := by
  -- by induction on the room, with the count and the state generalized
  have key : ∀ room count m, first ≤ count → count + room = limit → I count m →
      (unaryFrom element stop (fun n => some (request n)) room count : BinTree ω ℕ).Watched w Q m
        items := by
    intro room
    induction room with
    | zero =>
      intro count m hfirst hroom hI
      obtain rfl : count = limit := hroom
      refine ⟨hask le_rfl hI, fun bin => ?_⟩
      dsimp only
      split
      · rename_i hbin
        rw [hbin]
        exact hstop hfirst le_rfl hI
      · rename_i hbin
        rw [Bool.eq_not.2 hbin, overrun, if_pos hlimit]
        exact hrefuse (hgo le_rfl hI)
    | succ room ih =>
      intro count m hfirst hroom hI
      have hcount : count ≤ limit := by omega
      refine ⟨hask hcount hI, fun bin => ?_⟩
      dsimp only
      split
      · rename_i hbin
        rw [hbin]
        exact hstop hfirst hcount hI
      · rename_i hbin
        rw [Bool.eq_not.2 hbin]
        exact ih (count + 1) _ (by omega) (by omega) (hgo hcount hI)
  exact key (limit - first) first m le_rfl (by omega) h

/-- **Every request of a run was allowed**, after the bins that were heard
before it and with some of the items written. -/
theorem Watched.allows_asked [BinInput σ] {s : σ} (ht : t.Watched w Q m items) {k : ℕ}
    {request : BinRequest} (h : (t.asked s)[k]? = some request) :
    ∃ sofar, w.Allows ((((t.heard s).map Prod.snd).take k).foldl w.next m) sofar request := by
  induction t generalizing s m items k with
  | done a => cases h
  | refuse => cases h
  | fault => cases h
  | write item rest ih => exact ih ht h
  | ask first next ih =>
    rw [asked] at h
    cases k with
    | zero =>
      obtain rfl : first = request := Option.some.inj h
      exact ⟨items, ht.1⟩
    | succ k =>
      cases hanswer : BinInput.answer first s with
      | ok bin after =>
        rw [hanswer] at h
        rw [heard_ask_of_ok hanswer]
        exact ih bin (ht.2 bin) h
      | error stop after =>
        rw [hanswer] at h
        cases h

/-- **A run makes at most `n` requests** if all that are allowed come after
fewer than `n` bins. -/
theorem Watched.length_asked_le [BinInput σ] {s : σ} (ht : t.Watched w Q m items) {n : ℕ}
    (hn : ∀ (bins : List Bool) (sofar : List ω) (request : BinRequest),
      w.Allows (bins.foldl w.next m) sofar request → bins.length < n) :
    (t.asked s).length ≤ n := by
  induction t generalizing s m items n with
  | done a => exact Nat.zero_le n
  | refuse => exact Nat.zero_le n
  | fault => exact ht.elim
  | write item rest ih => exact ih ht hn
  | ask request next ih =>
    have hpos : 0 < n := hn [] items request ht.1
    rw [asked]
    cases BinInput.answer request s with
    | ok bin after =>
      have hrest : ((next bin).asked after).length ≤ n - 1 := by
        refine ih bin (ht.2 bin) fun bins sofar later hlater => ?_
        have hlonger : (bin :: bins).length < n := hn (bin :: bins) sofar later hlater
        rw [List.length_cons] at hlonger
        omega
      exact Nat.add_le_of_le_sub hpos hrest
    | error stop after => exact hpos

end Watched

/-! ## How a watched run ends -/

section Ends

variable [BinInput σ] {s after final : σ} {request : BinRequest} {bin : Bool} {stop : Stop}
  {requests : List BinRequest} {w : Watch ω μ} {m : μ} {items : List ω} {Q : μ → List ω → α → Prop}

/-- What a source answers to requests, one after the other. -/
def answers (requests : List BinRequest) : EStateM Stop σ (List Bool) :=
  requests.mapM BinInput.answer

/-- The first request that is not answered ends the answers. -/
theorem answers_cons_of_error (h : BinInput.answer request s = .error stop after) :
    answers (request :: requests) s = .error stop after := by
  rw [answers, List.mapM_cons]
  show EStateM.bind _ _ s = _
  rw [EStateM.bind, h]

/-- Past one that is answered they fail where the rest fails. -/
theorem answers_cons_of_ok (h : BinInput.answer request s = .ok bin after)
    (hrest : answers requests after = .error stop final) :
    answers (request :: requests) s = .error stop final := by
  rw [answers, List.mapM_cons]
  show EStateM.bind _ _ s = _
  rw [EStateM.bind, h]
  show EStateM.bind _ _ after = _
  rw [EStateM.bind]
  rw [answers] at hrest
  rw [hrest]

/-- **How a watched run ends**, in the state after the bins it heard and with
what it has written: with a value, with a value that may be refused, or on a
request that was allowed and that the source fails on. -/
theorem Watched.run_cases (ht : t.Watched w Q m items) :
    let last := ((t.heard s).map Prod.snd).foldl w.next m
    let all := items ++ (t.run s).written
    (∃ a, (t.run s).result = .ok a ∧ t.asked s = (t.heard s).map Prod.fst ∧ Q last all a) ∨
    (∃ element value limit,
      (t.run s).result = .error (.failed (.outOfRange element.name value limit)) ∧
      t.asked s = (t.heard s).map Prod.fst ∧ w.Refuses last all element value limit) ∨
    ∃ request stop, (t.run s).result = .error stop ∧
      t.asked s = (t.heard s).map Prod.fst ++ [request] ∧
      answers (t.asked s) s = .error stop (t.run s).state ∧ w.Allows last all request := by
  intro last all
  induction t generalizing s m items with
  | done a => exact .inl ⟨a, rfl, rfl, by rw [show all = items from List.append_nil _]; exact ht⟩
  | refuse element value limit =>
    exact .inr (.inl ⟨element, value, limit, rfl, rfl, by
      rw [show all = items from List.append_nil _]; exact ht⟩)
  | fault => exact ht.elim
  | write item rest ih =>
    have hall : all = items ++ [item] ++ (rest.run s).written := List.append_cons ..
    rw [hall]
    exact ih ht
  | ask request next ih =>
    cases hanswer : BinInput.answer request s with
    | ok bin after =>
      have hrun : (ask request next).run s = (next bin).run after := by rw [run, hanswer]
      have hasked : (ask request next).asked s = request :: (next bin).asked after := by
        rw [asked, hanswer]
      have hheard : (ask request next).heard s = _ := heard_ask_of_ok hanswer
      simp only [last, all, hrun, hasked, hheard]
      rcases ih bin (s := after) (ht.2 bin) with ⟨a, hresult, heq, hQ⟩ |
        ⟨element, value, limit, hresult, heq, hrefuses⟩ |
        ⟨request', stop, hresult, heq, hanswers, hallows⟩
      · exact .inl ⟨a, hresult, congrArg (request :: ·) heq, hQ⟩
      · exact .inr (.inl ⟨element, value, limit, hresult, congrArg (request :: ·) heq, hrefuses⟩)
      · exact .inr (.inr ⟨request', stop, hresult, congrArg (request :: ·) heq,
          answers_cons_of_ok hanswer hanswers, hallows⟩)
    | error stop after =>
      have hrun : (ask request next).run s = ⟨.error stop, [], after⟩ := by rw [run, hanswer]
      have hasked : (ask request next).asked s = [request] := by rw [asked, hanswer]
      have hheard : (ask request next).heard s = _ := heard_ask_of_error hanswer
      simp only [last, all, hrun, hasked, hheard]
      refine .inr (.inr ⟨request, stop, rfl, rfl, answers_cons_of_error hanswer, ?_⟩)
      rw [List.append_nil]
      exact ht.1

end Ends

end BinTree

end AvsEntropy
