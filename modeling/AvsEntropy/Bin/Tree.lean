import AvsEntropy.Element.Basic
import AvsEntropy.Failure

/-!
# Trees of bin requests

A syntax element is read as a tree: each node asks for one binary symbol,
a bin, and the answer picks the branch. A tree says which contexts are
asked for and what the answers mean; who answers is another matter, and
any `BinInput` may. So the same tree is run by a decoding session, which
takes the answers from a bit stream, and by a tape, which holds them.

On its way a tree may write items, such as decoded coefficients. What
was written stays written also when the tree ends without a value.

`BinTree.run` runs a tree; `run_bind` says that a tree built from two is
run one after the other. `BinTree.runInto` runs it with a list of items that
is there already, behind which the items are written.

The plainest source of bins is a `BinTape`. It answers from a list, whatever
it is asked, and remembers what it was asked. It needs no contexts, so it
accepts every index. A request after the last bin is remembered and fails.
-/

namespace AvsEntropy

/-- A request for one bin. -/
inductive BinRequest where
  /-- Decided and adapted by one context. -/
  | symbol (context : Nat)
  /-- Decided by two contexts together, and adapting both. -/
  | blended (first second : Nat)
  /-- Decided at even odds. -/
  | bypass
  deriving DecidableEq, Repr

/-- A reading of bins that writes items and ends with a value. -/
inductive BinTree (ω α : Type) where
  /-- The value is known. -/
  | done (value : α)
  /-- The value exceeds the limit of its element. -/
  | refuse (element : Element) (value limit : Nat)
  /-- A precondition is broken. -/
  | fault
  /-- An item is complete. -/
  | write (item : ω) (rest : BinTree ω α)
  /-- A bin is needed. -/
  | ask (request : BinRequest) (next : Bool → BinTree ω α)

/-- A source of bins. -/
class BinInput (σ : Type) where
  /-- Answers one request. -/
  answer : BinRequest → EStateM Stop σ Bool

/-- What a run leaves behind. -/
structure Outcome (σ ω α : Type) where
  /-- The value, or why there is none. -/
  result : Except Stop α
  /-- The items written, in order. -/
  written : List ω
  /-- The source of bins afterwards. -/
  state : σ

/-- Goes on where a run ended with a value. -/
def Outcome.andThen {σ ω α β : Type} (o : Outcome σ ω α) (next : α → σ → Outcome σ ω β) :
    Outcome σ ω β :=
  match o.result with
  | .ok a =>
    let rest := next a o.state
    { rest with written := o.written ++ rest.written }
  | .error stop => ⟨.error stop, o.written, o.state⟩

namespace BinTree

variable {σ ω α β γ : Type}

/-- Goes on with a second tree where the first one has a value. -/
def bind : BinTree ω α → (α → BinTree ω β) → BinTree ω β
  | .done a, f => f a
  | .refuse e value limit, _ => .refuse e value limit
  | .fault, _ => .fault
  | .write item rest, f => .write item (rest.bind f)
  | .ask request next, f => .ask request fun bin => (next bin).bind f

instance : Monad (BinTree ω) where
  pure := .done
  bind := bind

/-- A value that must be there. -/
def require : Option α → BinTree ω α
  | some a => .done a
  | none => .fault

/-- One bin of a context. -/
def symbol (context : Nat) : BinTree ω Bool := .ask (.symbol context) .done

/-- One bin of two contexts. -/
def blended (first second : Nat) : BinTree ω Bool := .ask (.blended first second) .done

/-- One bin at even odds. -/
def bypass : BinTree ω Bool := .ask .bypass .done

/-- Runs a tree on a source of bins. The first request that is not
answered ends the run. -/
def run [BinInput σ] : BinTree ω α → σ → Outcome σ ω α
  | .done a, s => ⟨.ok a, [], s⟩
  | .refuse e value limit, s => ⟨.error (.failed (.outOfRange e.name value limit)), [], s⟩
  | .fault, s => ⟨.error .fault, [], s⟩
  | .write item rest, s =>
    let o := rest.run s
    { o with written := item :: o.written }
  | .ask request next, s =>
    match BinInput.answer request s with
    | .ok bin s => (next bin).run s
    | .error stop s => ⟨.error stop, [], s⟩

/-- Runs a tree on a source of bins and writes its items behind those that
are there. The outcome has the whole list. -/
def runInto [BinInput σ] : BinTree ω α → List ω → σ → Outcome σ ω α
  | .done a, out, s => ⟨.ok a, out, s⟩
  | .refuse e value limit, out, s =>
    ⟨.error (.failed (.outOfRange e.name value limit)), out, s⟩
  | .fault, out, s => ⟨.error .fault, out, s⟩
  | .write item rest, out, s => rest.runInto (out ++ [item]) s
  | .ask request next, out, s =>
    match BinInput.answer request s with
    | .ok bin s => (next bin).runInto out s
    | .error stop s => ⟨.error stop, out, s⟩

theorem bind_assoc (t : BinTree ω α) (f : α → BinTree ω β) (g : β → BinTree ω γ) :
    (t.bind f).bind g = t.bind fun a => (f a).bind g := by
  induction t with
  | done a => rfl
  | refuse => rfl
  | fault => rfl
  | write item rest ih => simp [bind, ih]
  | ask request next ih => simp [bind, ih]

theorem bind_done (t : BinTree ω α) : t.bind .done = t := by
  induction t with
  | done a => rfl
  | refuse => rfl
  | fault => rfl
  | write item rest ih => simp [bind, ih]
  | ask request next ih => simp [bind, ih]

instance : LawfulMonad (BinTree ω) :=
  LawfulMonad.mk' (BinTree ω) bind_done (fun _ _ => rfl) bind_assoc

/-- **A tree built from two is run one after the other.** -/
theorem run_bind [BinInput σ] (t : BinTree ω α) (f : α → BinTree ω β) (s : σ) :
    (t.bind f).run s = (t.run s).andThen fun a s => (f a).run s := by
  induction t generalizing s with
  | done a => rfl
  | refuse => rfl
  | fault => rfl
  | write item rest ih =>
    simp only [bind, run, ih, Outcome.andThen]
    cases (rest.run s).result <;> rfl
  | ask request next ih =>
    simp only [bind, run]
    cases BinInput.answer request s with
    | ok bin s => exact ih bin s
    | error stop s => rfl

/-- A value that is there is the next one's. -/
@[simp] theorem require_some_bind (a : α) (f : α → BinTree ω β) : (require (some a) >>= f) = f a :=
  rfl

/-- **Items are written behind those that are there**, which make no
difference to anything else. -/
theorem runInto_eq [BinInput σ] (t : BinTree ω α) (out : List ω) (s : σ) :
    t.runInto out s = ⟨(t.run s).result, out ++ (t.run s).written, (t.run s).state⟩ := by
  induction t generalizing out s with
  | done a => rw [runInto, run, List.append_nil]
  | refuse => rw [runInto, run, List.append_nil]
  | fault => rw [runInto, run, List.append_nil]
  | write item rest ih => rw [runInto, run, ih, List.append_assoc, List.singleton_append]
  | ask request next ih =>
    rw [runInto, run]
    cases BinInput.answer request s with
    | ok bin s => exact ih bin out s
    | error stop s => simp only [List.append_nil]

end BinTree

/-! ## A tape of bins -/

/-- Answers in the order they are given. -/
structure BinTape where
  /-- The bins not given yet. -/
  bins : List Bool
  /-- The requests so far. -/
  requests : Array BinRequest
  deriving DecidableEq

namespace BinTape

/-- A tape at its start. -/
def ofList (bins : List Bool) : BinTape := ⟨bins, #[]⟩

/-- The tape with its memory of requests cleared. -/
def forget (t : BinTape) : BinTape := { t with requests := #[] }

instance : BinInput BinTape where
  answer request := fun t =>
    match t.bins with
    | [] => .error (.failed .endOfStream) ⟨[], t.requests.push request⟩
    | bin :: bins => .ok bin ⟨bins, t.requests.push request⟩

end BinTape

end AvsEntropy
