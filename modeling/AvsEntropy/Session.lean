import AvsEntropy.Bin.Tree
import AvsEntropy.Bits.ByteCursor
import AvsEntropy.Context.Table
import AvsEntropy.Query
import AvsEntropy.Range.Decoder

/-!
# Decoding sessions

A session decodes one slice: a range decoder and a table of contexts. It
is a source of bins. A bin of a context is decided by what the context
predicts, and then the context adapts to it; a bin of two contexts is
decided by both together, and both adapt. A decision that fails leaves
the contexts as they were.

A slice's code begins at a byte boundary. `Session.ofSlice` skips to it,
`Session.ofSource` starts where the source stands.
-/

namespace AvsEntropy

/-- The version of the library. -/
def version : String := "0.1.0"

/-- The decoding of a slice. -/
structure Session (σ : Type) where
  /-- Decides the bins. -/
  decoder : RangeDecoder σ
  /-- Predicts them. -/
  contexts : ContextTable

namespace Session

variable {σ : Type} [BitInput σ]

/-- A session that starts where a source stands. -/
def ofSource (source : σ) : Opening (Session σ) :=
  let o := RangeDecoder.openSource source
  ⟨o.result.map (⟨·, .fresh⟩), o.notices⟩

/-- A session that starts at the next byte boundary. -/
def ofSlice (cursor : ByteCursor) : Opening (Session ByteCursor) :=
  let o := ofSource cursor.align
  if cursor.misalignment = 0 then o
  else { o with notices := .aligned cursor.misalignment :: o.notices }

/-- Decides a bin as predicted, and lets the contexts learn from it. -/
def decideWith (prediction : Bool × Nat) (learn : Bool → ContextTable → Option ContextTable) :
    EStateM Stop (Session σ) Bool := fun s =>
  match RangeDecoder.decideBin prediction.1 prediction.2 s.decoder with
  | .ok bin decoder =>
    match learn bin s.contexts with
    | some contexts => .ok bin ⟨decoder, contexts⟩
    | none => .error .fault { s with decoder }
  | .error stop decoder => .error stop { s with decoder }

/-- A bin of one context. -/
def symbol (context : Nat) : EStateM Stop (Session σ) Bool := fun s =>
  match s.contexts.get? context with
  | some c =>
    decideWith (c.favored, c.probability) (fun bin table => table.train? context bin) s
  | none => .error .fault s

/-- A bin of two different contexts. -/
def blended (first second : Nat) : EStateM Stop (Session σ) Bool := fun s =>
  match (s.contexts.pair? first second).bind fun (a, b) => a.blend? b with
  | some prediction =>
    decideWith prediction (fun bin table => table.trainPair? first second bin bin) s
  | none => .error .fault s

/-- Lets the range decoder of a session decide a bin. -/
def decided (decision : EStateM Stop (RangeDecoder σ) Bool) : EStateM Stop (Session σ) Bool :=
  fun s =>
    match decision s.decoder with
    | .ok bin decoder => .ok bin { s with decoder }
    | .error stop decoder => .error stop { s with decoder }

/-- A bin at even odds, which no context learns from. -/
def bypass : EStateM Stop (Session σ) Bool := decided RangeDecoder.bypass

/-- The stuffing bit. -/
def stuffing : EStateM Stop (Session σ) Bool := decided RangeDecoder.stuffing

instance : BinInput (Session σ) where
  answer
    | .symbol context => symbol context
    | .blended first second => blended first second
    | .bypass => bypass

/-- What a session can be told to do. -/
inductive Command where
  /-- Read something. -/
  | query (q : Query)
  /-- Decide the stuffing bit. -/
  | stuffing
  deriving DecidableEq

/-- Does what it is told. -/
def perform (command : Command) (s : Session σ) : Outcome (Session σ) Coefficient Answer :=
  match command with
  | .query q => q.run s
  | .stuffing =>
    match stuffing s with
    | .ok bin s => ⟨.ok (.flag bin), [], s⟩
    | .error stop s => ⟨.error stop, [], s⟩

/-- What there is to say of a command that was carried out. -/
def Command.notices (command : Command) (o : Outcome (Session σ) Coefficient Answer) :
    List Notice :=
  match command with
  | .query q => q.notices o
  | .stuffing => []

end Session

end AvsEntropy
