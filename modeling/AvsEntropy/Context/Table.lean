import AvsEntropy.Context.Basic
import AvsEntropy.Element.Basic

/-!
# The table of contexts

One context for every index below `contextCount`. Reading, replacing and
training are partial: an index outside the table has no context, and two
contexts are trained together only if they are two.
-/

namespace AvsEntropy

/-- The contexts of a decoding session. -/
structure ContextTable where
  /-- One context per index. -/
  contexts : Vector Context contextCount
  deriving DecidableEq

namespace ContextTable

/-- A table that has seen nothing. -/
def fresh : ContextTable := ⟨Vector.replicate contextCount .fresh⟩

/-- The context at an index. -/
def get? (t : ContextTable) (index : Nat) : Option Context := t.contexts[index]?

/-- The table with a context replaced. -/
def set? (t : ContextTable) (index : Nat) (c : Context) : Option ContextTable :=
  if h : index < contextCount then some ⟨t.contexts.set index c h⟩ else none

/-- The table after a symbol of one of its contexts. -/
def train? (t : ContextTable) (index : Nat) (bin : Bool) : Option ContextTable := do
  let c ← t.get? index
  t.set? index (← c.adapt? bin)

/-- Two different contexts. -/
def pair? (t : ContextTable) (first second : Nat) : Option (Context × Context) :=
  if first = second then none
  else do return (← t.get? first, ← t.get? second)

/-- The table after a symbol for each of two different contexts. -/
def trainPair? (t : ContextTable) (first second : Nat) (binFirst binSecond : Bool) :
    Option ContextTable :=
  if first = second then none
  else do (← t.train? first binFirst).train? second binSecond

/-- The contexts of a syntax element. -/
def ofElement (t : ContextTable) (e : Element) : List Context :=
  (t.contexts.toList.drop e.start).take e.size

/-- The contexts that differ from those of an earlier table, with their
indices. -/
def changesFrom (t before : ContextTable) : List (Nat × Context) :=
  (List.range contextCount).filterMap fun i =>
    if t.get? i = before.get? i then none else (t.get? i).map (i, ·)

end ContextTable

end AvsEntropy
