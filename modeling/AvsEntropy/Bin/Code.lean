import AvsEntropy.Bin.Tree

/-!
# Codes of bins

The codes that syntax elements are built from: a unary code with a
limit, a unary code that is cut short at its largest value, and a
fixed number of bypass bins.

What a unary code asks for is computed from its counts. Where that may fail,
at a count that the code should not come to, it is `checkedUnary`; where it
cannot, `unary`.
-/

namespace AvsEntropy

namespace BinTree

variable {ω : Type}

/-- The end of a unary code whose count passed its limit: the count is
refused, if it still fits its word. -/
def overrun (element : Element) (limit : Nat) : BinTree ω Nat :=
  if limit + 1 < wordBound then .refuse element (limit + 1) limit else .fault

/-- A unary code that stands at `count` and may count `room` further. -/
def unaryFrom (element : Element) (stop : Bool) (request? : Nat → Option BinRequest) :
    Nat → Nat → BinTree ω Nat
  | 0, count => do
    let request ← require (request? count)
    .ask request fun bin => if bin = stop then .done count else overrun element count
  | room + 1, count => do
    let request ← require (request? count)
    .ask request fun bin =>
      if bin = stop then .done count else unaryFrom element stop request? room (count + 1)

/-- A unary code: counts from `first` until a bin is `stop`. The request
for a bin depends on the count so far, and must be known where it is made. A
count above `limit` is refused at once. -/
def checkedUnary (element : Element) (stop : Bool) (first limit : Nat)
    (request? : Nat → Option BinRequest) : BinTree ω Nat :=
  unaryFrom element stop request? (limit - first) first

/-- A unary code whose requests are known for all counts. -/
def unary (element : Element) (stop : Bool) (first limit : Nat) (request : Nat → BinRequest) :
    BinTree ω Nat :=
  checkedUnary element stop first limit fun count => some (request count)

/-- **Requests that are known from the first count on** are those of a plain
unary code. -/
theorem checkedUnary_eq {element : Element} {stop : Bool} {first limit : Nat}
    {request? : Nat → Option BinRequest} {request : Nat → BinRequest}
    (h : ∀ count, first ≤ count → request? count = some (request count)) :
    (checkedUnary element stop first limit request? : BinTree ω Nat) =
      unary element stop first limit request := by
  have key : ∀ room count, first ≤ count →
      (unaryFrom element stop request? room count : BinTree ω Nat) =
        unaryFrom element stop (fun count => some (request count)) room count := by
    intro room
    induction room with
    | zero =>
      intro count hfirst
      rw [unaryFrom, unaryFrom, h count hfirst]
    | succ room ih =>
      intro count hfirst
      rw [unaryFrom, unaryFrom, h count hfirst, ih (count + 1) (Nat.le_succ_of_le hfirst)]
  exact key (limit - first) first (Nat.le_refl first)

/-- A truncated unary code that stands at `count` and may count `room`
further. -/
def truncatedUnaryFrom (stop : Bool) (request : Nat → BinRequest) : Nat → Nat → BinTree ω Nat
  | 0, count => .done count
  | room + 1, count => .ask (request count) fun bin =>
    if bin = stop then .done count else truncatedUnaryFrom stop request room (count + 1)

/-- A truncated unary code: counts until a bin is `stop`, and needs no
such bin once it has counted to `limit`. -/
def truncatedUnary (stop : Bool) (limit : Nat) (request : Nat → BinRequest) : BinTree ω Nat :=
  truncatedUnaryFrom stop request limit 0

/-- Appends `count` bypass bins below `value`, in a word of 32 bits. -/
def bypassBitsFrom : Nat → Nat → BinTree ω Nat
  | 0, value => .done value
  | count + 1, value => .ask .bypass fun bin =>
    bypassBitsFrom count ((2 * value + bin.toNat) % wordBound)

/-- A number of `count` bypass bins, most significant bin first. Of more
than 32 bins the first are lost. -/
def bypassBits (count : Nat) : BinTree ω Nat := bypassBitsFrom count 0

end BinTree

end AvsEntropy
