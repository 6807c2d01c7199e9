/-!
# How reading stops

A read stops for one of two reasons. A `DecodeError` is an answer: the
bits ran out, a decoded value is too large, or an argument is out of
its stated domain. A `Stop.fault` is no answer at all: the caller broke
a precondition, or a number left its word. The wording of every
error is in `DecodeError.message` and nowhere else.

Numbers are checked where they could leave their words. A difference
below zero and a sum past its bound are no numbers (`difference?`,
`sum?`), and what is computed from them is not either.
-/

namespace AvsEntropy

/-- An argument outside its stated domain. -/
inductive Misuse where
  /-- A word of more than 32 bits was asked for. -/
  | wideWord (bits : Nat)
  /-- A decision was asked for at a probability state outside `4..1023`. -/
  | probability (state : Nat)
  /-- Any other reason, in words. -/
  | other (text : String)
  deriving DecidableEq, Repr

/-- The reason in words. -/
def Misuse.text : Misuse → String
  | .wideWord bits => s!"read_bits: n={bits} 超过 32 位"
  | .probability state => s!"lg_pmps 越界: {state}, 有效范围 4..=1023"
  | .other text => text

/-- Why a read fails. -/
inductive DecodeError where
  /-- An argument is outside its domain; nothing was read. -/
  | invalidArgument (cause : Misuse)
  /-- The bits, or the scripted bins, ran out. -/
  | endOfStream
  /-- A decoded value exceeds the limit of its syntax element. -/
  | outOfRange (element : String) (value limit : Nat)
  /-- The bits could not be fetched. -/
  | io (text : String)
  deriving DecidableEq, Repr

namespace DecodeError

/-- The error as a message. -/
def message : DecodeError → String
  | .invalidArgument cause => s!"无效参数: {cause.text}"
  | .endOfStream => "已到达流末尾"
  | .outOfRange element value limit => s!"语法元素越界: {element}={value}, 上限 {limit}"
  | .io text => s!"I/O 错误: {text}"

/-- Whether the bits ran out. -/
def isEndOfStream : DecodeError → Bool
  | .endOfStream => true
  | _ => false

/-- Whether a decoded value was too large. -/
def isOutOfRange : DecodeError → Bool
  | .outOfRange .. => true
  | _ => false

end DecodeError

/-- How a computation ends without a value. -/
inductive Stop where
  /-- With an error, which leaves the decoder usable. -/
  | failed (error : DecodeError)
  /-- On a broken precondition; nothing is promised afterwards. -/
  | fault
  deriving DecidableEq, Repr

/-! ## Numbers in words -/

/-- The bound of every counter: a scale or a count that reaches it does
not fit its 32-bit word. -/
def wordBound : Nat := 4294967296

/-- The bound of a word of 16 bits. -/
def halfBound : Nat := 65536

/-- The bound of a word of eight bits. -/
def byteBound : Nat := 256

/-- The bound of the magnitude of a signed number in 32 bits. -/
def signedBound : Nat := 2147483648

/-- A difference, unless it lies below zero. -/
def difference? (a b : Nat) : Option Nat := if b ≤ a then some (a - b) else none

/-- A sum, unless it reaches the bound of its word. -/
def sum? (bound a b : Nat) : Option Nat := if a + b < bound then some (a + b) else none

/-- A magnitude with its sign, unless it does not fit a signed word. -/
def signed? (negative : Bool) (magnitude : Nat) : Option Int :=
  if magnitude < signedBound then some (if negative then -(magnitude : Int) else magnitude)
  else none

theorem difference?_eq_some {a b n : Nat} : difference? a b = some n ↔ b ≤ a ∧ a - b = n := by
  rw [difference?, Option.ite_none_right_eq_some, Option.some.injEq]

theorem sum?_eq_some {bound a b n : Nat} : sum? bound a b = some n ↔ a + b < bound ∧ a + b = n := by
  rw [sum?, Option.ite_none_right_eq_some, Option.some.injEq]

theorem signed?_eq_some {negative : Bool} {magnitude : Nat} {value : Int} :
    signed? negative magnitude = some value ↔
      magnitude < signedBound ∧ (if negative then -(magnitude : Int) else magnitude) = value := by
  rw [signed?, Option.ite_none_right_eq_some, Option.some.injEq]

theorem difference?_of_le {a b : Nat} (h : b ≤ a) : difference? a b = some (a - b) := if_pos h

theorem sum?_of_lt {bound a b : Nat} (h : a + b < bound) : sum? bound a b = some (a + b) :=
  if_pos h

theorem signed?_of_lt (negative : Bool) {magnitude : Nat} (h : magnitude < signedBound) :
    signed? negative magnitude = some (if negative then -(magnitude : Int) else magnitude) :=
  if_pos h

end AvsEntropy
