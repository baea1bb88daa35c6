import Shorthand.Text.CharClass
import Shorthand.Token.Basic

/-!
# Nesting while reading tokens

The same character is an operator between elements, plain text inside quotes, and again something
else inside an attribute set or a braced text. The context records what is open.
-/

namespace Shorthand

/-- What is open where a token begins. -/
structure Context where
  /-- How many attribute sets are open. -/
  sets : Nat := 0
  /-- How many braces are open. -/
  braces : Nat := 0
  /-- The mark of the quoted value that is open. -/
  quote : Option QuoteMark := none
deriving Repr, DecidableEq

namespace Context

/-- Nothing is open: the context between elements. -/
def isBare (context : Context) : Bool :=
  context.quote.isNone && context.sets == 0 && context.braces == 0

/-- Fields are read only inside texts and attribute sets. -/
def allowsField (context : Context) : Bool :=
  context.braces != 0 || context.sets != 0

/-- Whether `c` has its meaning as an operator. No operator has inside quotes or braces, and inside
an attribute set only the equals sign. -/
def allowsOperator (context : Context) (c : Char) : Bool :=
  match Operator.ofChar? c with
  | none => false
  | some operator =>
    context.quote.isNone && context.braces == 0 &&
      (context.sets == 0 || operator == .equal)

/-- The context behind a token. A quotation mark closes the value that the same mark opened, and
closing brackets beyond the opened ones count for nothing. -/
def after (context : Context) : Token.Kind → Context
  | .quote mark => { context with quote := if context.quote = some mark then none else some mark }
  | .bracket .attributes true => { context with sets := context.sets + 1 }
  | .bracket .attributes false => { context with sets := context.sets - 1 }
  | .bracket .expression true => { context with braces := context.braces + 1 }
  | .bracket .expression false => { context with braces := context.braces - 1 }
  | _ => context

end Context

/-- A token split off a source: what it is, the characters it covers, and the source behind it. -/
structure Reading where
  kind : Token.Kind
  /-- The characters of the token. -/
  text : List Char
  /-- The characters behind the token. -/
  rest : List Char
deriving Repr, DecidableEq

/-- The reading splits `source` behind at least one character. -/
def Reading.Splits (reading : Reading) (source : List Char) : Prop :=
  reading.text ++ reading.rest = source ∧ reading.text ≠ []

/-- What follows a token is shorter than what it was split off. -/
theorem Reading.Splits.length_rest_lt {reading : Reading} {source : List Char}
    (h : reading.Splits source) : reading.rest.length < source.length := by
  have := List.length_pos_iff.2 h.2
  rw [← h.1, List.length_append]
  omega

end Shorthand
