import Shorthand.Error

/-!
# Unreadable characters

What can go wrong where a token should be read, and where in the source that is.
-/

namespace Shorthand

open Text (Span width)

/-- Why no token can be read. -/
inductive Token.Fault
  /-- No token begins with `c`. -/
  | unexpectedCharacter (c : Char) (rest : List Char)
  /-- The field that begins with `read` does not go on with its closing brace. -/
  | unclosedField (read rest : List Char)
  /-- The brace before `rest`, in the placeholder of a field, is never closed. -/
  | unclosedBrace (rest : List Char)
deriving Repr, DecidableEq

namespace Token.Fault

/-- The source from the faulty place on. -/
def remaining : Fault → List Char
  | .unexpectedCharacter c rest => c :: rest
  | .unclosedField read rest => read ++ rest
  | .unclosedBrace rest => rest

/-- The characters to mark as faulty. -/
def marked : Fault → List Char
  | .unexpectedCharacter c _ => [c]
  | .unclosedField read _ => read
  | .unclosedBrace rest => rest.take 1

/-- Where in `source` the fault lies. -/
def span (source : List Char) (fault : Fault) : Span :=
  { offset := width source - width fault.remaining, length := width fault.marked }

/-- The error for a fault in `source`. -/
def error (source : List Char) (fault : Fault) : Error :=
  match fault with
  | .unexpectedCharacter c _ => .unexpectedCharacter c (fault.span source)
  | .unclosedField .. => .unterminatedField (fault.span source)
  | .unclosedBrace _ => .unterminatedField (fault.span source)

end Token.Fault

end Shorthand
