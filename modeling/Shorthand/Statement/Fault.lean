import Shorthand.Error

/-!
# Unreadable tokens

What can go wrong where a statement should be read, and at which token.
-/

namespace Shorthand.Statement

open Text (Span)

/-- What is wrong. -/
inductive Cause
  | unterminatedQuote
  | unclosedGroup
  | unmatchedGroupClose
  | unexpectedToken (found : Token.Kind)
  | malformedAttribute
  | unexpectedSelfClosing
deriving Repr, DecidableEq

/-- What is wrong with a list of tokens, and from which token on. -/
structure Fault where
  cause : Cause
  /-- The tokens from the faulty one on, or none if the fault is that they end. -/
  rest : List Token
deriving Repr, DecidableEq

namespace Fault

/-- The bytes of the faulty token, or the place behind the last of all `tokens`. -/
def span (tokens : List Token) (fault : Fault) : Span :=
  match fault.rest with
  | token :: _ => token.span
  | [] => { offset := (tokens.getLast?.map Token.stop).getD 0, length := 0 }

/-- The error for a fault in `tokens`. -/
def error (tokens : List Token) (fault : Fault) : Error :=
  let span := fault.span tokens
  match fault.cause with
  | .unterminatedQuote => .unterminatedQuote span
  | .unclosedGroup => .unclosedGroup span
  | .unmatchedGroupClose => .unmatchedGroupClose span
  | .unexpectedToken found => .unexpectedToken found span
  | .malformedAttribute => .malformedAttribute span
  | .unexpectedSelfClosing => .unexpectedSelfClosing span

end Fault

end Shorthand.Statement
