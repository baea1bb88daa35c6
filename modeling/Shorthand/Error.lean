import Shorthand.Token.Printer

/-!
# Errors

Everything that can be wrong with an abbreviation or with an options document, where it was
noticed, and the words for it.
-/

namespace Shorthand

open Text (Span)

/-- Why an abbreviation, or a document with options, was refused. -/
inductive Error
  /-- A character that no token begins with. -/
  | unexpectedCharacter (character : Char) (span : Span)
  /-- A field without its closing brace. -/
  | unterminatedField (span : Span)
  /-- A quoted value without its closing mark. -/
  | unterminatedQuote (span : Span)
  /-- A group that is not closed where it has to be. -/
  | unclosedGroup (span : Span)
  /-- A closing bracket without a group. -/
  | unmatchedGroupClose (span : Span)
  /-- A token that fits nowhere. -/
  | unexpectedToken (found : Token.Kind) (span : Span)
  /-- An equals sign where an attribute should begin. -/
  | malformedAttribute (span : Span)
  /-- A closing indicator without an element. -/
  | unexpectedSelfClosing (span : Span)
  /-- A document that holds no options. -/
  | optionsRejected
deriving Repr, DecidableEq

namespace Error

/-- Where the error was noticed. A refused document has no such place. -/
def span? : Error → Option Span
  | .unexpectedCharacter _ span => some span
  | .unterminatedField span => some span
  | .unterminatedQuote span => some span
  | .unclosedGroup span => some span
  | .unmatchedGroupClose span => some span
  | .unexpectedToken _ span => some span
  | .malformedAttribute span => some span
  | .unexpectedSelfClosing span => some span
  | .optionsRejected => none

/-- What is wrong, without the place. -/
def summary : Error → String
  | .unexpectedCharacter character _ => "unexpected character `" ++ character.toString ++ "`"
  | .unterminatedField _ => "expecting `\x7d` to close field"
  | .unterminatedQuote _ => "unclosed quote"
  | .unclosedGroup _ => "expecting `)` to close group"
  | .unmatchedGroupClose _ => "unmatched `)`"
  | .unexpectedToken found _ => "unexpected " ++ found.describe
  | .malformedAttribute _ => "malformed attribute: unexpected `=`"
  | .unexpectedSelfClosing _ => "unexpected self-closing indicator"
  | .optionsRejected => "failed to parse expand options"

/-- The full message: what is wrong, and at which offset. -/
def message (error : Error) : String :=
  match error.span? with
  | some span => error.summary ++ " at " ++ Count.text span.offset
  | none => error.summary

/-- The stable code of the error. -/
def code : Error → String
  | .unexpectedCharacter .. => "abbrev::unexpected_character"
  | .unterminatedField _ => "abbrev::unterminated_field"
  | .unterminatedQuote _ => "abbrev::unterminated_quote"
  | .unclosedGroup _ => "abbrev::unclosed_group"
  | .unmatchedGroupClose _ => "abbrev::unmatched_group_close"
  | .unexpectedToken .. => "abbrev::unexpected_token"
  | .malformedAttribute _ => "abbrev::malformed_attribute"
  | .unexpectedSelfClosing _ => "abbrev::unexpected_self_closing"
  | .optionsRejected => "abbrev::config_parse"

/-- Advice on how to mend the input, where there is any. -/
def help? : Error → Option String
  | .unexpectedCharacter .. =>
    some "escape the character with `\\` or wrap it in a quoted attribute value"
  | .unmatchedGroupClose _ => some "remove the `)` or open a group with `(`"
  | .malformedAttribute _ => some "quote the value if it contains `=`, e.g. `[name=\"a=b\"]`"
  | .unexpectedSelfClosing _ => some "a `/` must follow an element, e.g. `img/`"
  | .optionsRejected => some "supported keys: text, variables, maxRepeat, jsx, href"
  | _ => none

/-- The caption of the marked place. -/
def label? : Error → Option String
  | .unexpectedCharacter .. => some "not valid here"
  | .unterminatedField _ => some "field starts here"
  | .unterminatedQuote _ => some "quote opened here"
  | .unclosedGroup _ => some "group needs to be closed here"
  | .unmatchedGroupClose _ => some "no group to close"
  | .unexpectedToken .. => some "unexpected"
  | .malformedAttribute _ => some "second `=`"
  | .unexpectedSelfClosing _ => some "nothing to close"
  | .optionsRejected => none

end Error

end Shorthand
