import Shorthand.Count
import Shorthand.Token.Basic

/-!
# Text of tokens

The text by which a token is written in its normal form, and the words by which an error message
names it. The normal form writes no more than it must: numbering shows its modifiers only where
one differs from its default, and a tab stop shows its placeholder only if there is one.
-/

namespace Shorthand

/-- A decimal number. -/
def Count.text (n : Nat) : String :=
  String.ofList (Count.digits n)

/-- A repeater as it is written. -/
def Repeater.text (repeater : Repeater) : String :=
  if repeater.implicit then "*" else "*" ++ Count.text repeater.count

/-- The modifiers of numbering, from the `@` on. -/
def Numbering.modifiers (numbering : Numbering) : String :=
  "@" ++ String.ofList (List.replicate numbering.climb '^') ++
    (if numbering.reverse then "-" else "") ++
    (if numbering.base = 1 then "" else Count.text numbering.base)

/-- Numbering as it is written. -/
def Numbering.text (numbering : Numbering) : String :=
  String.ofList (List.replicate numbering.size '$') ++
    if numbering.reverse || numbering.base != 1 || numbering.climb != 0 then numbering.modifiers
    else ""

/-- A field as it is written. -/
def Field.text : Field → String
  | .tabStop index placeholder =>
    "$\x7b" ++ Count.text index ++ (if placeholder.isEmpty then "" else ":" ++ placeholder) ++
      "\x7d"
  | .reference name => "$\x7b" ++ name ++ "\x7d"

/-- Whether the field is a tab stop. -/
def Field.isTabStop : Field → Bool
  | .tabStop .. => true
  | .reference _ => false

namespace Token.Kind

/-- A token as it is written. Text comes without escaping backslashes. -/
def text : Kind → String
  | .literal value => value
  | .blank value => value
  | .quote mark => String.singleton mark.glyph
  | .bracket b opening => String.singleton (b.glyph opening)
  | .operator op => String.singleton op.glyph
  | .repeater r => r.text
  | .numbering n => n.text
  | .placeholder => "$#"
  | .field f => f.text

/-- A short name of the token for error messages. -/
def describe : Kind → String
  | .literal value => "literal `" ++ value ++ "`"
  | .blank _ => "white space"
  | .placeholder => "repeater placeholder `$#`"
  | .numbering _ => "numbering token"
  | .field _ => "field"
  | kind => "`" ++ kind.text ++ "`"

end Token.Kind

end Shorthand
