import Shorthand.Token.Atom
import Shorthand.Token.FieldReader
import Shorthand.Token.Literal

/-!
# Tokens of an abbreviation

Splits an abbreviation into tokens, from left to right and without a gap. At each place a field is
tried first, then an atom, a literal, an operator, a quotation mark and a bracket; the context says
which characters are plain.

* `splits_of_readNext`: each step splits a token off the source.
-/

namespace Shorthand

open Text (width)

namespace Token

/-- An operator, a quotation mark or a bracket: the tokens of one character. -/
def readGlyph? (c : Char) (cs : List Char) : Option Reading :=
  let kind? : Option Kind :=
    match Operator.ofChar? c, QuoteMark.ofChar? c, Bracket.ofChar? c with
    | some operator, _, _ => some (.operator operator)
    | none, some mark, _ => some (.quote mark)
    | none, none, some (bracket, opening) => some (.bracket bracket opening)
    | none, none, none => none
  kind?.map fun kind => { kind, text := [c], rest := cs }

/-- The token with which the source `c :: cs` begins, and the context behind it. `before` is the
character before the source. -/
def readNext (context : Context) (before : Option Char) (c : Char) (cs : List Char) :
    Except Fault (Reading × Context) :=
  -- A field that is not closed is a fault, and is not read as anything else.
  if context.allowsField && c == '$' && cs.head? == some '{' then
    (Field.read cs.tail).map fun reading => (reading, context.after reading.kind)
  else
    match Atom.read? c cs with
    | some reading => .ok (reading, context.after reading.kind)
    | none =>
      match Literal.read? context before (c :: cs) with
      | some result => .ok result
      | none =>
        match readGlyph? c cs with
        | some reading => .ok (reading, context.after reading.kind)
        | none => .error (.unexpectedCharacter c cs)

theorem splits_of_readGlyph? {c : Char} {cs : List Char} {reading : Reading}
    (h : readGlyph? c cs = some reading) : reading.Splits (c :: cs) := by
  simp only [readGlyph?, Option.map_eq_some_iff] at h
  obtain ⟨kind, -, rfl⟩ := h
  simp [Reading.Splits]

/-- Each step splits a token off the source. -/
theorem splits_of_readNext {context next : Context} {before : Option Char} {c : Char}
    {cs : List Char} {reading : Reading}
    (h : readNext context before c cs = .ok (reading, next)) : reading.Splits (c :: cs) := by
  unfold readNext at h
  split at h
  next hfield =>
    simp only [Bool.and_eq_true, beq_iff_eq] at hfield
    obtain ⟨⟨-, rfl⟩, hbrace⟩ := hfield
    obtain ⟨body, rfl⟩ := List.head?_eq_some_iff.1 hbrace
    rw [List.tail_cons] at h
    obtain ⟨field, hread, heq⟩ := Except.map_eq_ok_iff.1 h
    cases heq
    exact Field.splits_of_read hread
  next =>
    split at h
    next hatom => cases h; exact Atom.splits_of_read? hatom
    next =>
      split at h
      next hliteral => cases h; exact Literal.splits_of_read? hliteral
      next =>
        split at h
        next hglyph => cases h; exact splits_of_readGlyph? hglyph
        next => cases h

/-- A token without its place: what it is, the characters it covers, and the context in which it
was read. -/
structure Lexeme where
  kind : Kind
  /-- The characters of the source that the token covers. -/
  text : List Char
  /-- What is open where the token begins. -/
  context : Context
deriving Repr, DecidableEq

/-- The tokens of `source`, read in `context` behind the character `before`. -/
def readAll (context : Context) (before : Option Char) (source : List Char) :
    Except Fault (List Lexeme) :=
  match source with
  | [] => .ok []
  | c :: cs =>
    match h : readNext context before c cs with
    | .error fault => .error fault
    | .ok (reading, next) =>
      have := (splits_of_readNext h).length_rest_lt
      (readAll next reading.text.getLast? reading.rest).map
        ({ kind := reading.kind, text := reading.text, context } :: ·)
termination_by source.length
decreasing_by exact this

/-- Gives each token its place; the first begins at `offset`. -/
def place (offset : Nat) : List Lexeme → List Token
  | [] => []
  | lexeme :: lexemes =>
    let stop := offset + width lexeme.text
    { kind := lexeme.kind, start := offset, stop } :: place stop lexemes

/-- The tokens of an abbreviation. -/
def tokenize (abbreviation : String) : Except Error (List Token) :=
  let source := abbreviation.toList
  match readAll {} none source with
  | .ok lexemes => .ok (place 0 lexemes)
  | .error fault => .error (fault.error source)

end Token

end Shorthand
