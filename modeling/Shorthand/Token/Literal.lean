import Shorthand.Token.Context

/-!
# Literals

Plain text. Where it ends depends on the context: between elements at the first character that no
name may hold, in an attribute set at white space, quotes, brackets and the equals sign, inside
quotes only at the closing mark, and inside braces at the brace that closes them. A dollar sign ends
it everywhere. A backslash makes the character behind it plain.

Braces that open inside a braced text belong to the text. Those that are still open when a dollar
sign interrupts the text stay open in the context.
-/

namespace Shorthand.Literal

/-- A run of plain text, and how many braces it leaves open. -/
structure Run where
  /-- The text without the escaping backslashes. -/
  value : List Char
  /-- The characters read. -/
  text : List Char
  /-- The characters behind the run. -/
  rest : List Char
  /-- How many of the braces opened in the run are not closed in it. -/
  opened : Nat
deriving Repr, DecidableEq

namespace Run

/-- The run that ends before `rest`. -/
def stop (opened : Nat) (rest : List Char) : Run :=
  { value := [], text := [], rest, opened }

/-- Puts a plain character in front. -/
def keep (run : Run) (c : Char) : Run :=
  { run with value := c :: run.value, text := c :: run.text }

/-- Puts an escaped character in front. -/
def escape (run : Run) (c : Char) : Run :=
  { run with value := c :: run.value, text := '\\' :: c :: run.text }

end Run

/-- Whether a slash belongs to the text: between elements it does between two digits, as in
`col-1/2`. -/
def isFraction (context : Context) (before : Option Char) (c : Char) (cs : List Char) : Bool :=
  c == '/' && context.isBare && before.any Text.isDigit && cs.head?.any Text.isDigit

/-- Whether plain text ends before the character `c`, with `opened` braces open inside it. -/
def endsBefore (context : Context) (opened : Nat) (c : Char) : Bool :=
  context.quote.any (·.glyph == c) || c == '$' || context.allowsOperator c ||
    -- Where braces are open, a brace that closes them ends the text inside quotes too.
    if context.braces != 0 then c == '}' && opened == 0
    else if context.quote.isSome then false
    else if context.sets == 0 then !Text.isNameChar c
    else Text.isSpace c || Text.isQuote c || (Bracket.ofChar? c).isSome

/-- The number of open braces behind the character `c` of a text. Only a braced text counts them. -/
def countBraces (context : Context) (opened : Nat) (c : Char) : Nat :=
  if context.braces == 0 then opened
  else if c == '{' then opened + 1
  else if c == '}' then opened - 1
  else opened

/-- The plain text with which a source begins, given the character before the source and the number
of braces open inside the text so far. -/
def run (context : Context) : Option Char → Nat → List Char → Run
  | _, opened, [] => .stop opened []
  | before, opened, c :: cs =>
    if c = '\\' then
      match cs with
      -- With nothing behind it to escape, a backslash stands for itself.
      | [] => (Run.stop opened []).keep '\\'
      | escaped :: cs => (run context (some escaped) opened cs).escape escaped
    else if isFraction context before c cs || !endsBefore context opened c then
      (run context (some c) (countBraces context opened c) cs).keep c
    else .stop opened (c :: cs)

/-- The literal with which a source begins, and the context behind it. -/
def read? (context : Context) (before : Option Char) (source : List Char) :
    Option (Reading × Context) :=
  let run := run context before 0 source
  if run.text.isEmpty then none
  else
    some ({ kind := .literal (String.ofList run.value), text := run.text, rest := run.rest },
      { context with braces := context.braces + run.opened })

/-- A run loses no character of the source. -/
theorem run_text_append_rest (context : Context) (before : Option Char) (opened : Nat)
    (source : List Char) :
    (run context before opened source).text ++ (run context before opened source).rest =
      source := by
  fun_induction run context before opened source <;>
    simp_all [Run.stop, Run.keep, Run.escape]

/-- A literal is split off the source. -/
theorem splits_of_read? {context : Context} {before : Option Char} {source : List Char}
    {reading : Reading} {next : Context} (h : read? context before source = some (reading, next)) :
    reading.Splits source := by
  simp only [read?] at h
  split at h
  next => cases h
  next hne =>
    cases h
    exact ⟨run_text_append_rest context before 0 source, by simpa using hne⟩

end Shorthand.Literal
