import Shorthand.Statement.Fault

/-!
# Values in tokens

The runs of tokens that make up a value: a quoted one between two equal marks, an unquoted one up to
white space or an operator, and a text between braces.

* `readQuoted?_append`, `readUnquoted_append`: these values and what follows them are the tokens.
* `readText?_length_lt`: what follows a text is shorter than the tokens.
-/

namespace Shorthand.Statement

/-! ### Quoted values -/

/-- The tokens up to the first `mark`, with it, and those behind it. -/
def readThroughQuote? (mark : QuoteMark) : List Token → Option (List Token × List Token)
  | [] => none
  | token :: tokens =>
    if token.kind = .quote mark then some ([token], tokens)
    else (readThroughQuote? mark tokens).map fun (value, rest) => (token :: value, rest)

/-- The quoted value with which the tokens begin, with both marks. -/
def readQuoted? : List Token → Except Fault (Option (List Token × List Token))
  | [] => .ok none
  | token :: tokens =>
    match token.kind with
    | .quote mark =>
      match readThroughQuote? mark tokens with
      | some (value, rest) => .ok (some (token :: value, rest))
      | none => .error { cause := .unterminatedQuote, rest := token :: tokens }
    | _ => .ok none

/-! ### Unquoted values -/

/-- How many brackets of each kind are open inside a value. -/
abbrev Depths := Bracket → Nat

/-- The depths behind a bracket. -/
def Depths.after (depths : Depths) (bracket : Bracket) (opening : Bool) : Depths := fun b =>
  if b = bracket then if opening then depths b + 1 else depths b - 1 else depths b

/-- The depths behind a token of an unquoted value, or `none` if the value ends before it. Inside
braces everything belongs to the value. Elsewhere quotes, operators, white space and repeaters end
it, and so does a bracket, unless `brackets` are allowed and it closes no more than was opened. -/
def unquotedAfter? (brackets : Bool) (depths : Depths) : Token.Kind → Option Depths
  | .bracket bracket opening =>
    if depths .expression ≠ 0 then
      -- Only braces count between braces: other brackets there need not match.
      some (if bracket = .expression then depths.after bracket opening else depths)
    else if brackets && (opening || depths bracket != 0) then some (depths.after bracket opening)
    else none
  | .quote _ | .operator _ | .blank _ | .repeater _ =>
    if depths .expression ≠ 0 then some depths else none
  | _ => some depths

/-- The unquoted value with which the tokens begin, possibly empty, and the tokens behind it. -/
def readUnquoted (brackets : Bool) (depths : Depths) : List Token → List Token × List Token
  | [] => ([], [])
  | token :: tokens =>
    match unquotedAfter? brackets depths token.kind with
    | some depths =>
      let (value, rest) := readUnquoted brackets depths tokens
      (token :: value, rest)
    | none => ([], token :: tokens)

/-- The unquoted value of at least one token with which the tokens begin. -/
def readUnquoted? (brackets : Bool) (tokens : List Token) : Option (List Token × List Token) :=
  let (value, rest) := readUnquoted brackets (fun _ => 0) tokens
  if value.isEmpty then none else some (value, rest)

/-- The quoted or unquoted value with which the tokens begin. -/
def readValue? (tokens : List Token) : Except Fault (Option (List Token × List Token)) :=
  match readQuoted? tokens with
  | .error fault => .error fault
  | .ok (some result) => .ok (some result)
  | .ok none => .ok (readUnquoted? true tokens)

/-! ### Texts -/

/-- The tokens up to the brace that closes `depth` braces and one more, with it, and those behind
it. Without such a brace these are all tokens. -/
def readThroughBrace (depth : Nat) : List Token → List Token × List Token
  | [] => ([], [])
  | token :: tokens =>
    match token.kind, depth with
    | .bracket .expression false, 0 => ([token], tokens)
    | .bracket .expression false, depth + 1 =>
      let (body, rest) := readThroughBrace depth tokens
      (token :: body, rest)
    | .bracket .expression true, depth =>
      let (body, rest) := readThroughBrace (depth + 1) tokens
      (token :: body, rest)
    | _, depth =>
      let (body, rest) := readThroughBrace depth tokens
      (token :: body, rest)

/-- The tokens without a token of the given kind at their end. -/
def dropFinal (kind : Token.Kind) (tokens : List Token) : List Token :=
  if tokens.getLast?.any (·.kind == kind) then tokens.dropLast else tokens

/-- The braced text with which the tokens begin, without its braces, and the tokens behind it. The
closing brace may be missing. -/
def readText? : List Token → Option (List Token × List Token)
  | { kind := .bracket .expression true, .. } :: tokens =>
    let (body, rest) := readThroughBrace 0 tokens
    some (dropFinal (.bracket .expression false) body, rest)
  | _ => none

/-! ### Nothing is lost -/

theorem readThroughQuote?_append {mark : QuoteMark} {tokens value rest : List Token}
    (h : readThroughQuote? mark tokens = some (value, rest)) : value ++ rest = tokens := by
  induction tokens generalizing value with
  | nil => simp [readThroughQuote?] at h
  | cons token tokens ih =>
    rw [readThroughQuote?] at h
    split at h
    next => cases h; rfl
    next =>
      simp only [Option.map_eq_some_iff, Prod.exists, Prod.mk.injEq] at h
      obtain ⟨value, rest, h, rfl, rfl⟩ := h
      simp [ih h]

theorem readQuoted?_append {tokens value rest : List Token}
    (h : readQuoted? tokens = .ok (some (value, rest))) : value ++ rest = tokens ∧ value ≠ [] := by
  unfold readQuoted? at h
  split at h
  next => cases h
  next =>
    split at h
    next =>
      split at h
      next hquote => cases h; simp [readThroughQuote?_append hquote]
      next => cases h
    next => cases h

theorem readUnquoted_append (brackets : Bool) (depths : Depths) (tokens : List Token) :
    (readUnquoted brackets depths tokens).1 ++ (readUnquoted brackets depths tokens).2 =
      tokens := by
  fun_induction readUnquoted brackets depths tokens <;> simp_all

theorem readUnquoted?_append {brackets : Bool} {tokens value rest : List Token}
    (h : readUnquoted? brackets tokens = some (value, rest)) :
    value ++ rest = tokens ∧ value ≠ [] := by
  have happend := readUnquoted_append brackets (fun _ => 0) tokens
  simp only [readUnquoted?] at h
  split at h
  next => cases h
  next hne => cases h; exact ⟨happend, by simpa using hne⟩

theorem readValue?_append {tokens value rest : List Token}
    (h : readValue? tokens = .ok (some (value, rest))) : value ++ rest = tokens ∧ value ≠ [] := by
  unfold readValue? at h
  split at h
  next => cases h
  next hquoted => cases h; exact readQuoted?_append hquoted
  next => exact readUnquoted?_append (Except.ok.inj h)

theorem readThroughBrace_append (depth : Nat) (tokens : List Token) :
    (readThroughBrace depth tokens).1 ++ (readThroughBrace depth tokens).2 = tokens := by
  fun_induction readThroughBrace depth tokens <;> simp_all

/-- What follows a text is shorter than the tokens. -/
theorem readText?_length_lt {tokens value rest : List Token}
    (h : readText? tokens = some (value, rest)) : rest.length < tokens.length := by
  unfold readText? at h
  split at h
  next tokens =>
    cases h
    have happend := congrArg List.length (readThroughBrace_append 0 tokens)
    simp only [List.length_append] at happend
    simp only [List.length_cons]
    omega
  next => cases h

end Shorthand.Statement
