import Shorthand.Statement.ElementReader
import Shorthand.Token.Lexer

/-!
# Statements of an abbreviation

Reads tokens into statements. Each level, the whole abbreviation or the inside of a group, keeps the
statements that are open around the place that has been reached. The operator behind a statement
opens it or closes some of those, and a statement is put below the one around it once it is closed.
-/

namespace Shorthand.Statement

/-- How the next statement stands to the one before it. -/
inductive Link
  /-- One level deeper. -/
  | below
  /-- On the same level. -/
  | beside
  /-- A number of levels further out. -/
  | climb (levels : Nat)
deriving Repr, DecidableEq

/-- The link with which the tokens begin, and the tokens behind it. Statements without an operator
between them stand beside each other. -/
def readLink : List Token → Link × List Token
  | [] => (.beside, [])
  | token :: tokens =>
    if token.kind = .operator .child then (.below, tokens)
    else if token.kind = .operator .sibling then (.beside, tokens)
    else if token.kind = .operator .climb then
      let more := tokens.takeWhile (·.kind == .operator .climb)
      (.climb (more.length + 1), tokens.dropWhile (·.kind == .operator .climb))
    else (.beside, token :: tokens)

theorem length_readLink_le (tokens : List Token) :
    (readLink tokens).2.length ≤ tokens.length := by
  unfold readLink
  split
  next => simp
  next token tokens =>
    have hsplit := congrArg List.length
      (List.takeWhile_append_dropWhile (p := (·.kind == .operator .climb)) (l := tokens))
    rw [List.length_append] at hsplit
    split
    next => simp
    next =>
      split
      next => simp
      next =>
        split
        next => simp only [List.length_cons]; omega
        next => simp

/-- What has been read of one level. -/
structure Level where
  /-- The closed statements with none around them. -/
  roots : List Statement := []
  /-- The open statements, the innermost first. Each of them will come to lie below the next one. -/
  ancestors : List Statement := []
deriving Repr

namespace Level

/-- Puts a closed statement where it belongs: below the innermost open one, or at the root. -/
def attach (level : Level) (statement : Statement) : Level :=
  match level.ancestors with
  | [] => { level with roots := level.roots ++ [statement] }
  | parent :: outer => { level with ancestors := parent.push statement :: outer }

/-- Closes the innermost open statement, if there is one. -/
def pop (level : Level) : Level :=
  match level.ancestors with
  | [] => level
  | closed :: outer => { level with ancestors := outer : Level }.attach closed

/-- Closes a number of open statements. Climbing past the root changes nothing. -/
def climb (level : Level) : Nat → Level
  | 0 => level
  | levels + 1 => level.pop.climb levels

/-- The level with one more statement, and the link behind that. -/
def add (level : Level) (statement : Statement) : Link → Level
  | .below => { level with ancestors := statement :: level.ancestors }
  | .beside => level.attach statement
  | .climb levels => (level.attach statement).climb levels

/-- The statements of the level, when all are closed. -/
def statements (level : Level) : List Statement :=
  (level.climb level.ancestors.length).roots

end Level

/-- The statements of an abbreviation, given what has been read of the level on which the tokens
begin and of the levels around it, the innermost first. -/
def readAll (jsx : Bool) (level : Level) (outer : List Level) (tokens : List Token) :
    Except Fault (List Statement) :=
  match tokens with
  | [] =>
    match outer with
    | [] => .ok level.statements
    | _ :: _ => .error { cause := .unclosedGroup, rest := [] }
  | token :: tokens =>
    match h : readElement? jsx (token :: tokens) with
    | .error fault => .error fault
    | .ok (some (head, rest)) =>
      let linked := readLink rest
      have := length_lt_of_readElement? h
      readAll jsx (level.add (.element head []) linked.1) outer linked.2
    | .ok none =>
      if token.kind = .bracket .group true then readAll jsx {} (level :: outer) tokens
      else if token.kind = .bracket .group false then
        match outer with
        | [] => .error { cause := .unmatchedGroupClose, rest := token :: tokens }
        | enclosing :: outer =>
          -- The repeater and the link behind the bracket belong to the group.
          let repeated := readRepeater tokens
          let linked := readLink repeated.2
          readAll jsx (enclosing.add (.group repeated.1 level.statements) linked.1) outer linked.2
      else
        match outer with
        | [] => .error { cause := .unexpectedToken token.kind, rest := token :: tokens }
        -- Inside a group, whatever is no statement stands where the closing bracket should be.
        | _ :: _ => .error { cause := .unclosedGroup, rest := token :: tokens }
termination_by tokens.length
decreasing_by
  · exact Nat.lt_of_le_of_lt (length_readLink_le rest) this
  · simp
  · exact Nat.lt_succ_of_le
      (Nat.le_trans (length_readLink_le repeated.2) (length_readRepeater_le tokens))

/-- The statements that tokens form. With `jsx`, names may be dotted paths and short attributes may
have expressions for values. -/
def ofTokens (jsx : Bool) (tokens : List Token) : Except Error (List Statement) :=
  (readAll jsx {} [] tokens).mapError (·.error tokens)

/-- The statements of an abbreviation. -/
def parse (jsx : Bool) (abbreviation : String) : Except Error (List Statement) :=
  match Token.tokenize abbreviation with
  | .ok tokens => ofTokens jsx tokens
  | .error error => .error error

end Shorthand.Statement
