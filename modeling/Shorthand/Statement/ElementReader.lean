import Shorthand.Statement.AttributeReader

/-!
# Elements in tokens

An element is a name and any number of parts: a repeater, a text, short attributes and attribute
sets, in any order. A closing indicator ends it, and a repeater may still follow that.
-/

namespace Shorthand.Statement

/-! ### Names -/

/-- Whether a token can stand in a name. -/
def isNamePart (token : Token) : Bool :=
  match token.kind with
  | .literal _ | .numbering _ | .placeholder => true
  | _ => false

/-- Whether a token is a literal that begins with an upper-case ASCII letter. -/
def isCapitalized (token : Token) : Bool :=
  match token.kind with
  | .literal value => value.toList.head?.any Char.isUpper
  | _ => false

/-- Dots with capitalized literals behind them, and the tokens behind those. -/
def readDotted : List Token → List Token × List Token
  | dot :: part :: tokens =>
    if dot.kind = .operator .className ∧ isCapitalized part then
      let (path, rest) := readDotted tokens
      (dot :: part :: path, rest)
    else ([], dot :: part :: tokens)
  | tokens => ([], tokens)

/-- The dotted path of capitalized literals with which the tokens begin. -/
def readPath : List Token → List Token × List Token
  | [] => ([], [])
  | token :: tokens =>
    if isCapitalized token then
      let (path, rest) := readDotted tokens
      (token :: path, rest)
    else ([], token :: tokens)

/-- The name with which the tokens begin, possibly empty, and the tokens behind it. Dotted paths are
read only where they are allowed. -/
def readName (jsx : Bool) (tokens : List Token) : List Token × List Token :=
  let (path, rest) := if jsx then readPath tokens else ([], tokens)
  (path ++ rest.takeWhile isNamePart, rest.dropWhile isNamePart)

/-! ### Parts -/

/-- A part of an element. -/
inductive Part
  | repeater (repeater : Repeater)
  | text (value : List Token)
  | attributes (attributes : List Attribute)
  | close
deriving Repr, DecidableEq

/-- The repeater with which the tokens begin, if they do, and the tokens behind it. -/
def readRepeater : List Token → Option Repeater × List Token
  | { kind := .repeater repeater, .. } :: tokens => (some repeater, tokens)
  | tokens => (none, tokens)

/-- The next part of `element`, of which something has been read if it is `present`. -/
def readPart? (jsx present : Bool) (element : Element) :
    List Token → Except Fault (Option (Part × List Token))
  | [] => .ok none
  | token :: tokens =>
    match token.kind with
    -- A second repeater or text ends the element, it does not replace the first.
    | .repeater repeater =>
      .ok (if present && element.repeater.isNone then some (.repeater repeater, tokens) else none)
    | .bracket .expression true =>
      .ok (if element.value.isNone then
        (readText? (token :: tokens)).map fun (value, rest) => (.text value, rest) else none)
    | .operator .idName =>
      let (attr, rest) := readShort jsx "id" token tokens
      .ok (some (.attributes [attr], rest))
    | .operator .className =>
      let (attr, rest) := readShort jsx "class" token tokens
      .ok (some (.attributes [attr], rest))
    | .bracket .attributes true =>
      (readAttributes tokens).map fun (attributes, rest) => some (.attributes attributes, rest)
    | .operator .close =>
      if present then .ok (some (.close, tokens))
      else .error { cause := .unexpectedSelfClosing, rest := token :: tokens }
    | _ => .ok none

/-- The element with one more part. -/
def Element.add (element : Element) : Part → Element
  | .repeater repeater => { element with repeater := some repeater }
  | .text value => { element with value := some value }
  | .attributes attributes => { element with attributes := element.attributes ++ attributes }
  | .close => { element with selfClosing := true }

/-- What follows a part is shorter than the tokens. -/
theorem length_lt_of_readPart? {jsx present : Bool} {element : Element} {tokens rest : List Token}
    {part : Part} (h : readPart? jsx present element tokens = .ok (some (part, rest))) :
    rest.length < tokens.length := by
  unfold readPart? at h
  split at h
  next => cases h
  next token tokens =>
    split at h
    next =>
      split at h
      next => cases h; simp
      next => cases h
    next =>
      split at h
      next =>
        simp only [Except.ok.injEq, Option.map_eq_some_iff, Prod.exists, Prod.mk.injEq] at h
        obtain ⟨value, rest', htext, -, rfl⟩ := h
        exact readText?_length_lt htext
      next => cases h
    next =>
      cases h
      exact Nat.lt_succ_of_le (length_readShort_le ..)
    next =>
      cases h
      exact Nat.lt_succ_of_le (length_readShort_le ..)
    next =>
      obtain ⟨result, hset, heq⟩ := Except.map_eq_ok_iff.1 h
      cases heq
      exact Nat.lt_succ_of_le (length_le_of_readAttributes hset)
    next =>
      split at h
      next => cases h; simp
      next => cases h
    next => cases h

/-! ### Elements -/

/-- The element that closes itself before `tokens`, with the repeater that may stand there. -/
def Element.close (element : Element) (tokens : List Token) : Element × List Token :=
  let element := element.add .close
  if element.repeater.isNone then
    let (repeater, rest) := readRepeater tokens
    ({ element with repeater }, rest)
  else (element, tokens)

/-- The element that `element` is the beginning of, with the parts that follow. There is none if
nothing of it is `present` and no part follows. -/
def readParts? (jsx present : Bool) (element : Element) (tokens : List Token) :
    Except Fault (Option (Element × List Token)) :=
  match h : readPart? jsx present element tokens with
  | .error fault => .error fault
  | .ok none => .ok (if present then some (element, tokens) else none)
  | .ok (some (.close, rest)) => .ok (some (element.close rest))
  | .ok (some (part, rest)) =>
    have := length_lt_of_readPart? h
    readParts? jsx true (element.add part) rest
termination_by tokens.length
decreasing_by exact this

/-- The element with which the tokens begin. -/
def readElement? (jsx : Bool) (tokens : List Token) :
    Except Fault (Option (Element × List Token)) :=
  let (name, rest) := readName jsx tokens
  if name.isEmpty then readParts? jsx false {} tokens
  else readParts? jsx true { name := some name } rest

theorem length_readRepeater_le (tokens : List Token) :
    (readRepeater tokens).2.length ≤ tokens.length := by
  unfold readRepeater
  split <;> simp

theorem readDotted_append (tokens : List Token) :
    (readDotted tokens).1 ++ (readDotted tokens).2 = tokens := by
  fun_induction readDotted tokens <;> simp_all

theorem readPath_append (tokens : List Token) :
    (readPath tokens).1 ++ (readPath tokens).2 = tokens := by
  unfold readPath
  split
  next => rfl
  next token tokens =>
    split
    next => simpa using readDotted_append tokens
    next => rfl

/-- A name and what follows it are the tokens. -/
theorem readName_append (jsx : Bool) (tokens : List Token) :
    (readName jsx tokens).1 ++ (readName jsx tokens).2 = tokens := by
  cases jsx
  · simp [readName, List.takeWhile_append_dropWhile]
  · simp [readName, List.takeWhile_append_dropWhile, readPath_append]

theorem length_lt_of_readParts? {jsx present : Bool} {element result : Element}
    {tokens rest : List Token}
    (h : readParts? jsx present element tokens = .ok (some (result, rest))) :
    rest.length ≤ tokens.length ∧ (present = false → rest.length < tokens.length) := by
  fun_induction readParts? jsx present element tokens with
  | case1 => cases h
  | case2 =>
    split at h
    next hpresent => cases h; simp [hpresent]
    next => cases h
  | case3 present element tokens next hpart =>
    have hlt := length_lt_of_readPart? hpart
    have hle := length_readRepeater_le next
    simp only [Except.ok.injEq, Option.some.injEq, Element.close] at h
    split at h
    next => cases h; exact ⟨by omega, fun _ => by omega⟩
    next => cases h; exact ⟨by omega, fun _ => by omega⟩
  | case4 present element tokens part next hpart hclose hlt ih =>
    have := (ih h).1
    omega

/-- What follows an element is shorter than the tokens. -/
theorem length_lt_of_readElement? {jsx : Bool} {tokens rest : List Token} {element : Element}
    (h : readElement? jsx tokens = .ok (some (element, rest))) : rest.length < tokens.length := by
  have happend := congrArg List.length (readName_append jsx tokens)
  rw [List.length_append] at happend
  simp only [readElement?] at h
  split at h
  next => exact (length_lt_of_readParts? h).2 rfl
  next hname =>
    have hle := (length_lt_of_readParts? h).1
    have := List.length_pos_iff.2 (by simpa using hname)
    omega

end Shorthand.Statement
