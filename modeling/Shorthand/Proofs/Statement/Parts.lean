import Shorthand.Proofs.Statement.Attributes
import Shorthand.Statement.ElementReader

/-!
# Reading the parts of an element

What the readers of names, texts and parts make of tokens that begin with one.

## Main definitions

* `Braced`: a text between two braces;
* `EndsElement`: tokens before which an element ends.

## Main results

* `Braced.readText?`: a text between two braces is read without them;
* `readParts?_of_readPart?`: a part is added to the element before the next one is read;
* `value_eq_of_readParts?`: no further part takes the place of a text;
* `readElement?_of_literal`: an element that begins with a name.
-/

namespace Shorthand.Statement

variable {jsx present : Bool} {element : Element} {tokens rest : List Token}

/-! ## Texts -/

/-- Tokens that are a text between two braces, with no brackets in it. -/
structure Braced (opening : Token) (value : List Token) (closing : Token) : Prop where
  opening : opening.kind = .bracket .expression true
  value : ∀ token ∈ value, ∀ bracket opening, token.kind ≠ .bracket bracket opening
  closing : closing.kind = .bracket .expression false

/-- Tokens that are no brackets belong to the text, up to the brace behind them. -/
theorem readThroughBrace_of_noBrackets {value : List Token} {closing : Token}
    (hvalue : ∀ token ∈ value, ∀ bracket opening, token.kind ≠ .bracket bracket opening)
    (hclosing : closing.kind = .bracket .expression false) :
    readThroughBrace 0 (value ++ closing :: rest) = (value ++ [closing], rest) := by
  induction value with
  | nil => simp [readThroughBrace, hclosing]
  | cons token value ih =>
    obtain ⟨htoken, hvalue⟩ := List.forall_mem_cons.1 hvalue
    rw [List.cons_append, readThroughBrace.eq_def]
    dsimp only
    -- Only brackets change the depth or end the text, and the token is none.
    split
    next hkind _ => exact absurd hkind (htoken _ _)
    next hkind _ => exact absurd hkind (htoken _ _)
    next hkind => exact absurd hkind (htoken _ _)
    next =>
      rw [ih hvalue]
      rfl

/-- A text between two braces is read without them. -/
theorem Braced.readText? {opening closing : Token} {value : List Token}
    (h : Braced opening value closing) :
    readText? (opening :: (value ++ closing :: rest)) = some (value, rest) := by
  obtain ⟨hopening, hvalue, hclosing⟩ := h
  obtain ⟨kind, start, stop⟩ := opening
  subst hopening
  rw [Statement.readText?, readThroughBrace_of_noBrackets hvalue hclosing]
  dsimp only
  rw [dropFinal_append_of_kind hclosing]

/-! ## Parts -/

/-- A part is added to the element before the next one is read. -/
theorem readParts?_of_readPart? {part : Part}
    (h : readPart? jsx present element tokens = .ok (some (part, rest))) (hclose : part ≠ .close) :
    readParts? jsx present element tokens = readParts? jsx true (element.add part) rest := by
  rw [readParts?.eq_def]
  split
  next hfault => simp [h] at hfault
  next hnone => simp [h] at hnone
  next hpart =>
    simp only [h, Except.ok.injEq, Option.some.injEq, Prod.mk.injEq] at hpart
    exact absurd hpart.1 hclose
  next hpart =>
    simp only [h, Except.ok.injEq, Option.some.injEq, Prod.mk.injEq] at hpart
    rw [hpart.1, hpart.2]

/-- An element of which something is there ends where no part follows. -/
theorem readParts?_of_none (h : readPart? jsx true element tokens = .ok none) :
    readParts? jsx true element tokens = .ok (some (element, tokens)) := by
  rw [readParts?.eq_def]
  split <;> simp_all

/-- The mark for an element that closes itself is the last of its parts. -/
theorem readParts?_of_close (h : readPart? jsx present element tokens = .ok (some (.close, rest))) :
    readParts? jsx present element tokens = .ok (some (element.close rest)) := by
  rw [readParts?.eq_def]
  split <;> simp_all

/-- A text is a part of an element that has none. -/
theorem Braced.readPart? {opening closing : Token} {value : List Token}
    (h : Braced opening value closing) (hnone : element.value = none) :
    readPart? jsx present element (opening :: (value ++ closing :: rest)) =
      .ok (some (.text value, rest)) := by
  simp [Statement.readPart?, h.opening, hnone, h.readText?]

/-- A set of attributes is a part. -/
theorem readPart?_attributes {opening : Token} {attributes : List Attribute}
    (hopening : opening.kind = .bracket .attributes true)
    (hread : readAttributes tokens = .ok (attributes, rest)) :
    readPart? jsx present element (opening :: tokens) =
      .ok (some (.attributes attributes, rest)) := by
  simp [readPart?, hopening, hread, Except.map]

/-- A slash is a part of an element of which something is there. -/
theorem readPart?_close {token : Token} (h : token.kind = .operator .close) :
    readPart? jsx true element (token :: tokens) = .ok (some (.close, tokens)) := by
  simp [readPart?, h]

/-- An element ends before these tokens: an operator for a child or the end of its group comes
next. -/
def EndsElement (tokens : List Token) : Prop :=
  ∃ token more, tokens = token :: more ∧
    (token.kind = .operator .child ∨ token.kind = .bracket .group false)

/-- No further part follows where an element ends. -/
theorem EndsElement.readPart? (h : EndsElement tokens) :
    readPart? jsx present element tokens = .ok none := by
  obtain ⟨token, more, rfl, hkind | hkind⟩ := h
  · simp [Statement.readPart?, hkind]
  · simp [Statement.readPart?, hkind]

/-- No repeater begins with any other token. -/
theorem readRepeater_of_ne {token : Token} (h : ∀ repeater, token.kind ≠ .repeater repeater) :
    readRepeater (token :: tokens) = (none, token :: tokens) := by
  obtain ⟨kind, start, stop⟩ := token
  cases kind with
  | repeater repeater => exact absurd rfl (h repeater)
  | _ => rfl

/-- No repeater follows where an element ends. -/
theorem EndsElement.readRepeater (h : EndsElement tokens) :
    readRepeater tokens = (none, tokens) := by
  obtain ⟨token, more, rfl, hkind | hkind⟩ := h
  · exact readRepeater_of_ne (by simp [hkind])
  · exact readRepeater_of_ne (by simp [hkind])

/-- Closing itself does not change the text of an element. -/
theorem Element.value_close (element : Element) (tokens : List Token) :
    (element.close tokens).1.value = element.value := by
  by_cases h : element.repeater.isNone = true
  · simp [Element.close, Element.add, h]
  · simp [Element.close, Element.add, h]

/-- A text is no part of an element that has one. -/
theorem readPart?_ne_text {value text : List Token} (hvalue : element.value = some value) :
    readPart? jsx present element tokens ≠ .ok (some (.text text, rest)) := by
  intro h
  unfold readPart? at h
  split at h
  next => cases h
  next token tokens =>
    split at h
    next => split at h <;> cases h
    next => simp [hvalue] at h
    next => cases h
    next => cases h
    next =>
      obtain ⟨_, -, heq⟩ := Except.map_eq_ok_iff.1 h
      cases heq
    next => split at h <;> cases h
    next => cases h

/-- No further part takes the place of a text. -/
theorem value_eq_of_readParts? {result : Element} {value : List Token}
    (hvalue : element.value = some value)
    (h : readParts? jsx present element tokens = .ok (some (result, rest))) :
    result.value = some value := by
  fun_induction readParts? jsx present element tokens with
  | case1 => cases h
  | case2 =>
    split at h
    next => cases h; exact hvalue
    next => cases h
  | case3 present element tokens next hpart =>
    have hclose := Element.value_close element next
    rw [Option.some.inj (Except.ok.inj h)] at hclose
    exact hclose.trans hvalue
  | case4 present element tokens part next _ hpart _ ih =>
    -- Only a text would change the value, and none is read where there is one already.
    refine ih ?_ h
    cases part with
    | text text => exact absurd hpart (readPart?_ne_text hvalue)
    | repeater => exact hvalue
    | attributes => exact hvalue
    | close => exact hvalue

/-! ## Names -/

/-- A literal is the name with which the tokens begin, if neither a further part of a name nor a dot
follows. -/
theorem readName_of_literal {name : Token} {value : String} (hname : name.kind = .literal value)
    (hrest : ∀ token ∈ rest.head?, isNamePart token = false ∧ token.kind ≠ .operator .className) :
    readName jsx (name :: rest) = ([name], rest) := by
  have hpart : isNamePart name = true := by simp [isNamePart, hname]
  have hstop : rest.takeWhile isNamePart = [] ∧ rest.dropWhile isNamePart = rest := by
    cases rest with
    | nil => exact ⟨rfl, rfl⟩
    | cons token rest => simp [(hrest token rfl).1]
  have hdotted : readDotted rest = ([], rest) := by
    unfold readDotted
    split
    next token part rest => rw [if_neg fun h => (hrest token rfl).2 h.1]
    next => rfl
  -- A dotted name is the literal alone, because no dot follows; any other name is one by itself.
  by_cases hpath : jsx = true ∧ isCapitalized name = true
  · simp [readName, readPath, hpath, hdotted, hstop]
  · have hpath' : (if jsx = true then readPath (name :: rest) else ([], name :: rest)) =
        ([], name :: rest) := by
      split
      next hjsx => rw [readPath, if_neg fun h => hpath ⟨hjsx, h⟩]
      next => rfl
    simp [readName, hpath', hpart, hstop]

/-- An element that begins with a name is read as this name and the parts behind it. -/
theorem readElement?_of_literal {name : Token} {value : String}
    (hname : name.kind = .literal value)
    (hrest : ∀ token ∈ rest.head?, isNamePart token = false ∧ token.kind ≠ .operator .className) :
    readElement? jsx (name :: rest) = readParts? jsx true { name := some [name] } rest := by
  rw [readElement?, readName_of_literal hname hrest]
  rfl

end Shorthand.Statement
