import Shorthand.Proofs.Statement.Parts

/-!
# How elements are spelled

What tokens the readers of values, attributes and elements accept, stated as rules: each rule names
the tokens that it takes and those that it leaves. The rules follow the readers, so what can be said
of everything that is read is shown by induction on them, without opening the readers again.

## Main definitions

* `Quoted`, `Unquoted`: the tokens of a value with and without quotation marks;
* `Attribute.Spelled`, `SetSpelled`: the tokens of an attribute and of a set of attributes;
* `Part.Spelled`, `PartsSpelled`, `Element.Spelled`: those of the parts of an element and of all of
  it.

## Main results

* `setSpelled_of_readAttributes`: a set of attributes that is read is spelled;
* `Element.spelled_of_readElement?`: an element that is read is spelled.
-/

namespace Shorthand.Statement

variable {jsx present brackets : Bool} {element head : Element}
  {tokens value name behind rest : List Token}

/-! ## Values -/

/-- A value between two equal quotation marks, with the marks. -/
inductive Quoted : List Token → Prop
  | intro {mark : QuoteMark} {opening closing : Token} {inner : List Token}
      (hopening : opening.kind = .quote mark) (hinner : ∀ token ∈ inner, token.kind ≠ .quote mark)
      (hclosing : closing.kind = .quote mark) : Quoted (opening :: (inner ++ [closing]))

/-- Tokens that an unquoted value goes on over, from some depths of brackets to others. -/
inductive Passes (brackets : Bool) : Depths → List Token → Depths → Prop
  | nil (depths : Depths) : Passes brackets depths [] depths
  | cons {depths next last : Depths} {token : Token} {tokens : List Token}
      (htoken : unquotedAfter? brackets depths token.kind = some next)
      (hmore : Passes brackets next tokens last) : Passes brackets depths (token :: tokens) last

/-- An unquoted value before `rest`. It may leave brackets open, but braces only where the tokens
end. -/
structure Unquoted (brackets : Bool) (value rest : List Token) : Prop where
  nonempty : value ≠ []
  passes : ∃ last, Passes brackets (fun _ => 0) value last ∧ (rest ≠ [] → last .expression = 0)

theorem quoted_of_readQuoted? (h : readQuoted? tokens = .ok (some (value, rest))) :
    Quoted value := by
  have hthrough {mark : QuoteMark} {tokens value rest : List Token}
      (h : readThroughQuote? mark tokens = some (value, rest)) :
      ∃ inner closing, value = inner ++ [closing] ∧ (∀ token ∈ inner, token.kind ≠ .quote mark) ∧
        closing.kind = .quote mark := by
    induction tokens generalizing value with
    | nil => simp [readThroughQuote?] at h
    | cons token tokens ih =>
      rw [readThroughQuote?] at h
      split at h
      next hmark =>
        cases h
        exact ⟨[], token, rfl, by simp, hmark⟩
      next hmark =>
        simp only [Option.map_eq_some_iff, Prod.exists, Prod.mk.injEq] at h
        obtain ⟨value, rest, h, rfl, rfl⟩ := h
        obtain ⟨inner, closing, rfl, hinner, hclosing⟩ := ih h
        exact ⟨token :: inner, closing, rfl, List.forall_mem_cons.2 ⟨hmark, hinner⟩, hclosing⟩
  unfold readQuoted? at h
  split at h
  next => cases h
  next opening tokens =>
    split at h
    next mark hmark =>
      split at h
      next hquote =>
        cases h
        obtain ⟨inner, closing, rfl, hinner, hclosing⟩ := hthrough hquote
        exact .intro hmark hinner hclosing
      next => cases h
    next => cases h

/-- Between braces everything belongs to an unquoted value. -/
theorem unquotedAfter?_ne_none {depths : Depths} (h : depths .expression ≠ 0)
    (kind : Token.Kind) : unquotedAfter? brackets depths kind ≠ none := by
  cases kind <;> simp [unquotedAfter?, h]

/-- An unquoted value goes on up to a token that does not belong to it. -/
theorem passes_readUnquoted (brackets : Bool) (depths : Depths) (tokens : List Token) :
    ∃ last, Passes brackets depths (readUnquoted brackets depths tokens).1 last ∧
      ((readUnquoted brackets depths tokens).2 ≠ [] → last .expression = 0) := by
  fun_induction readUnquoted brackets depths tokens with
  | case1 depths => exact ⟨depths, .nil depths, by simp⟩
  | case2 depths token tokens next hnext value rest hmore ih =>
    rw [hmore] at ih
    obtain ⟨last, hpasses, hend⟩ := ih
    exact ⟨last, .cons hnext hpasses, hend⟩
  | case3 depths token tokens hnone =>
    -- Only outside braces does a token end the value.
    refine ⟨depths, .nil depths, fun _ => Decidable.byContradiction fun hbraces => ?_⟩
    exact unquotedAfter?_ne_none hbraces token.kind hnone

theorem unquoted_of_readUnquoted? (h : readUnquoted? brackets tokens = some (value, rest)) :
    Unquoted brackets value rest := by
  refine ⟨(readUnquoted?_append h).2, ?_⟩
  have hpasses := passes_readUnquoted brackets (fun _ => 0) tokens
  simp only [readUnquoted?] at h
  split at h
  next => cases h
  next => cases h; exact hpasses

/-! ## Attributes -/

/-- Tokens that begin with an attribute of a set, and those behind it. -/
inductive Attribute.Spelled : List Token → Attribute → List Token → Prop
  | quoted {value rest : List Token} (hvalue : Quoted value) :
      Spelled (value ++ rest) { value := some value } rest
  | name {name rest : List Token} (hname : Unquoted true name rest) :
      Spelled (name ++ rest) { name := some name } rest
  | equal {name rest : List Token} {equal : Token} (hname : Unquoted true name (equal :: rest))
      (hequal : equal.kind = .operator .equal) :
      Spelled (name ++ equal :: rest) { name := some name } rest
  | value {name value rest : List Token} {equal : Token}
      (hname : Unquoted true name (equal :: (value ++ rest)))
      (hequal : equal.kind = .operator .equal) (hvalue : Quoted value ∨ Unquoted true value rest) :
      Spelled (name ++ equal :: (value ++ rest)) { name := some name, value := some value } rest

/-- The tokens of a set of attributes behind its opening bracket, and those behind the set. A set
that is not closed ends with the tokens. -/
inductive SetSpelled : List Token → List Attribute → List Token → Prop
  | ended : SetSpelled [] [] []
  | closing {closing : Token} {rest : List Token}
      (hclosing : closing.kind = .bracket .attributes false) : SetSpelled (closing :: rest) [] rest
  | blank {blank : Token} {text : String} {tokens rest : List Token} {attributes : List Attribute}
      (hblank : blank.kind = .blank text) (hmore : SetSpelled tokens attributes rest) :
      SetSpelled (blank :: tokens) attributes rest
  | attr {tokens behind rest : List Token} {attr : Attribute} {attributes : List Attribute}
      (hattr : attr.Spelled tokens behind) (hmore : SetSpelled behind attributes rest) :
      SetSpelled tokens (attr :: attributes) rest

theorem value_of_readValue? (h : readValue? tokens = .ok (some (value, rest))) :
    Quoted value ∨ Unquoted true value rest := by
  unfold readValue? at h
  split at h
  next => cases h
  next hquoted =>
    cases h
    exact .inl (quoted_of_readQuoted? hquoted)
  next => exact .inr (unquoted_of_readUnquoted? (Except.ok.inj h))

theorem Attribute.spelled_of_readAttribute? {attr : Attribute}
    (h : readAttribute? tokens = .ok (some (attr, rest))) : attr.Spelled tokens rest := by
  unfold readAttribute? at h
  split at h
  next => cases h
  next hquoted =>
    cases h
    rw [← (readQuoted?_append hquoted).1]
    exact .quoted (quoted_of_readQuoted? hquoted)
  next =>
    split at h
    next => cases h
    next name behind hname =>
      rw [← (readUnquoted?_append hname).1]
      have hunquoted := unquoted_of_readUnquoted? hname
      unfold readAssigned? at h
      split at h
      next start stop tokens =>
        -- Behind the equals sign there is a value, or none.
        split at h
        next => cases h
        next hvalue =>
          cases h
          rw [← (readValue?_append hvalue).1] at hunquoted ⊢
          exact .value hunquoted rfl (value_of_readValue? hvalue)
        next =>
          cases h
          exact .equal hunquoted rfl
      next =>
        cases h
        exact .name hunquoted

theorem setSpelled_of_readAttributes {attributes : List Attribute}
    (h : readAttributes tokens = .ok (attributes, rest)) : SetSpelled tokens attributes rest := by
  fun_induction readAttributes tokens generalizing attributes rest with
  | case1 => cases h; exact .ended
  | case2 => cases h
  | case3 token tokens attr next hread hlt ih =>
    obtain ⟨result, hnext, heq⟩ := Except.map_eq_ok_iff.1 h
    cases heq
    exact .attr (Attribute.spelled_of_readAttribute? hread) (ih hnext)
  | case4 token tokens hread hkind => cases h; exact .closing hkind
  | case5 token tokens hread value hkind ih => exact .blank hkind (ih h)
  | case6 => cases h
  | case7 => cases h

/-! ## Parts -/

/-- The attribute behind the mark of a short attribute that stands for `name`. -/
inductive Attribute.ShortSpelled (jsx : Bool) (name : String) (mark : Token) :
    List Token → Attribute → List Token → Prop
  | bare (rest : List Token) :
      ShortSpelled jsx name mark rest { name := some [{ mark with kind := .literal name }] } rest
  | value {value rest : List Token} (hvalue : Unquoted false value rest) :
      ShortSpelled jsx name mark (value ++ rest)
        { name := some [{ mark with kind := .literal name }], value := some value } rest
  | text {tokens value rest : List Token} (hjsx : jsx = true)
      (htext : readText? tokens = some (value, rest)) :
      ShortSpelled jsx name mark tokens
        { name := some [{ mark with kind := .literal name }], value := some value,
          expression := true } rest

theorem Attribute.shortSpelled_readShort (jsx : Bool) (name : String) (mark : Token)
    (tokens : List Token) : Attribute.ShortSpelled jsx name mark tokens
      (readShort jsx name mark tokens).1 (readShort jsx name mark tokens).2 := by
  unfold readShort
  dsimp only
  split
  next value rest htext =>
    split at htext
    next hjsx => exact .text hjsx htext
    next => cases htext
  next =>
    split
    next value rest hvalue =>
      conv => arg 4; rw [← (readUnquoted?_append hvalue).1]
      exact .value (unquoted_of_readUnquoted? hvalue)
    next => exact .bare tokens

/-- Tokens that begin with a part of an element, given what has been read of the element, and those
behind it. -/
inductive Part.Spelled (jsx : Bool) (element : Element) : List Token → Part → List Token → Prop
  | repeater {token : Token} {repeater : Repeater} {rest : List Token}
      (htoken : token.kind = .repeater repeater) (hnone : element.repeater = none) :
      Spelled jsx element (token :: rest) (.repeater repeater) rest
  | text {tokens value rest : List Token} (htext : readText? tokens = some (value, rest))
      (hnone : element.value = none) : Spelled jsx element tokens (.text value) rest
  | short {mark : Token} {name : String} {tokens rest : List Token} {attr : Attribute}
      (hmark : mark.kind = .operator .idName ∧ name = "id" ∨
        mark.kind = .operator .className ∧ name = "class")
      (hattr : attr.ShortSpelled jsx name mark tokens rest) :
      Spelled jsx element (mark :: tokens) (.attributes [attr]) rest
  | set {opening : Token} {tokens rest : List Token} {attributes : List Attribute}
      (hopening : opening.kind = .bracket .attributes true)
      (hset : SetSpelled tokens attributes rest) :
      Spelled jsx element (opening :: tokens) (.attributes attributes) rest
  | close {token : Token} {rest : List Token} (htoken : token.kind = .operator .close) :
      Spelled jsx element (token :: rest) .close rest

theorem Part.spelled_of_readPart? {part : Part}
    (h : readPart? jsx present element tokens = .ok (some (part, rest))) :
    part.Spelled jsx element tokens rest := by
  unfold readPart? at h
  split at h
  next => cases h
  next token tokens =>
    split at h
    next repeater hkind =>
      split at h
      next hnone =>
        cases h
        exact .repeater hkind (by simpa using (Bool.and_eq_true_iff.1 hnone).2)
      next => cases h
    next hkind =>
      split at h
      next hnone =>
        simp only [Except.ok.injEq, Option.map_eq_some_iff, Prod.exists, Prod.mk.injEq] at h
        obtain ⟨value, rest, htext, rfl, rfl⟩ := h
        exact .text htext (by simpa using hnone)
      next => cases h
    next hkind =>
      cases h
      exact .short (.inl ⟨hkind, rfl⟩) (Attribute.shortSpelled_readShort ..)
    next hkind =>
      cases h
      exact .short (.inr ⟨hkind, rfl⟩) (Attribute.shortSpelled_readShort ..)
    next hkind =>
      obtain ⟨result, hset, heq⟩ := Except.map_eq_ok_iff.1 h
      cases heq
      exact .set hkind (setSpelled_of_readAttributes hset)
    next hkind =>
      split at h
      next => cases h; exact .close hkind
      next => cases h
    next => cases h

/-! ## Elements -/

/-- Tokens that begin with further parts of `element`, the element with all of them, and the tokens
behind it. -/
inductive PartsSpelled (jsx : Bool) : Element → List Token → Element → List Token → Prop
  | nil (element : Element) (rest : List Token) : PartsSpelled jsx element rest element rest
  | cons {element last : Element} {part : Part} {tokens behind rest : List Token}
      (hpart : part.Spelled jsx element tokens behind) (hclose : part ≠ .close)
      (hmore : PartsSpelled jsx (element.add part) behind last rest) :
      PartsSpelled jsx element tokens last rest
  | close {element : Element} {token : Token} (htoken : token.kind = .operator .close)
      (tokens : List Token) : PartsSpelled jsx element (token :: tokens)
        (element.close tokens).1 (element.close tokens).2

theorem partsSpelled_of_readParts?
    (h : readParts? jsx present element tokens = .ok (some (head, rest))) :
    PartsSpelled jsx element tokens head rest := by
  fun_induction readParts? jsx present element tokens with
  | case1 => cases h
  | case2 =>
    split at h
    next => cases h; exact .nil _ _
    next => cases h
  | case3 present element tokens behind hpart =>
    -- The mark ends the element, with the repeater that may follow it.
    obtain ⟨⟩ | ⟨⟩ | ⟨⟩ | ⟨⟩ | ⟨htoken⟩ := Part.spelled_of_readPart? hpart
    have hclose : PartsSpelled jsx element _ _ _ := .close htoken behind
    rwa [Option.some.inj (Except.ok.inj h)] at hclose
  | case4 present element tokens part behind hclose hpart hlt ih =>
    exact .cons (Part.spelled_of_readPart? hpart) hclose (ih h)

/-- Tokens that begin with an element, and those behind it: a name, possibly empty, and parts. -/
inductive Element.Spelled (jsx : Bool) : List Token → Element → List Token → Prop
  | intro {tokens name behind rest : List Token} {head : Element}
      (hname : readName jsx tokens = (name, behind))
      (hparts : PartsSpelled jsx { name := if name.isEmpty then none else some name } behind head
        rest) : Spelled jsx tokens head rest

theorem Element.spelled_of_readElement?
    (h : readElement? jsx tokens = .ok (some (head, rest))) : head.Spelled jsx tokens rest := by
  have happend := readName_append jsx tokens
  unfold readElement? at h
  generalize hname : readName jsx tokens = result at h happend
  obtain ⟨name, behind⟩ := result
  refine .intro hname ?_
  dsimp only at h happend
  split at h
  next hempty =>
    -- Without a name the parts begin where the element does.
    rw [List.isEmpty_iff.1 hempty, List.nil_append] at happend
    rw [if_pos hempty, happend]
    exact partsSpelled_of_readParts? h
  next hempty =>
    rw [if_neg hempty]
    exact partsSpelled_of_readParts? h

end Shorthand.Statement
