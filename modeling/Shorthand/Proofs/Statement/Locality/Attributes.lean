import Shorthand.Proofs.Statement.Attributes

/-!
# How far attributes are read

A reader decides by the tokens that it takes and by the one behind them. What it takes it also takes
if other tokens follow, as long as they begin with the same one, or with one before which everything
ends, or are none at all. This file shows it of values, texts and attributes.

## Main definitions

* `Halts`: tokens before which everything ends;
* `StandsIn`: tokens that can stand in the place of others;
* `Continues`: what a reader does with tokens is what another one does with the rest of them.

## Main results

* `continues_readValue?`, `continues_readAttribute?`, `continues_readShort`: a value and an
  attribute are read again before tokens that stand in the place of those behind them;
* `exists_readAttributes_append`: an attribute set is read again before any tokens.
-/

namespace Shorthand.Statement

variable {α β : Type} {brackets jsx : Bool} {tokens value rest behind : List Token} {token : Token}

/-! ## Tokens in the place of others -/

/-- Nothing goes on over the first of these tokens, because there is none, or it is a blank or,
except in a value with `brackets`, the end of a group. -/
def Halts (brackets : Bool) (tokens : List Token) : Prop :=
  ∀ token ∈ tokens.head?,
    (∃ text, token.kind = .blank text) ∨ brackets = false ∧ token.kind = .bracket .group false

theorem halts_nil : Halts brackets [] := by
  simp [Halts]

theorem halts_blank {text : String} (h : token.kind = .blank text) :
    Halts brackets (token :: tokens) := by
  intro first hfirst
  obtain rfl : token = first := by simpa using hfirst
  exact .inl ⟨text, h⟩

theorem Halts.append (h : Halts brackets tokens) (hrest : Halts brackets rest) :
    Halts brackets (tokens ++ rest) := by
  cases tokens with
  | nil => exact hrest
  | cons token tokens => exact h

theorem Halts.forall_head {p : Token → Prop} (h : Halts brackets tokens)
    (hblank : ∀ token text, token.kind = .blank text → p token)
    (hgroup : ∀ token, token.kind = .bracket .group false → p token) :
    ∀ token ∈ tokens.head?, p token := by
  intro token hmem
  rcases h token hmem with ⟨text, hkind⟩ | ⟨-, hkind⟩
  · exact hblank token text hkind
  · exact hgroup token hkind

/-- Tokens that can stand where others stand, as far as a reader that stops there can tell. -/
inductive StandsIn (brackets : Bool) : List Token → List Token → Prop
  | same (token : Token) (rest behind : List Token) :
      StandsIn brackets (token :: rest) (token :: behind)
  | halts {rest behind : List Token} (hne : rest ≠ []) (h : Halts brackets behind) :
      StandsIn brackets rest behind

/-- No tokens stand in the place of none. -/
theorem StandsIn.ne_nil (h : StandsIn brackets rest behind) : rest ≠ [] := by
  cases h with
  | same => exact List.cons_ne_nil _ _
  | halts hne => exact hne

theorem StandsIn.append (h : StandsIn brackets rest behind) (taken : List Token) :
    StandsIn brackets (taken ++ rest) (taken ++ behind) := by
  cases taken with
  | nil => exact h
  | cons token taken => exact .same token _ _

/-- What holds of the first token, and of those before which everything ends, holds of the first
token in its place. -/
theorem StandsIn.forall_head {p : Token → Prop} (h : StandsIn brackets rest behind)
    (hrest : ∀ token ∈ rest.head?, p token)
    (hblank : ∀ token text, token.kind = .blank text → p token)
    (hgroup : ∀ token, token.kind = .bracket .group false → p token) :
    ∀ token ∈ behind.head?, p token := by
  cases h with
  | same => exact hrest
  | halts hne h => exact h.forall_head hblank hgroup

/-- Tokens of which the first one does not match a kind begin with a token of another kind. -/
theorem forall_head_kind_ne {kind : Token.Kind}
    (h : ∀ start stop more, tokens = ⟨kind, start, stop⟩ :: more → False) :
    ∀ token ∈ tokens.head?, token.kind ≠ kind := by
  rintro ⟨_, start, stop⟩ hmem rfl
  cases tokens with
  | nil => cases hmem
  | cons token tokens =>
    obtain rfl : token = _ := by simpa using hmem
    exact h _ _ _ rfl

/-- Applied to `tokens`, `reader` takes the tokens before `rest` and does with whatever can stand
behind them what `next` does. -/
def Continues (brackets : Bool) (reader : List Token → α) (tokens : List Token)
    (next : List Token → α) (rest : List Token) : Prop :=
  ∃ taken, tokens = taken ++ rest ∧
    ∀ behind, StandsIn brackets rest behind → reader (taken ++ behind) = next behind

section Continues

variable {reader next last : List Token → α}

theorem Continues.refl (reader : List Token → α) (tokens : List Token) :
    Continues brackets reader tokens reader tokens :=
  ⟨[], rfl, fun _ _ => rfl⟩

/-- Nothing can be said, and has to be, about tokens in the place of none. -/
theorem continues_nil (reader next : List Token → α) (tokens : List Token) :
    Continues brackets reader tokens next [] :=
  ⟨tokens, (List.append_nil tokens).symm, fun _ hin => absurd rfl hin.ne_nil⟩

theorem Continues.trans (h : Continues brackets reader tokens next value)
    (hnext : Continues brackets next value last rest) :
    Continues brackets reader tokens last rest := by
  obtain ⟨first, rfl, hfirst⟩ := h
  obtain ⟨second, rfl, hsecond⟩ := hnext
  refine ⟨first ++ second, (List.append_assoc ..).symm, fun behind hin => ?_⟩
  rw [List.append_assoc, hfirst _ (hin.append second), hsecond behind hin]

/-- What is made of the result of a reader depends on no more tokens. -/
theorem Continues.map (f : α → β) (h : Continues brackets reader tokens next rest) :
    Continues brackets (fun tokens => f (reader tokens)) tokens (fun tokens => f (next tokens))
      rest := by
  obtain ⟨taken, rfl, htaken⟩ := h
  exact ⟨taken, rfl, fun behind hin => congrArg f (htaken behind hin)⟩

end Continues

/-! ## Values -/

/-- The mark that closes a quoted value is looked for no further than it is found. -/
theorem readThroughQuote?_append_of_some {mark : QuoteMark}
    (h : readThroughQuote? mark tokens = some (value, rest)) (behind : List Token) :
    readThroughQuote? mark (value ++ behind) = some (value, behind) := by
  induction tokens generalizing value with
  | nil => cases h
  | cons token tokens ih =>
    rw [readThroughQuote?] at h
    split at h
    next hmark =>
      cases h
      rw [List.singleton_append, readThroughQuote?, if_pos hmark]
    next hmark =>
      simp only [Option.map_eq_some_iff, Prod.exists, Prod.mk.injEq] at h
      obtain ⟨value, rest, h, rfl, rfl⟩ := h
      rw [List.cons_append, readThroughQuote?, if_neg hmark, ih h]
      rfl

theorem readQuoted?_append_of_some (h : readQuoted? tokens = .ok (some (value, rest)))
    (behind : List Token) : readQuoted? (value ++ behind) = .ok (some (value, behind)) := by
  unfold readQuoted? at h
  split at h
  next => cases h
  next token tokens =>
    split at h
    next mark hmark =>
      split at h
      next hquote =>
        cases h
        rw [List.cons_append, readQuoted?, hmark]
        dsimp only
        rw [readThroughQuote?_append_of_some hquote]
      next => cases h
    next => cases h

/-- Only a quotation mark begins a quoted value. -/
theorem readQuoted?_eq_none_iff : readQuoted? tokens = .ok none ↔
    ∀ token ∈ tokens.head?, ∀ mark, token.kind ≠ .quote mark := by
  constructor
  · intro h token hmem mark hmark
    cases tokens with
    | nil => cases hmem
    | cons first tokens =>
      obtain rfl : first = token := by simpa using hmem
      simp only [readQuoted?, hmark] at h
      split at h <;> cases h
  · intro h
    cases tokens with
    | nil => rfl
    | cons token tokens => exact readQuoted?_eq_none (h token rfl)

/-- Where no quoted value begins, none begins after the tokens have been replaced. -/
theorem StandsIn.readQuoted?_eq_none (hin : StandsIn brackets tokens behind)
    (h : readQuoted? tokens = .ok none) : readQuoted? behind = .ok none := by
  rw [readQuoted?_eq_none_iff] at h ⊢
  exact hin.forall_head h (by simp +contextual) (by simp +contextual)

/-- An unquoted value ends outside all braces, so it also ends where everything does. -/
theorem readUnquoted_append_of_standsIn {depths : Depths}
    (h : readUnquoted brackets depths tokens = (value, rest))
    (hin : StandsIn brackets rest behind) :
    readUnquoted brackets depths (value ++ behind) = (value, behind) := by
  induction tokens generalizing depths value with
  | nil =>
    cases h
    exact absurd rfl hin.ne_nil
  | cons token tokens ih =>
    cases hafter : unquotedAfter? brackets depths token.kind with
    | some after =>
      rw [readUnquoted_of_some hafter] at h
      cases h
      rw [List.cons_append, readUnquoted_of_some hafter, ih rfl]
    | none =>
      rw [readUnquoted_of_none hafter] at h
      cases h
      cases hin with
      | same => exact readUnquoted_of_none hafter
      | halts _ hhalts =>
        -- Between braces nothing ends a value.
        have hdepth : depths .expression = 0 := by
          by_cases hdepth : depths .expression = 0
          · exact hdepth
          · revert hafter
            cases token.kind <;> simp [unquotedAfter?, hdepth]
        cases behind with
        | nil => rfl
        | cons other behind =>
          refine readUnquoted_of_none ?_
          rcases hhalts other rfl with ⟨text, hkind⟩ | ⟨rfl, hkind⟩
          · simp [hkind, unquotedAfter?, hdepth]
          · simp [hkind, unquotedAfter?, hdepth]

theorem continues_readUnquoted? (h : readUnquoted? brackets tokens = some (value, rest)) :
    Continues brackets (readUnquoted? brackets) tokens (fun behind => some (value, behind))
      rest := by
  refine ⟨value, (readUnquoted?_append h).1.symm, fun behind hin => ?_⟩
  simp only [readUnquoted?] at h ⊢
  split at h
  next => cases h
  next hne =>
    cases h
    rw [readUnquoted_append_of_standsIn rfl hin]
    dsimp only
    rw [if_neg hne]

/-- Where no unquoted value begins, none begins after the tokens have been replaced. -/
theorem StandsIn.readUnquoted?_eq_none (hin : StandsIn brackets tokens behind)
    (h : readUnquoted? brackets tokens = none) : readUnquoted? brackets behind = none := by
  have happend := readUnquoted_append brackets (fun _ => 0) tokens
  simp only [readUnquoted?] at h ⊢
  split at h
  next hempty =>
    rw [List.isEmpty_iff] at hempty
    have hread : readUnquoted brackets (fun _ => 0) tokens = ([], tokens) := by
      rw [hempty, List.nil_append] at happend
      exact Prod.ext hempty happend
    have hbehind := readUnquoted_append_of_standsIn hread hin
    rw [List.nil_append] at hbehind
    simp [hbehind]
  next => cases h

theorem continues_readValue? (h : readValue? tokens = .ok (some (value, rest))) :
    Continues true readValue? tokens (fun behind => .ok (some (value, behind))) rest := by
  unfold readValue? at h
  split at h
  next => cases h
  next hquoted =>
    cases h
    refine ⟨value, (readQuoted?_append hquoted).1.symm, fun behind _ => ?_⟩
    rw [readValue?, readQuoted?_append_of_some hquoted]
  next hnone =>
    obtain ⟨taken, rfl, htaken⟩ := continues_readUnquoted? (Except.ok.inj h)
    refine ⟨taken, rfl, fun behind hin => ?_⟩
    rw [readValue?, (hin.append taken).readQuoted?_eq_none hnone]
    exact congrArg Except.ok (htaken behind hin)

/-- Where no value begins, none begins after the tokens have been replaced. -/
theorem StandsIn.readValue?_eq_none (hin : StandsIn true tokens behind)
    (h : readValue? tokens = .ok none) : readValue? behind = .ok none := by
  unfold readValue? at h
  split at h
  next => cases h
  next => cases h
  next hnone =>
    rw [readValue?, hin.readQuoted?_eq_none hnone]
    exact congrArg Except.ok (hin.readUnquoted?_eq_none (Except.ok.inj h))

/-! ## Texts -/

/-- A text ends at the brace that closes it, unless the tokens do. -/
theorem readThroughBrace_append_of_ne_nil {depth : Nat}
    (h : readThroughBrace depth tokens = (value, rest)) (hne : rest ≠ []) (behind : List Token) :
    readThroughBrace depth (value ++ behind) = (value, behind) := by
  fun_induction readThroughBrace depth tokens generalizing value with
  | case1 =>
    cases h
    exact absurd rfl hne
  | case2 token tokens hkind =>
    cases h
    simp [readThroughBrace, hkind]
  | case3 token tokens depth hkind body more hread ih =>
    cases h
    simp [readThroughBrace, hkind, ih hread]
  | case4 depth token tokens hkind body more hread ih =>
    cases h
    simp [readThroughBrace, hkind, ih hread]
  | case5 token tokens depth body more hread hlast hcloses hopens ih =>
    cases h
    rw [List.cons_append, readThroughBrace.eq_def]
    dsimp only
    -- The token is no brace, which only the last equation of the reader is about.
    split
    next hkind => exact (hlast hkind rfl).elim
    next hkind => exact (hcloses _ hkind rfl).elim
    next hkind => exact (hopens hkind).elim
    next => rw [ih hread]

theorem continues_readText? (h : readText? tokens = some (value, rest)) :
    Continues false readText? tokens (fun behind => some (value, behind)) rest := by
  by_cases hne : rest = []
  · subst hne
    exact continues_nil _ _ _
  unfold readText? at h
  split at h
  next start stop tokens =>
    rcases hread : readThroughBrace 0 tokens with ⟨body, more⟩
    rw [hread] at h
    cases h
    have happend := readThroughBrace_append 0 tokens
    rw [hread] at happend
    subst happend
    refine ⟨_ :: body, rfl, fun behind _ => ?_⟩
    rw [List.cons_append, readText?, readThroughBrace_append_of_ne_nil hread hne]
  next => cases h

/-- Only a brace begins a text. -/
theorem readText?_eq_none_iff : readText? tokens = none ↔
    ∀ token ∈ tokens.head?, token.kind ≠ .bracket .expression true := by
  unfold readText?
  split
  next => simp
  next hother => exact ⟨fun _ => forall_head_kind_ne hother, fun _ => rfl⟩

/-! ## Attributes -/

/-- No value is assigned without an equals sign. -/
theorem readAssigned?_of_ne (h : ∀ token ∈ tokens.head?, token.kind ≠ .operator .equal) :
    readAssigned? tokens = .ok (none, tokens) := by
  unfold readAssigned?
  split
  next => exact absurd rfl (h _ rfl)
  next => rfl

theorem continues_readAssigned? {value : Option (List Token)}
    (h : readAssigned? tokens = .ok (value, rest)) :
    Continues true readAssigned? tokens (fun behind => .ok (value, behind)) rest := by
  unfold readAssigned? at h
  split at h
  next start stop tokens =>
    split at h
    next => cases h
    next hvalue =>
      cases h
      obtain ⟨taken, rfl, htaken⟩ := continues_readValue? hvalue
      refine ⟨_ :: taken, rfl, fun behind hin => ?_⟩
      rw [List.cons_append, readAssigned?, htaken behind hin]
    next hnone =>
      cases h
      refine ⟨[_], rfl, fun behind hin => ?_⟩
      rw [List.singleton_append, readAssigned?, hin.readValue?_eq_none hnone]
  next hother =>
    cases h
    refine ⟨[], rfl, fun behind hin => readAssigned?_of_ne ?_⟩
    exact hin.forall_head (forall_head_kind_ne hother) (by simp +contextual)
      (by simp +contextual)

theorem continues_readAttribute? {attr : Attribute}
    (h : readAttribute? tokens = .ok (some (attr, rest))) :
    Continues true readAttribute? tokens (fun behind => .ok (some (attr, behind))) rest := by
  unfold readAttribute? at h
  split at h
  next => cases h
  next hquoted =>
    cases h
    refine ⟨_, (readQuoted?_append hquoted).1.symm, fun behind _ => ?_⟩
    rw [readAttribute?, readQuoted?_append_of_some hquoted]
  next hnone =>
    split at h
    next => cases h
    next name assigned hname =>
      -- Behind its name, the attribute is read as what is assigned to it.
      have hbehind : Continues true readAttribute? tokens (fun behind =>
          (readAssigned? behind).map fun result =>
            some ({ name := some name, value := result.1 }, result.2)) assigned := by
        obtain ⟨taken, rfl, htaken⟩ := continues_readUnquoted? hname
        refine ⟨taken, rfl, fun behind hin => ?_⟩
        rw [readAttribute?, (hin.append taken).readQuoted?_eq_none hnone, htaken behind hin]
      obtain ⟨⟨value, last⟩, hassigned, heq⟩ := Except.map_eq_ok_iff.1 h
      cases heq
      exact hbehind.trans ((continues_readAssigned? hassigned).map _)

/-- Where no attribute begins, none begins after the tokens have been replaced. -/
theorem StandsIn.readAttribute?_eq_none (hin : StandsIn true tokens behind)
    (h : readAttribute? tokens = .ok none) : readAttribute? behind = .ok none := by
  unfold readAttribute? at h
  split at h
  next => cases h
  next => cases h
  next hquoted =>
    split at h
    next hname =>
      rw [readAttribute?, hin.readQuoted?_eq_none hquoted, hin.readUnquoted?_eq_none hname]
    next assigned _ =>
      obtain ⟨_, -, heq⟩ := Except.map_eq_ok_iff.1 h
      cases heq

/-- An attribute set that does not end with the tokens has a closing bracket, and what stands
behind that is not looked at. -/
theorem exists_readAttributes_append {attributes : List Attribute}
    (h : readAttributes tokens = .ok (attributes, rest)) (hne : rest ≠ []) :
    ∃ taken closing, tokens = taken ++ closing :: rest ∧
      ∀ behind, readAttributes (taken ++ closing :: behind) = .ok (attributes, behind) := by
  fun_induction readAttributes tokens generalizing attributes with
  | case1 =>
    cases h
    exact absurd rfl hne
  | case2 => cases h
  | case3 token tokens attr next hread _ ih =>
    obtain ⟨result, hnext, heq⟩ := Except.map_eq_ok_iff.1 h
    cases heq
    obtain ⟨first, happend, hfirst⟩ := continues_readAttribute? hread
    obtain ⟨taken, closing, rfl, htaken⟩ := ih hnext
    refine ⟨first ++ taken, closing, by rw [happend, List.append_assoc], fun behind => ?_⟩
    have hin : StandsIn true (taken ++ closing :: result.2) (taken ++ closing :: behind) :=
      .append (.same ..) taken
    rw [List.append_assoc, readAttributes_of_readAttribute? (hfirst _ hin), htaken]
    rfl
  | case4 token tokens hnone hclosing =>
    cases h
    exact ⟨[], token, rfl, fun behind => readAttributes_closing hclosing⟩
  | case5 token tokens hnone text hblank ih =>
    obtain ⟨taken, closing, rfl, htaken⟩ := ih h
    refine ⟨token :: taken, closing, rfl, fun behind => ?_⟩
    rw [List.cons_append, readAttributes_blank hblank, htaken]
  | case6 => cases h
  | case7 => cases h

theorem continues_readShort {name : String} {mark : Token} {attr : Attribute}
    (h : readShort jsx name mark tokens = (attr, rest)) :
    Continues false (readShort jsx name mark) tokens (fun behind => (attr, behind)) rest := by
  unfold readShort at h
  dsimp only at h
  split at h
  next htext =>
    cases h
    split at htext
    next hjsx =>
      obtain ⟨taken, rfl, htaken⟩ := continues_readText? htext
      refine ⟨taken, rfl, fun behind hin => ?_⟩
      rw [readShort, if_pos hjsx, htaken behind hin]
    next => cases htext
  next hnone =>
    -- No expression is read after the tokens have been replaced, either.
    have hstill (behind : List Token) (hin : StandsIn false tokens behind) :
        (if jsx then readText? behind else none) = none := by
      split at hnone
      next hjsx =>
        rw [if_pos hjsx]
        rw [readText?_eq_none_iff] at hnone ⊢
        exact hin.forall_head hnone (by simp +contextual) (by simp +contextual)
      next hjsx => rw [if_neg hjsx]
    split at h
    next hvalue =>
      cases h
      obtain ⟨taken, rfl, htaken⟩ := continues_readUnquoted? hvalue
      refine ⟨taken, rfl, fun behind hin => ?_⟩
      rw [readShort, hstill _ (hin.append taken), htaken behind hin]
    next hvalue =>
      cases h
      refine ⟨[], rfl, fun behind hin => ?_⟩
      rw [List.nil_append, readShort, hstill _ hin, hin.readUnquoted?_eq_none hvalue]

end Shorthand.Statement
