import Shorthand.Statement.AttributeReader

/-!
# Reading values and attributes

What the readers of values and attribute sets make of tokens that begin with one.

## Main definitions

* `EndsAttribute`: tokens before which an attribute of a set ends.

## Main results

* `readQuoted?_eq_some`: a value between two equal quotation marks;
* `readUnquoted?_literal`, `readUnquoted?_braced`: values without quotation marks;
* `readAttributes_of_readAttribute?`: an attribute is read before the others of its set.
-/

namespace Shorthand.Statement

variable {tokens value rest : List Token} {token opening closing : Token}

/-- A token of the kind that is to be dropped is dropped. -/
theorem dropFinal_append_of_kind {kind : Token.Kind} (hclosing : closing.kind = kind) :
    dropFinal kind (value ++ [closing]) = value := by
  simp [dropFinal, hclosing]

/-- What is left stands at the beginning, whether a token is dropped or not. -/
theorem dropFinal_isPrefix (kind : Token.Kind) (tokens : List Token) :
    dropFinal kind tokens <+: tokens := by
  unfold dropFinal
  split
  next => exact List.dropLast_prefix tokens
  next => exact List.prefix_rfl

/-! ## Quoted values -/

/-- A value goes on up to the mark that closes it. -/
theorem readThroughQuote?_append_closing {mark : QuoteMark}
    (hvalue : ∀ token ∈ value, token.kind ≠ .quote mark) (hclosing : closing.kind = .quote mark) :
    readThroughQuote? mark (value ++ closing :: rest) = some (value ++ [closing], rest) := by
  induction value with
  | nil => simp [readThroughQuote?, hclosing]
  | cons token value ih =>
    obtain ⟨htoken, hvalue⟩ := List.forall_mem_cons.1 hvalue
    rw [List.cons_append, readThroughQuote?, if_neg htoken, ih hvalue]
    rfl

/-- A value between two equal marks is read with them. -/
theorem readQuoted?_eq_some {mark : QuoteMark} (hopening : opening.kind = .quote mark)
    (hvalue : ∀ token ∈ value, token.kind ≠ .quote mark) (hclosing : closing.kind = .quote mark)
    (rest : List Token) : readQuoted? (opening :: (value ++ closing :: rest)) =
      .ok (some (opening :: (value ++ [closing]), rest)) := by
  simp [readQuoted?, hopening, readThroughQuote?_append_closing hvalue hclosing]

/-- No quoted value begins with anything but a mark. -/
theorem readQuoted?_eq_none (h : ∀ mark, token.kind ≠ .quote mark) :
    readQuoted? (token :: tokens) = .ok none := by
  rw [readQuoted?]
  split
  next mark hmark => exact absurd hmark (h mark)
  next => rfl

/-! ## Unquoted values -/

/-- An unquoted value ends before a token that does not belong to it. -/
theorem readUnquoted_of_none {brackets : Bool} {depths : Depths}
    (h : unquotedAfter? brackets depths token.kind = none) :
    readUnquoted brackets depths (token :: tokens) = ([], token :: tokens) := by
  rw [readUnquoted, h]

/-- An unquoted value goes on over a token that belongs to it. -/
theorem readUnquoted_of_some {brackets : Bool} {depths behind : Depths}
    (h : unquotedAfter? brackets depths token.kind = some behind) :
    readUnquoted brackets depths (token :: tokens) =
      (token :: (readUnquoted brackets behind tokens).1,
        (readUnquoted brackets behind tokens).2) := by
  rw [readUnquoted, h]

/-- Literals belong to an unquoted value. -/
theorem readUnquoted_append_literals {brackets : Bool} {depths : Depths} {text : String}
    (hvalue : ∀ token ∈ value, token.kind = .literal text) :
    readUnquoted brackets depths (value ++ rest) =
      (value ++ (readUnquoted brackets depths rest).1, (readUnquoted brackets depths rest).2) := by
  induction value with
  | nil => rfl
  | cons token value ih =>
    obtain ⟨htoken, hvalue⟩ := List.forall_mem_cons.1 hvalue
    have hsame : unquotedAfter? brackets depths token.kind = some depths := by
      rw [htoken]
      rfl
    rw [List.cons_append, readUnquoted_of_some hsame, ih hvalue]
    rfl

/-- An attribute of a set ends before these tokens: a blank, an equals sign or the bracket that
closes the set comes next. -/
def EndsAttribute (tokens : List Token) : Prop :=
  ∃ token more, tokens = token :: more ∧
    (token.kind = .bracket .attributes false ∨ (∃ text, token.kind = .blank text) ∨
      token.kind = .operator .equal)

/-- Outside all brackets, no unquoted value goes on where an attribute ends. -/
theorem EndsAttribute.readUnquoted (h : EndsAttribute tokens) :
    readUnquoted true (fun _ => 0) tokens = ([], tokens) := by
  obtain ⟨token, more, rfl, hkind | ⟨text, hkind⟩ | hkind⟩ := h
  · exact readUnquoted_of_none (by rw [hkind]; rfl)
  · exact readUnquoted_of_none (by rw [hkind]; rfl)
  · exact readUnquoted_of_none (by rw [hkind]; rfl)

/-- A literal is an unquoted value. -/
theorem readUnquoted?_literal {text : String} (htoken : token.kind = .literal text)
    (hends : EndsAttribute rest) : readUnquoted? true (token :: rest) = some ([token], rest) := by
  have hvalue : ∀ other ∈ [token], other.kind = .literal text := by simpa using htoken
  rw [readUnquoted?, ← List.singleton_append, readUnquoted_append_literals hvalue,
    hends.readUnquoted]
  rfl

/-- Literals between braces are an unquoted value. -/
theorem readUnquoted?_braced {text : String} (hopening : opening.kind = .bracket .expression true)
    (hvalue : ∀ token ∈ value, token.kind = .literal text)
    (hclosing : closing.kind = .bracket .expression false) (hends : EndsAttribute rest) :
    readUnquoted? true (opening :: (value ++ closing :: rest)) =
      some (opening :: (value ++ [closing]), rest) := by
  -- The depths inside the braces and behind them.
  have hinside : unquotedAfter? true (fun _ => 0) opening.kind =
      some (Depths.after (fun _ => 0) .expression true) := by
    rw [hopening]
    rfl
  have hbehind : unquotedAfter? true (Depths.after (fun _ => 0) .expression true) closing.kind =
      some (fun _ => 0) := by
    rw [hclosing, unquotedAfter?, if_pos (by decide)]
    congr 1
    funext bracket
    cases bracket <;> rfl
  rw [readUnquoted?, readUnquoted_of_some hinside, readUnquoted_append_literals hvalue,
    readUnquoted_of_some hbehind, hends.readUnquoted]
  rfl

/-! ## Attributes -/

/-- An attribute without a value is its name. -/
theorem readAttribute?_name {text : String} (hname : token.kind = .literal text)
    (hends : EndsAttribute rest) (hequal : ∀ next ∈ rest.head?, next.kind ≠ .operator .equal) :
    readAttribute? (token :: rest) = .ok (some ({ name := some [token] }, rest)) := by
  have hread : readUnquoted? true (token :: rest) = some ([token], rest) :=
    readUnquoted?_literal hname hends
  have hassigned : readAssigned? rest = .ok (none, rest) := by
    unfold readAssigned?
    split
    next => exact absurd rfl (hequal _ rfl)
    next => rfl
  rw [readAttribute?, readQuoted?_eq_none (by simp [hname]), hread]
  simp [hassigned, Except.map]

/-- An attribute with a value is its name, an equals sign and the value. -/
theorem readAttribute?_value {text : String} {equal : Token} (hname : token.kind = .literal text)
    (hequal : equal.kind = .operator .equal)
    (hvalue : readValue? tokens = .ok (some (value, rest))) :
    readAttribute? (token :: equal :: tokens) =
      .ok (some ({ name := some [token], value := some value }, rest)) := by
  have hread : readUnquoted? true (token :: equal :: tokens) = some ([token], equal :: tokens) :=
    readUnquoted?_literal hname
      ⟨equal, tokens, rfl, .inr (.inr hequal)⟩
  have hassigned : readAssigned? (equal :: tokens) = .ok (some value, rest) := by
    obtain ⟨kind, start, stop⟩ := equal
    subst hequal
    rw [readAssigned?, hvalue]
  rw [readAttribute?, readQuoted?_eq_none (by simp [hname]), hread]
  simp [hassigned, Except.map]

/-- No attribute begins where one ends. -/
theorem EndsAttribute.readAttribute? (h : EndsAttribute tokens) :
    readAttribute? tokens = .ok none := by
  have hread : readUnquoted? true tokens = none := by
    rw [readUnquoted?, h.readUnquoted]
    rfl
  have hquoted : readQuoted? tokens = .ok none := by
    obtain ⟨token, more, rfl, hkind | ⟨text, hkind⟩ | hkind⟩ := h
    · exact readQuoted?_eq_none (by simp [hkind])
    · exact readQuoted?_eq_none (by simp [hkind])
    · exact readQuoted?_eq_none (by simp [hkind])
  rw [Statement.readAttribute?, hquoted, hread]

/-- An attribute is read before the others of its set. -/
theorem readAttributes_of_readAttribute? {attr : Attribute}
    (h : readAttribute? tokens = .ok (some (attr, rest))) :
    readAttributes tokens =
      (readAttributes rest).map fun (attributes, rest) => (attr :: attributes, rest) := by
  cases tokens with
  | nil => simp [readAttribute?, readQuoted?, readUnquoted?, readUnquoted] at h
  | cons token tokens =>
    rw [readAttributes]
    split
    next hfault => simp [h] at hfault
    next hread =>
      rw [h, Except.ok.injEq, Option.some.injEq, Prod.mk.injEq] at hread
      rw [hread.1, hread.2]
    next hnone => simp [h] at hnone

/-- Blanks between attributes count for nothing. -/
theorem readAttributes_blank {text : String} (h : token.kind = .blank text) :
    readAttributes (token :: tokens) = readAttributes tokens := by
  have hnone : readAttribute? (token :: tokens) = .ok none :=
    EndsAttribute.readAttribute? ⟨token, tokens, rfl, .inr (.inl ⟨text, h⟩)⟩
  conv => lhs; rw [readAttributes]
  split
  next hfault => simp [hnone] at hfault
  next hread => simp [hnone] at hread
  next => simp [h]

/-- A set ends at its closing bracket. -/
theorem readAttributes_closing (h : token.kind = .bracket .attributes false) :
    readAttributes (token :: tokens) = .ok ([], tokens) := by
  have hnone : readAttribute? (token :: tokens) = .ok none :=
    EndsAttribute.readAttribute? ⟨token, tokens, rfl, .inl h⟩
  conv => lhs; rw [readAttributes]
  split
  next hfault => simp [hnone] at hfault
  next hread => simp [hnone] at hread
  next => simp [h]

end Shorthand.Statement
