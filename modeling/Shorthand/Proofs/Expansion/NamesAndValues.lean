import Shorthand.Proofs.Expansion.Values

/-!
# The same tokens as a name and as a value

Tokens become one text where they are a name, and texts and fields where they are a value. The two
show the same: what a value merges and drops on the way are only the borders between its texts.

Both ways of rendering note supplied text in the same cases, since a tab stop, which a value keeps
as it is, is no placeholder.

## Main definitions

* `Value.spread`: a value as one sequence of characters and fields.

## Main results

* `Value.spread_push`: appending an entry appends its characters or its field;
* `rendered_alike`: names and values show the same, note the same, and keep what they are made of.
-/

namespace Shorthand

open Statement (hasPlaceholder)

/-! ## Values as sequences -/

namespace Value

/-- The characters of a text, or the field. -/
def symbols : Value → List (Char ⊕ Field)
  | .text s => s.toList.map .inl
  | .field f => [.inr f]

/-- A value as one sequence of characters and fields. -/
def spread (values : List Value) : List (Char ⊕ Field) :=
  values.flatMap symbols

/-- Appending an entry appends its characters or its field. None is lost, none is doubled, and their
order stays. -/
theorem spread_push (values : List Value) (entry : Value) :
    spread (push values entry) = spread values ++ entry.symbols := by
  have hpushed := pushed_push values entry
  generalize push values entry = pushed at hpushed
  cases hpushed with
  | merge init last more => simp [spread, symbols]
  | drop => simp [symbols]
  | keep => simp [spread]

/-- Appending entries one after the other appends what they hold. -/
theorem spread_foldl_push (values entries : List Value) :
    spread (entries.foldl push values) = spread values ++ spread entries := by
  induction entries generalizing values with
  | nil => simp [spread]
  | cons entry entries ih =>
    rw [List.foldl_cons, ih, spread_push, List.append_assoc]
    rfl

end Value

/-! ## Tokens as values -/

namespace Scope

variable (scope : Scope)

/-- The sequence that a value shows is that of its tokens: the field of a tab stop, and the text of
any other token. -/
theorem spread_renderValue (tokens : List Token) :
    Value.spread (scope.renderValue tokens) =
      tokens.flatMap fun token => (scope.entry token.kind).symbols := by
  rw [renderValue, ← List.foldl_map (f := fun token : Token => scope.entry token.kind)
    (g := Value.push), Value.spread_foldl_push, Value.spread, Value.spread, List.flatMap_map]
  rfl

end Scope

/-- Tokens show the same as a name and as a value, whatever they are resolved against, and rendering
them either way notes supplied text in the same cases. The fields of the value are the tab stops
among the tokens, in their order and as they are, and with the characters between them they are just
what the tokens show. Appending entries to a value leaves their characters and fields as they are
and in their order, whatever is merged or dropped. -/
theorem rendered_alike (scope : Scope) (tokens : List Token) :
    Value.concat (scope.renderValue tokens) = scope.renderName tokens ∧
      (∀ noted, scope.renderNameNoting tokens "" noted =
        (scope.renderName tokens, noted || hasPlaceholder tokens)) ∧
      (∀ noted, scope.renderValueNoting tokens [] noted =
        (scope.renderValue tokens, noted || hasPlaceholder tokens)) ∧
      Value.fields (scope.renderValue tokens) = tokens.filterMap Token.tabStop? ∧
      Value.spread (scope.renderValue tokens) =
        tokens.flatMap (fun token => (scope.entry token.kind).symbols) ∧
      ∀ values entries, Value.spread (entries.foldl Value.push values) =
        Value.spread values ++ Value.spread entries := by
  refine ⟨scope.concat_renderValue tokens, fun noted => ?_, scope.renderValueNoting_eq tokens,
    scope.fields_renderValue tokens, scope.spread_renderValue tokens, Value.spread_foldl_push⟩
  rw [Scope.renderNameNoting_eq, String.empty_append]

end Shorthand
