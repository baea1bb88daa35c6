import Shorthand.Proofs.Expansion.Rendered
import Shorthand.Proofs.Statement.TextContent

/-!
# Braces that are stripped from values

An attribute value is rendered without the braces around it: if it begins with an opening brace,
that one goes, and a closing brace at the end goes with it. These two need not be a pair. A value
may go on behind the brace that closes the first one, with text or with another pair of braces, and
then the brace that closes the first one is left without its partner.

So of values with matching braces, just those fare well that are one pair of braces with content in
it, besides those that do not begin with a brace.

## Main definitions

* `OpensBrace`: the value begins with an opening brace;
* `ClosedLast`: the brace at the beginning of a value is closed by the one at its end;
* `Enclosed`: the value is one pair of braces with content in it.

## Main results

* `not_bracesMatch_unwrap`: a value that goes on behind its first pair of braces does not fare well;
* `stripped_braces_iff`: in the tree of a source, the values that fare well are those that are
  enclosed in braces or do not begin with one;
* `not_stripped_braces`: two pairs of braces one behind the other.
-/

namespace Shorthand.Statement

variable {tokens inner rest value : List Token} {opening closing : Token}

/-! ## Values -/

/-- The value has no quotation mark at its beginning. -/
def IsUnquoted (value : List Token) : Prop :=
  ∀ first ∈ value.head?, ∀ mark, first.kind ≠ .quote mark

/-- The value begins with an opening brace. -/
def OpensBrace (value : List Token) : Prop :=
  ∃ first ∈ value.head?, first.kind = .bracket .expression true

/-- The value begins with an opening brace, which is closed by the last token. -/
def ClosedLast (value : List Token) : Prop :=
  ∃ opening inner closing, value = opening :: (inner ++ [closing]) ∧
    opening.kind = .bracket .expression true ∧ BracesMatch inner ∧
    closing.kind = .bracket .expression false

/-- The value is one pair of braces, with nothing but content between them. -/
def Enclosed (value : List Token) : Prop :=
  ∃ opening inner closing, value = opening :: (inner ++ [closing]) ∧
    opening.kind = .bracket .expression true ∧
    (∀ token ∈ inner, token.kind.isInner = true) ∧ closing.kind = .bracket .expression false

theorem Enclosed.closedLast (h : Enclosed value) : ClosedLast value := by
  obtain ⟨opening, inner, closing, rfl, hopening, hinner, hclosing⟩ := h
  exact ⟨opening, inner, closing, rfl, hopening, foldlM_inner hinner, hclosing⟩

/-! ## Stripping -/

/-- A value that begins with neither a quotation mark nor an opening brace stays as it is. -/
theorem unwrap_of_not_opensBrace (hunquoted : IsUnquoted value) (hopens : ¬OpensBrace value) :
    unwrap value = (.raw, value) := by
  cases value with
  | nil => rfl
  | cons first inner =>
    rw [unwrap]
    split
    next mark hkind => exact absurd hkind (hunquoted first rfl mark)
    next hkind => exact absurd ⟨first, rfl, hkind⟩ hopens
    next => rfl

/-- A value between two braces is left without them. -/
theorem unwrap_enclosed (hopening : opening.kind = .bracket .expression true)
    (hclosing : closing.kind = .bracket .expression false) (inner : List Token) :
    unwrap (opening :: (inner ++ [closing])) = (.expression, inner) := by
  rw [unwrap, hopening]
  dsimp only
  rw [dropFinal_append_of_kind hclosing]

/-- Only the last of two tokens or more can be dropped. -/
theorem exists_dropFinal_append (kind : Token.Kind) (tokens : List Token) (token next : Token)
    (behind : List Token) : ∃ more,
    dropFinal kind (tokens ++ token :: next :: behind) = tokens ++ token :: more := by
  unfold dropFinal
  split
  next =>
    refine ⟨(next :: behind).dropLast, ?_⟩
    rw [List.dropLast_append_of_ne_nil (List.cons_ne_nil _ _)]
    rfl
  next => exact ⟨next :: behind, rfl⟩

/-- Stripping leaves no partner for the brace that closes the first one, if the value goes on behind
it. -/
theorem not_bracesMatch_unwrap (hopening : opening.kind = .bracket .expression true)
    (hinner : ∀ token ∈ inner, token.kind.isInner = true)
    (hclosing : closing.kind = .bracket .expression false) (next : Token) (behind : List Token) :
    ¬BracesMatch (unwrap (opening :: (inner ++ closing :: next :: behind))).2 := by
  rw [unwrap, hopening]
  dsimp only
  obtain ⟨more, hmore⟩ :=
    exists_dropFinal_append (.bracket .expression false) inner closing next behind
  rw [hmore]
  exact not_bracesMatch_inner hinner hclosing more

/-- The style of an attribute is that of its value, unless it is a short one with an expression. -/
theorem style_renderAttribute {attr : Attribute} (hvalue : attr.value = some value)
    (scope : Scope) : (scope.renderAttribute attr).style =
      if attr.expression then .expression else (unwrap value).1 := by
  rw [Scope.renderAttribute, hvalue]
  rfl

section Source

variable {jsx : Bool} {source : String} {statements : List Statement} {head : Element}
  {attr : Attribute}

/-- If braces match in a value that begins with one, there is content up to the brace that closes
it. -/
theorem exists_closing_of_parse (h : parse jsx source = .ok statements)
    (hhead : head ∈ elementsAll statements) (hattr : attr ∈ head.attributes)
    (hvalue : attr.value = some value) (hmatch : BracesMatch value) (hopens : OpensBrace value) :
    ∃ opening inner closing behind, value = opening :: (inner ++ closing :: behind) ∧
      opening.kind = .bracket .expression true ∧
      (∀ token ∈ inner, token.kind.isInner = true) ∧
      closing.kind = .bracket .expression false := by
  obtain ⟨opening, hfirst, hopening⟩ := hopens
  obtain ⟨inside, rfl⟩ := List.head?_eq_some_iff.1 hfirst
  obtain ⟨inner, rest, rfl, hinner, hclosing⟩ :=
    exists_inner_of_parse h hhead hattr hvalue (List.nil_append _).symm hopening
  -- The brace is closed somewhere, so the value does not end with the content.
  cases rest with
  | nil =>
    rw [BracesMatch, List.append_nil, List.foldlM_cons, bracesAfter?_opening hopening] at hmatch
    exact absurd ((foldlM_inner hinner).symm.trans hmatch) (by simp)
  | cons closing behind =>
    exact ⟨opening, inner, closing, behind, rfl, hopening, hinner, hclosing closing rfl⟩

/-- In the tree of a source, take an attribute whose value is not quoted and has matching braces.
Stripping leaves matching braces, and makes the value an expression only if its first brace is
closed by its last token or the attribute is a short one with an expression, exactly if the value
does not begin with a brace or is one pair of braces with content in it. -/
theorem stripped_braces_iff (h : parse jsx source = .ok statements)
    (hhead : head ∈ elementsAll statements) (hattr : attr ∈ head.attributes)
    (hvalue : attr.value = some value) (hunquoted : IsUnquoted value)
    (hmatch : BracesMatch value) :
    (BracesMatch (unwrap value).2 ∧ ∀ scope : Scope,
      (scope.renderAttribute attr).style = .expression →
        ClosedLast value ∨ attr.expression = true) ↔
      (OpensBrace value → Enclosed value) := by
  constructor
  · rintro ⟨hstripped, -⟩ hopens
    obtain ⟨opening, inner, closing, behind, rfl, hopening, hinner, hclosing⟩ :=
      exists_closing_of_parse h hhead hattr hvalue hmatch hopens
    cases behind with
    | nil => exact ⟨opening, inner, closing, rfl, hopening, hinner, hclosing⟩
    | cons next behind =>
      exact absurd hstripped (not_bracesMatch_unwrap hopening hinner hclosing next behind)
  · intro henclosed
    by_cases hopens : OpensBrace value
    · have hlast := (henclosed hopens).closedLast
      refine ⟨?_, fun _ _ => .inl hlast⟩
      obtain ⟨opening, inner, closing, rfl, hopening, hinner, hclosing⟩ := hlast
      rwa [unwrap_enclosed hopening hclosing]
    · rw [unwrap_of_not_opensBrace hunquoted hopens]
      refine ⟨hmatch, fun scope hstyle => .inr ?_⟩
      -- Nothing but the mark of a short attribute makes such a value an expression.
      rw [style_renderAttribute hvalue, unwrap_of_not_opensBrace hunquoted hopens] at hstyle
      by_contra hplain
      rw [if_neg hplain] at hstyle
      cases hstyle

end Source

/-- In `a[b={x}]`, the value is one pair of braces, and what is left of it is an expression with
matching braces. -/
theorem stripped_braces_iff_pair : ∃ statements head attr, ∃ value : List Token,
    parse false "a[b=\x7bx\x7d]" = .ok statements ∧ head ∈ elementsAll statements ∧
    attr ∈ head.attributes ∧ attr.value = some value ∧ IsUnquoted value ∧ BracesMatch value ∧
    BracesMatch (unwrap value).2 ∧ (Scope.renderAttribute ⟨{}, []⟩ attr).style = .expression ∧
    ClosedLast value := by
  have helements : (parse false "a[b=\x7bx\x7d]").map elementsAll = .ok [
      { name := some [⟨.literal "a", 0, 1⟩]
        attributes := [
          { name := some [⟨.literal "b", 2, 3⟩]
            value := some [⟨.bracket .expression true, 4, 5⟩, ⟨.literal "x", 5, 6⟩,
              ⟨.bracket .expression false, 6, 7⟩] }] }] := by
    decide +kernel
  obtain ⟨statements, hparse, hheads⟩ := Except.map_eq_ok_iff.1 helements
  have hhead := hheads ▸ List.mem_singleton.2 rfl
  have hunquoted : IsUnquoted [⟨.bracket .expression true, 4, 5⟩, ⟨.literal "x", 5, 6⟩,
      ⟨.bracket .expression false, 6, 7⟩] := by
    simp [IsUnquoted]
  have hmatch : BracesMatch [⟨.bracket .expression true, 4, 5⟩, ⟨.literal "x", 5, 6⟩,
      ⟨.bracket .expression false, 6, 7⟩] := by
    decide
  have henclosed : Enclosed [⟨.bracket .expression true, 4, 5⟩, ⟨.literal "x", 5, 6⟩,
      ⟨.bracket .expression false, 6, 7⟩] :=
    ⟨_, [⟨.literal "x", 5, 6⟩], _, rfl, rfl, by decide, rfl⟩
  refine ⟨statements, _, _, _, hparse, hhead, List.mem_singleton.2 rfl, rfl, hunquoted, hmatch, ?_,
    rfl, henclosed.closedLast⟩
  have hiff :=
    stripped_braces_iff hparse hhead (List.mem_singleton.2 rfl) rfl hunquoted hmatch
  exact (hiff.2 fun _ => henclosed).1

/-- In `a[b={x}{y}]`, the value is two pairs of braces. The first opening brace and the last closing
one are stripped, so the brace behind `x` is left and closes none, and the value counts as an
expression all the same. -/
theorem not_stripped_braces : ∃ statements head attr, ∃ value : List Token,
    parse false "a[b=\x7bx\x7d\x7by\x7d]" = .ok statements ∧ head ∈ elementsAll statements ∧
    attr ∈ head.attributes ∧ attr.value = some value ∧ IsUnquoted value ∧ BracesMatch value ∧
    ¬BracesMatch (unwrap value).2 ∧ attr.expression = false ∧
    (Scope.renderAttribute ⟨{}, []⟩ attr).style = .expression ∧ ¬ClosedLast value := by
  have helements : (parse false "a[b=\x7bx\x7d\x7by\x7d]").map elementsAll = .ok [
      { name := some [⟨.literal "a", 0, 1⟩]
        attributes := [
          { name := some [⟨.literal "b", 2, 3⟩]
            value := some [⟨.bracket .expression true, 4, 5⟩, ⟨.literal "x", 5, 6⟩,
              ⟨.bracket .expression false, 6, 7⟩, ⟨.bracket .expression true, 7, 8⟩,
              ⟨.literal "y", 8, 9⟩, ⟨.bracket .expression false, 9, 10⟩] }] }] := by
    decide +kernel
  obtain ⟨statements, hparse, hheads⟩ := Except.map_eq_ok_iff.1 helements
  refine ⟨statements, _, _, _, hparse, hheads ▸ List.mem_singleton.2 rfl,
    List.mem_singleton.2 rfl, rfl, by simp [IsUnquoted], by decide, by decide, rfl, rfl, ?_⟩
  -- Without the first and the last token, the braces would have to match as well.
  rintro ⟨opening, inner, closing, heq, -, hmatch, -⟩
  have hinner := congrArg (fun value => value.tail.dropLast) heq
  simp only [List.tail_cons, List.dropLast_concat] at hinner
  rw [← hinner] at hmatch
  exact absurd hmatch (by decide)

end Shorthand.Statement
