import Shorthand.Expansion.Rendering

/-!
# Rendering without notes

What tokens are rendered as does not depend on what has been noted before, and whether supplied text
is rendered shows in the tokens themselves. So rendering falls into two parts: what is rendered, and
a look for placeholders.

## Main definitions

* `Scope.renderName`, `Scope.renderValue`, `Scope.renderAttribute`, `Scope.nodes`: what is rendered;
* `Statement.hasPlaceholder`, `Statement.Element.claimsText`: whether supplied text is.

## Main results

* `Scope.renderNameNoting_eq`, `Scope.renderValueNoting_eq`: supplied text is rendered where there
  is a placeholder;
* `Scope.nodesNoting_eq`: an element notes supplied text where there is a placeholder in it, or
  where it has been noted below.
-/

namespace Shorthand

/-! ## What is rendered -/

namespace Scope

/-- The entry of a value that a token becomes. -/
def entry (scope : Scope) (kind : Token.Kind) : Value :=
  match kind with
  | .field (.tabStop index placeholder) => .field (.tabStop index placeholder)
  | kind => .text (scope.render kind)

/-- Tokens as the text of a name. -/
def renderName (scope : Scope) (tokens : List Token) : String :=
  tokens.foldr (fun token text => scope.render token.kind ++ text) ""

/-- Tokens as a value. -/
def renderValue (scope : Scope) (tokens : List Token) : List Value :=
  tokens.foldl (fun values token => Value.push values (scope.entry token.kind)) []

/-- An attribute of the output. A name of which nothing but marks is left is none. -/
def renderAttribute (scope : Scope) (attr : Statement.Attribute) : Node.Attribute :=
  let written := ((attr.name.map scope.renderName).getD "").toList
  let marked := Statement.MarkedName.ofChars written
  let unwrapped := attr.value.map Statement.unwrap
  { name := if marked.name.isEmpty then none else some (String.ofList marked.name)
    value := unwrapped.map fun (_, tokens) => scope.renderValue tokens
    -- The braces of a short attribute have been taken off already.
    style := (unwrapped.map fun (style, _) => if attr.expression then .expression else style).getD
      .raw
    boolean := marked.boolean
    implied := marked.implied }

/-- The nodes of one clone of an element, given the nodes below it. A plain text cannot hold nodes,
nor can an element that closes itself; there they become siblings. -/
def nodes (scope : Scope) (head : Statement.Element) (clone : Option Repeater)
    (below : List Node) : List Node :=
  let node : Node :=
    { name := head.name.map scope.renderName
      value := head.value.map scope.renderValue
      attributes := head.attributes.map scope.renderAttribute
      repeater := clone
      selfClosing := head.selfClosing
      children := [] }
  if node.isPlainText || node.selfClosing then node :: below
  else [{ node with children := below }]

end Scope

/-! ## Placeholders -/

namespace Statement

/-- Whether there is a placeholder for supplied text among the tokens. -/
def hasPlaceholder (tokens : List Token) : Bool :=
  tokens.any fun token => token.kind == .placeholder

/-- Whether there is a placeholder in the name, the text or an attribute of an element. -/
def Element.claimsText (head : Element) : Bool :=
  head.name.any hasPlaceholder || head.value.any hasPlaceholder ||
    head.attributes.any fun attr => attr.name.any hasPlaceholder || attr.value.any hasPlaceholder

/-- What is taken off the end of a value is no placeholder. -/
theorem hasPlaceholder_dropFinal {kind : Token.Kind} (hkind : kind ≠ .placeholder)
    (tokens : List Token) : hasPlaceholder (dropFinal kind tokens) = hasPlaceholder tokens := by
  unfold dropFinal
  split
  next hfinal =>
    obtain ⟨last, hlast, hkind'⟩ := (Option.any_eq_true _ _).1 hfinal
    obtain ⟨init, rfl⟩ := List.getLast?_eq_some_iff.1 hlast
    have hother : (last.kind == .placeholder) = false :=
      beq_eq_false_iff_ne.2 (beq_iff_eq.1 hkind' ▸ hkind)
    simp [hasPlaceholder, hother]
  next => rfl

/-- A value has its placeholders between the quotation marks or braces around it. -/
theorem hasPlaceholder_unwrap (tokens : List Token) :
    hasPlaceholder (unwrap tokens).2 = hasPlaceholder tokens := by
  have hfirst {first : Token} (inner : List Token) (hkind : first.kind ≠ .placeholder) :
      hasPlaceholder (first :: inner) = hasPlaceholder inner := by
    rw [hasPlaceholder, List.any_cons, beq_eq_false_iff_ne.2 hkind, Bool.false_or, hasPlaceholder]
  unfold unwrap
  split
  next => rfl
  next first inner =>
    split
    next mark hkind =>
      rw [hfirst inner (by simp [hkind])]
      exact hasPlaceholder_dropFinal (by simp) inner
    next hkind =>
      rw [hfirst inner (by simp [hkind])]
      exact hasPlaceholder_dropFinal (by simp) inner
    next => rfl

end Statement

/-! ## Notes -/

section Notes

variable {α β : Type} {render : α → Bool → β × Bool} {plain : α → β} {claims : α → Bool}

theorem noteOption_eq
    (h : ∀ written noted, render written noted = (plain written, noted || claims written))
    (written : Option α) (noted : Bool) :
    noteOption render written noted = (written.map plain, noted || written.any claims) := by
  cases written with
  | none => simp [noteOption]
  | some written => simp [noteOption, h]

theorem noteAll_eq
    (h : ∀ written noted, render written noted = (plain written, noted || claims written))
    (written : List α) (noted : Bool) :
    noteAll render written noted = (written.map plain, noted || written.any claims) := by
  induction written generalizing noted with
  | nil => simp [noteAll]
  | cons written others ih => simp [noteAll, h, ih, Bool.or_assoc]

end Notes

namespace Scope

open Statement (hasPlaceholder)

variable (scope : Scope)

/-- A token is rendered as it always is, and it is noted if it is a placeholder. -/
theorem renderNoting_eq (kind : Token.Kind) (noted : Bool) :
    scope.renderNoting kind noted = (scope.render kind, noted || kind == .placeholder) := by
  unfold renderNoting
  split
  next => rw [beq_self_eq_true, Bool.or_true]; rfl
  next hkind => rw [beq_eq_false_iff_ne.2 hkind, Bool.or_false]

/-- A tab stop is no placeholder, so an entry is noted in the same cases. -/
theorem entryNoting_eq (kind : Token.Kind) (noted : Bool) :
    scope.entryNoting kind noted = (scope.entry kind, noted || kind == .placeholder) := by
  unfold entryNoting
  split
  next index placeholder =>
    rw [beq_eq_false_iff_ne.2 (show Token.Kind.field _ ≠ .placeholder from nofun), Bool.or_false]
    rfl
  next hkind =>
    have hentry : scope.entry kind = .text (scope.render kind) := by
      unfold entry
      split
      next => exact (hkind _ _ rfl).elim
      next => rfl
    rw [renderNoting_eq, hentry]
    rfl

/-- Rendering a name notes supplied text where there is a placeholder. -/
theorem renderNameNoting_eq (tokens : List Token) (text : String) (noted : Bool) :
    scope.renderNameNoting tokens text noted =
      (text ++ scope.renderName tokens, noted || hasPlaceholder tokens) := by
  induction tokens generalizing text noted with
  | nil => simp [renderNameNoting, renderName, hasPlaceholder]
  | cons token tokens ih =>
    rw [renderNameNoting, renderNoting_eq]
    dsimp only
    rw [ih, String.append_assoc, Bool.or_assoc]
    rfl

/-- Rendering a value notes supplied text where there is a placeholder. -/
theorem renderValueNoting_eq (tokens : List Token) (noted : Bool) :
    scope.renderValueNoting tokens [] noted =
      (scope.renderValue tokens, noted || hasPlaceholder tokens) := by
  -- Entries are pushed from the left, so the induction is over any value to begin with.
  have hfold (values : List Value) : scope.renderValueNoting tokens values noted =
      (tokens.foldl (fun values token => Value.push values (scope.entry token.kind)) values,
        noted || hasPlaceholder tokens) := by
    induction tokens generalizing values noted with
    | nil => simp [renderValueNoting, hasPlaceholder]
    | cons token tokens ih =>
      rw [renderValueNoting, entryNoting_eq]
      dsimp only
      rw [ih, Bool.or_assoc]
      rfl
  exact hfold []

/-- The name of something, if it has one, notes supplied text where there is a placeholder. -/
theorem noteOption_renderNameNoting (name : Option (List Token)) (noted : Bool) :
    noteOption (scope.renderNameNoting · "") name noted =
      (name.map scope.renderName, noted || name.any hasPlaceholder) :=
  noteOption_eq (fun tokens noted => by rw [renderNameNoting_eq, String.empty_append]) name noted

/-- An attribute notes supplied text where there is a placeholder in its name or its value. -/
theorem renderAttributeNoting_eq (attr : Statement.Attribute) (noted : Bool) :
    scope.renderAttributeNoting attr noted = (scope.renderAttribute attr,
      noted || (attr.name.any hasPlaceholder || attr.value.any hasPlaceholder)) := by
  have hvalue (unwrapped : Node.Attribute.Style × List Token) (noted : Bool) :
      scope.renderValueNoting unwrapped.2 [] noted =
        (scope.renderValue unwrapped.2, noted || hasPlaceholder unwrapped.2) :=
    renderValueNoting_eq scope unwrapped.2 noted
  have hclaims : (attr.value.map Statement.unwrap).any (fun value => hasPlaceholder value.2) =
      attr.value.any hasPlaceholder := by
    simp [Option.any_map, Statement.hasPlaceholder_unwrap]
  rw [renderAttributeNoting, noteOption_renderNameNoting]
  dsimp only
  rw [noteOption_eq hvalue, hclaims, Bool.or_assoc]
  rfl

/-- An element notes supplied text where there is a placeholder in it, or where it has been noted
below. -/
theorem nodesNoting_eq (head : Statement.Element) (clone : Option Repeater) (below : List Node)
    (notedBelow : Bool) : scope.nodesNoting head clone below notedBelow =
      (scope.nodes head clone below, head.claimsText || notedBelow) := by
  have hnoted : (head.name.any hasPlaceholder || head.value.any hasPlaceholder || notedBelow ||
      head.attributes.any fun attr =>
        attr.name.any hasPlaceholder || attr.value.any hasPlaceholder) =
      (head.claimsText || notedBelow) := by
    rw [Statement.Element.claimsText, Bool.or_right_comm]
  rw [nodesNoting, noteOption_renderNameNoting]
  dsimp only
  rw [noteOption_eq (renderValueNoting_eq scope)]
  dsimp only
  rw [noteAll_eq (renderAttributeNoting_eq scope), Bool.false_or, hnoted, nodes]
  dsimp only
  split
  next => rfl
  next => rfl

end Scope

end Shorthand
