import Shorthand.Proofs.Expansion.Placement
import Shorthand.Proofs.Statement.Attributes

/-!
# Text at the end of the output

Supplied text that nothing in a tree claims goes to the last leaf of the output. That leaf is the
only node that it changes: apart from it, the output is what it would be without any text. A link
gets its target along with the text, so where the text is claimed, whether links are to get targets
makes no difference at all.

Both follow from what an unrolling reads of the options. It never asks for link targets, and the
text it reads only for an implicit repeater and for a placeholder.

## Main definitions

* `Options.Agree`: two options that look the same from a part of a tree.

## Main results

* `Statement.unroll_congr`, `Statement.unrollAll_congr`: options that agree on what a tree claims
  unroll it to the same nodes;
* `Statement.convert_wholeText`: the whole text touches one node only.
-/

namespace Shorthand

/-! ## What an unrolling reads of the options -/

/-- What stands between the quotation marks or braces around a value is part of the value. -/
theorem Statement.unwrap_subset (tokens : List Token) : (unwrap tokens).2 ⊆ tokens := by
  have hfinal (kind : Token.Kind) (tokens : List Token) : dropFinal kind tokens ⊆ tokens :=
    (dropFinal_isPrefix kind tokens).subset
  unfold unwrap
  split
  next => exact List.Subset.refl []
  next first inner =>
    split
    next => exact List.subset_cons_of_subset first (hfinal _ inner)
    next => exact List.subset_cons_of_subset first (hfinal _ inner)
    next => exact List.Subset.refl _

/-- Two options that look the same from a part of a tree: variables and limit are the same, and so
is the text if the part claims it. Whether links get targets is not looked at. -/
structure Options.Agree (options options' : Options) (claimed : Bool) : Prop where
  vars : options.vars = options'.vars
  maxRepeat : options.maxRepeat = options'.maxRepeat
  text : claimed = true → options.text = options'.text

section Agree

variable {options options' : Options} {claimed : Bool}

/-- Where less is claimed, options agree all the more. -/
theorem Options.Agree.weaken (h : options.Agree options' claimed) {part : Bool}
    (hpart : part = true → claimed = true) : options.Agree options' part :=
  ⟨h.vars, h.maxRepeat, fun hclaimed => h.text (hpart hclaimed)⟩

theorem Options.Agree.left {more : Bool} (h : options.Agree options' (claimed || more)) :
    options.Agree options' claimed :=
  h.weaken fun hclaimed => Bool.or_eq_true_iff.2 (.inl hclaimed)

theorem Options.Agree.right {more : Bool} (h : options.Agree options' (more || claimed)) :
    options.Agree options' claimed :=
  h.weaken fun hclaimed => Bool.or_eq_true_iff.2 (.inr hclaimed)

theorem Options.Agree.repeatLimit_eq (h : options.Agree options' claimed) :
    options.repeatLimit = options'.repeatLimit := by
  rw [repeatLimit, repeatLimit, h.maxRepeat]

namespace Scope

open Statement (hasPlaceholder)

variable {loops : List Repeater}

/-- Of the text, a token reads something only if it is a placeholder. -/
theorem render_congr {kind : Token.Kind} (h : options.Agree options' (kind == .placeholder)) :
    render ⟨options, loops⟩ kind = render ⟨options', loops⟩ kind := by
  cases kind with
  | placeholder =>
    show Options.textAt options _ = Options.textAt options' _
    unfold Options.textAt
    rw [h.text rfl]
  | field field =>
    cases field with
    | tabStop index placeholder => rfl
    | reference name => rw [render, render, h.vars]
  | _ => rfl

theorem entry_congr {kind : Token.Kind} (h : options.Agree options' (kind == .placeholder)) :
    entry ⟨options, loops⟩ kind = entry ⟨options', loops⟩ kind := by
  unfold entry
  split
  next => rfl
  next => rw [render_congr h]

variable {tokens : List Token}

/-- Options that agree on tokens agree on each of them. -/
theorem agree_of_mem (h : options.Agree options' (hasPlaceholder tokens)) {token : Token}
    (hmem : token ∈ tokens) : options.Agree options' (token.kind == .placeholder) :=
  h.weaken fun hkind => List.any_eq_true.2 ⟨token, hmem, hkind⟩

theorem renderName_congr (h : options.Agree options' (hasPlaceholder tokens)) :
    renderName ⟨options, loops⟩ tokens = renderName ⟨options', loops⟩ tokens := by
  apply List.foldr_ext
  intro token hmem text
  rw [render_congr (agree_of_mem h hmem)]

theorem renderValue_congr (h : options.Agree options' (hasPlaceholder tokens)) :
    renderValue ⟨options, loops⟩ tokens = renderValue ⟨options', loops⟩ tokens := by
  apply List.foldl_ext
  intro values token hmem
  rw [entry_congr (agree_of_mem h hmem)]

theorem map_renderName_congr {name : Option (List Token)}
    (h : options.Agree options' (name.any hasPlaceholder)) :
    name.map (renderName ⟨options, loops⟩) = name.map (renderName ⟨options', loops⟩) := by
  cases name with
  | none => rfl
  | some tokens => exact congrArg some (renderName_congr h)

theorem map_renderValue_congr {value : Option (List Token)}
    (h : options.Agree options' (value.any hasPlaceholder)) :
    value.map (renderValue ⟨options, loops⟩) = value.map (renderValue ⟨options', loops⟩) := by
  cases value with
  | none => rfl
  | some tokens => exact congrArg some (renderValue_congr h)

/-- Without quotation marks or braces around it, a value has no placeholders that it had not. -/
theorem hasPlaceholder_of_unwrap (h : hasPlaceholder (Statement.unwrap tokens).2 = true) :
    hasPlaceholder tokens = true := by
  obtain ⟨token, hmem, hkind⟩ := List.any_eq_true.1 h
  exact List.any_eq_true.2 ⟨token, Statement.unwrap_subset tokens hmem, hkind⟩

theorem renderAttribute_congr {attr : Statement.Attribute}
    (h : options.Agree options' (attr.name.any hasPlaceholder || attr.value.any hasPlaceholder)) :
    renderAttribute ⟨options, loops⟩ attr = renderAttribute ⟨options', loops⟩ attr := by
  obtain ⟨name, value, expression⟩ := attr
  cases value with
  | none => simp only [renderAttribute, map_renderName_congr h.left, Option.map_none]
  | some tokens =>
    simp only [renderAttribute, map_renderName_congr h.left, Option.map_some,
      renderValue_congr (h.right.weaken hasPlaceholder_of_unwrap)]

theorem single_congr {head : Statement.Element} (h : options.Agree options' head.claimsText)
    (clone : Option Repeater) :
    single ⟨options, loops⟩ head clone = single ⟨options', loops⟩ head clone := by
  have hattributes : head.attributes.map (renderAttribute ⟨options, loops⟩) =
      head.attributes.map (renderAttribute ⟨options', loops⟩) :=
    List.map_congr_left fun attr hmem => renderAttribute_congr <|
      h.right.weaken fun hattr => List.any_eq_true.2 ⟨attr, hmem, hattr⟩
  rw [single, single, map_renderName_congr h.left.left, map_renderValue_congr h.left.right,
    hattributes]

theorem nodes_congr {head : Statement.Element} (h : options.Agree options' head.claimsText)
    (clone : Option Repeater) (below : List Node) :
    nodes ⟨options, loops⟩ head clone below = nodes ⟨options', loops⟩ head clone below := by
  rw [nodes_eq, nodes_eq, single_congr h]

end Scope

namespace Statement

/-- The text says how many clones there are, and what they get, only if the repeater is implicit. -/
theorem repeated_congr {repeater : Option Repeater} {loops : List Repeater} {claimed : Bool}
    {body : Scope → Option Repeater → Nat → Unrolled} {made : Nat}
    (h : options.Agree options' (repeater.any (·.implicit)))
    (hbody : ∀ loops clone made, body ⟨options, loops⟩ clone made = body ⟨options', loops⟩ clone
      made) :
    repeated ⟨options, loops⟩ repeater claimed body made =
      repeated ⟨options', loops⟩ repeater claimed body made := by
  cases repeater with
  | none => exact hbody loops none made
  | some written =>
    have hcount : options.countOf (some written) = options'.countOf (some written) := by
      unfold Options.countOf
      dsimp only
      split
      next himplicit => rw [h.text himplicit]
      next => rfl
    have hclone : makeClone options loops written claimed body =
        makeClone options' loops written claimed body := by
      funext index made
      unfold makeClone Options.cloneAt Options.textAt
      dsimp only
      rw [hcount, hbody]
      split
      next himplicit => rw [h.text (Bool.and_eq_true_iff.1 himplicit).1]
      next => rfl
    rw [repeated_some, repeated_some, hcount, hclone, h.repeatLimit_eq]

mutual

/-- Options that agree on what a statement claims unroll it to the same nodes. -/
theorem unroll_congr : ∀ (statement : Statement) (loops : List Repeater) (made : Nat),
    options.Agree options' (statement.isImplicit || bodyClaimsText statement) →
    unroll ⟨options, loops⟩ made statement = unroll ⟨options', loops⟩ made statement
  | .element head children, loops, made, h => by
    have hbody := h.right
    rw [bodyClaimsText] at hbody
    rw [unroll, unroll]
    refine repeated_congr h.left fun loops clone made => ?_
    rw [unrollAll_congr children loops made hbody.right]
    dsimp only
    rw [Scope.nodes_congr hbody.left]
  | .group repeater children, loops, made, h => by
    have hbody := h.right
    rw [bodyClaimsText] at hbody
    rw [unroll, unroll]
    refine repeated_congr h.left fun loops clone made => ?_
    rw [unrollAll_congr children loops made hbody]

/-- Options that agree on what statements claim unroll them to the same nodes. -/
theorem unrollAll_congr : ∀ (statements : List Statement) (loops : List Repeater) (made : Nat),
    options.Agree options' (anyClaimsText statements) →
    unrollAll ⟨options, loops⟩ made statements = unrollAll ⟨options', loops⟩ made statements
  | [], loops, made, _ => by rw [unrollAll, unrollAll]
  | statement :: statements, loops, made, h => by
    rw [anyClaimsText] at h
    rw [unrollAll, unrollAll, unroll_congr statement loops made h.left]
    dsimp only
    rw [unrollAll_congr statements loops _ h.right]

end

end Statement

end Agree

namespace Statement

/-! ## The whole text -/

/-- The whole text touches one node only. If nothing in the tree claims the text, the output is the
same as without any text, except for the last leaf, which gets the text and perhaps a link target.
If something claims it, it makes no difference whether links are to get targets. -/
theorem convert_wholeText (options : Options) (statements : List Statement) :
    (anyImplicit (repeatersAll statements) = false →
      anyPlaceholder (elementsAll statements) = false →
      ∀ text, Node.LastLeaf (Node.Wraps options.href text.joined)
        (convert { options with text := none } statements)
        (convert { options with text := some text } statements)) ∧
    (anyImplicit (repeatersAll statements) = true ∨
      anyPlaceholder (elementsAll statements) = true →
      ∀ href, convert { options with href } statements = convert options statements) := by
  refine ⟨fun himplicit hplaceholder text => ?_, fun hclaimed href => ?_⟩
  · have hclaims : anyClaimsText statements = false := by
      rw [anyClaimsText_eq, himplicit, hplaceholder]
      rfl
    have hagree : Options.Agree { options with text := some text } { options with text := none }
        (anyClaimsText statements) :=
      ⟨rfl, rfl, fun hclaimed => absurd (hclaims.symm.trans hclaimed) Bool.false_ne_true⟩
    rw [convert_eq_insertWhole, convert_eq_insertWhole, Options.insertWhole, Options.insertWhole]
    dsimp only
    rw [unrollAll_congr statements [] 0 hagree, hclaims, if_neg Bool.false_ne_true]
    exact Node.lastLeaf_modifyLastLeaf
      (fun node _ => Node.wraps_wrapText options.href text.joined node) _
  · have hclaims : anyClaimsText statements = true := by
      rw [anyClaimsText_eq]
      exact Bool.or_eq_true_iff.2 hclaimed
    have hagree : Options.Agree { options with href } options (anyClaimsText statements) :=
      ⟨rfl, rfl, fun _ => rfl⟩
    rw [convert_eq_insertWhole, convert_eq_insertWhole, unrollAll_congr statements [] 0 hagree,
      hclaims]
    rfl

/-- In `p>a[href]+a`, nothing claims the text, and the last link gets it with a target. In `a*`, the
lines are claimed, and no link gets a target. -/
theorem convert_wholeText_link : ∃ links lines : List Statement, links =
      [.element { name := some [⟨.literal "p", 0, 1⟩] }
        [.element { name := some [⟨.literal "a", 2, 3⟩], attributes :=
            [{ name := some [⟨.literal "href", 4, 8⟩] }] } [],
          .element { name := some [⟨.literal "a", 10, 11⟩] } []]] ∧
    lines = [.element { name := some [⟨.literal "a", 0, 1⟩], repeater := some ⟨1, 0, true⟩ } []] ∧
    Node.LastLeaf (Node.Wraps true "www.x.y") (convert { text := none, href := true } links)
      (convert { text := some (.block "www.x.y"), href := true } links) ∧
    convert { text := some (.block "www.x.y"), href := true } links =
      [⟨some "p", none, [], none, false,
        [⟨some "a", none, [⟨some "href", none, .raw, false, false⟩], none, false, []⟩,
          ⟨some "a", some [.text "www.x.y"],
            [⟨some "href", some [.text "http://www.x.y"], .doubleQuote, false, false⟩],
            none, false, []⟩]⟩] ∧
    convert { text := some (.lines ["www.x.y", "z"]), href := true } lines =
      convert { text := some (.lines ["www.x.y", "z"]), href := false } lines ∧
    convert { text := some (.lines ["www.x.y", "z"]), href := true } lines =
      [⟨some "a", some [.text "www.x.y"], [], some ⟨2, 0, true⟩, false, []⟩,
        ⟨some "a", some [.text "z"], [], some ⟨2, 1, true⟩, false, []⟩] := by
  refine ⟨_, _, rfl, rfl, ?_, by decide +kernel, ?_, by decide +kernel⟩
  · exact (convert_wholeText { href := true } _).1 (by decide) (by decide) (.block "www.x.y")
  · exact (convert_wholeText { text := some (.lines ["www.x.y", "z"]), href := false } _).2
      (.inl (by decide)) true

end Statement

end Shorthand
