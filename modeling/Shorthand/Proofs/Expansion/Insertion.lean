import Mathlib.Data.List.ModifyLast
import Shorthand.Expansion.Basic
import Shorthand.Proofs.Expansion.Values

/-!
# Texts that are inserted into nodes

A text is inserted at the last leaf of a forest. The relations here say what that makes of a forest
and of a node, and what stays, without reference to how it is done.

## Main definitions

* `Node.LastLeaf`: two forests that are the same up to the last leaf;
* `Node.AtLast`: two lists of nodes that are the same up to the last node;
* `Node.Gains`, `Node.GainsAll`: a node with a text, or several texts, at the end of its value;
* `Node.Targeted`: what a link target makes of the attributes of a link;
* `Node.Wraps`: what the whole text makes of a node.

## Main results

* `Node.lastLeaf_modifyLastLeaf`: changing the last leaf changes nothing else;
* `Node.gainsAll_iff`: several texts are appended one after the other;
* `Node.wraps_wrapText`: what the last leaf gets.
-/

namespace Shorthand

/-- There is one value that appending an entry makes of a value. -/
theorem Value.Pushed.unique {values pushed pushed' : List Value} {entry : Value}
    (h : Pushed values entry pushed) (h' : Pushed values entry pushed') : pushed = pushed' := by
  -- A text at the end is one to be merged with, a field is not.
  have hmerge {init values : List Value} {last : String} (hlast : ∀ last ∈ values.getLast?,
      last.isField = true) (heq : values = init ++ [.text last]) : False := by
    subst heq
    simpa [isField] using hlast (.text last) (by simp)
  cases h with
  | merge init last more =>
    generalize hvalues : init ++ [text last] = values at h'
    cases h' with
    | merge init' last' =>
      obtain ⟨rfl, hlast⟩ := List.append_inj' hvalues rfl
      cases hlast
      rfl
    | drop hfield => exact (hmerge hfield hvalues.symm).elim
    | keep _ hfield =>
      subst hvalues
      simpa [isField] using hfield (.text last) (by simp)
  | drop hfield =>
    generalize hentry : text "" = entry at h'
    cases h' with
    | merge init last => exact (hmerge hfield rfl).elim
    | drop => rfl
    | keep hfilled => exact absurd hentry.symm hfilled
  | keep hfilled hfield =>
    cases h' with
    | merge init last => simpa [isField] using hfield (.text last) (by simp)
    | drop => exact absurd rfl hfilled
    | keep => rfl

namespace Node

/-! ## Appended texts -/

/-- The node gets a text at the end of its value, and everything else stays. -/
structure Gains (text : String) (node node' : Node) : Prop where
  name : node'.name = node.name
  value : ∃ values, node'.value = some values ∧
    Value.Pushed (node.value.getD []) (.text text) values
  attributes : node'.attributes = node.attributes
  repeater : node'.repeater = node.repeater
  selfClosing : node'.selfClosing = node.selfClosing
  children : node'.children = node.children

theorem gains_iff {text : String} {node node' : Node} :
    Gains text node node' ↔ node' = node.appendText text := by
  constructor
  · intro h
    obtain ⟨values, hvalue, hpushed⟩ := h.value
    obtain rfl := hpushed.unique (Value.pushed_push _ _)
    obtain ⟨name, value, attributes, repeater, selfClosing, children⟩ := node'
    obtain ⟨rfl, -, rfl, rfl, rfl, rfl⟩ := h
    rw [show value = _ from hvalue]
    rfl
  · rintro rfl
    exact ⟨rfl, ⟨_, rfl, Value.pushed_push _ _⟩, rfl, rfl, rfl, rfl⟩

theorem text?_appendText (node : Node) (text : String) :
    (node.appendText text).text? = some (node.text?.getD "" ++ text) := by
  obtain ⟨name, value, attributes, repeater, selfClosing, children⟩ := node
  show some (Value.concat (Value.push (value.getD []) (.text text))) = _
  rw [Value.concat_push]
  cases value with
  | none => rfl
  | some value => rfl

/-- The node gets several texts, one after the other. -/
inductive GainsAll : List String → Node → Node → Prop
  | nil (node : Node) : GainsAll [] node node
  | cons {text : String} {texts : List String} {node next node' : Node}
      (h : Gains text node next) (hmore : GainsAll texts next node') :
      GainsAll (text :: texts) node node'

/-- Several texts are appended one after the other. -/
theorem gainsAll_iff {texts : List String} {node node' : Node} : GainsAll texts node node' ↔
    node' = texts.foldl (fun node text => node.appendText text) node := by
  induction texts generalizing node with
  | nil =>
    constructor
    · rintro ⟨⟩
      rfl
    · rintro rfl
      exact .nil node'
  | cons text texts ih =>
    rw [List.foldl_cons, ← ih]
    constructor
    · rintro (_ | ⟨h, hmore⟩)
      rwa [← gains_iff.1 h]
    · exact .cons (gains_iff.2 rfl)

/-! ## The last leaf -/

/-- Two forests that are the same, except that the leaves which are reached by last children from
the last roots are related. -/
inductive LastLeaf (R : Node → Node → Prop) : List Node → List Node → Prop
  | none : LastLeaf R [] []
  | leaf {before : List Node} {node node' : Node} (hleaf : node.children = []) (h : R node node') :
      LastLeaf R (before ++ [node]) (before ++ [node'])
  | inside {before : List Node} {node : Node} {children : List Node} (hinner : node.children ≠ [])
      (h : LastLeaf R node.children children) :
      LastLeaf R (before ++ [node]) (before ++ [{ node with children }])

section LastLeaf

variable {R : Node → Node → Prop} {f : Node → Node} {nodes nodes' : List Node}

/-- Roots in front of others do not matter. -/
theorem LastLeaf.cons (h : LastLeaf R nodes nodes') (hne : nodes ≠ []) (node : Node) :
    LastLeaf R (node :: nodes) (node :: nodes') := by
  cases h with
  | none => exact absurd rfl hne
  | @leaf before last last' hleaf h => exact @leaf R (node :: before) last last' hleaf h
  | @inside before last children hinner h => exact @inside R (node :: before) last children hinner h

mutual

theorem lastLeaf_modifyLeaf (hR : ∀ node : Node, node.children = [] → R node (f node)) :
    ∀ node : Node, LastLeaf R [node] [modifyLeaf f node]
  | ⟨name, value, attributes, repeater, selfClosing, []⟩ => by
    rw [modifyLeaf]
    exact @LastLeaf.leaf R [] _ _ rfl (hR _ rfl)
  | ⟨name, value, attributes, repeater, selfClosing, child :: children⟩ => by
    rw [modifyLeaf]
    exact @LastLeaf.inside R [] _ _ (List.cons_ne_nil child children)
      (lastLeaf_modifyLastLeaf hR (child :: children))

/-- Changing the last leaf of a forest changes nothing else. -/
theorem lastLeaf_modifyLastLeaf (hR : ∀ node : Node, node.children = [] → R node (f node)) :
    ∀ nodes : List Node, LastLeaf R nodes (modifyLastLeaf f nodes)
  | [] => by
    rw [modifyLastLeaf]
    exact .none
  | [node] => by
    rw [modifyLastLeaf]
    exact lastLeaf_modifyLeaf hR node
  | node :: next :: nodes => by
    rw [modifyLastLeaf]
    exact (lastLeaf_modifyLastLeaf hR (next :: nodes)).cons (List.cons_ne_nil next nodes) node

end

end LastLeaf

/-- Two lists of nodes that are the same, except that the last nodes are related. -/
inductive AtLast (R : Node → Node → Prop) : List Node → List Node → Prop
  | nil : AtLast R [] []
  | concat {before : List Node} {node node' : Node} (h : R node node') :
      AtLast R (before ++ [node]) (before ++ [node'])

theorem atLast_modifyLast {R : Node → Node → Prop} {f : Node → Node}
    (hR : ∀ node : Node, R node (f node)) (nodes : List Node) :
    AtLast R nodes (nodes.modifyLast f) := by
  rcases List.eq_nil_or_concat' nodes with rfl | ⟨before, node, rfl⟩
  · exact .nil
  · rw [List.modifyLast_concat]
    exact .concat (hR node)

/-! ## What the last leaf gets -/

/-- What a link target makes of attributes: it is added at their end if none of them is an `href`,
and else it fills in the first of those that are, unless that has a value. -/
inductive Targeted (target : List Value) : List Attribute → List Attribute → Prop
  | added {attributes : List Attribute} (hnone : ∀ attr ∈ attributes, attr.name ≠ some "href") :
      Targeted target attributes (attributes ++
        [{ name := some "href", value := some target, style := .doubleQuote, boolean := false,
           implied := false }])
  | filled {before after : List Attribute} {attr : Attribute}
      (hbefore : ∀ attr ∈ before, attr.name ≠ some "href") (hname : attr.name = some "href")
      (hvalue : attr.value = none) :
      Targeted target (before ++ attr :: after)
        (before ++ { attr with value := some target } :: after)
  | kept {before after : List Attribute} {attr : Attribute}
      (hbefore : ∀ attr ∈ before, attr.name ≠ some "href") (hname : attr.name = some "href")
      (hvalue : attr.value.isSome = true) :
      Targeted target (before ++ attr :: after) (before ++ attr :: after)

/-- Attributes that are no `href` may stand in front of the others. -/
theorem Targeted.cons {target : List Value} {attributes attributes' : List Attribute}
    (h : Targeted target attributes attributes') {attr : Attribute}
    (hother : attr.name ≠ some "href") : Targeted target (attr :: attributes) (attr :: attributes')
    := by
  cases h with
  | added hnone => exact .added (List.forall_mem_cons.2 ⟨hother, hnone⟩)
  | @filled before after found hbefore hname hvalue =>
    exact @filled target (attr :: before) after found (List.forall_mem_cons.2 ⟨hother, hbefore⟩)
      hname hvalue
  | @kept before after found hbefore hname hvalue =>
    exact @kept target (attr :: before) after found (List.forall_mem_cons.2 ⟨hother, hbefore⟩) hname
      hvalue

theorem targeted_fillHref (target : List Value) (attributes : List Attribute) :
    Targeted target attributes (fillHref target attributes) := by
  induction attributes with
  | nil => exact .added (List.forall_mem_nil _)
  | cons attr attributes ih =>
    rw [fillHref]
    split
    next hname =>
      obtain ⟨name, value, style, boolean, implied⟩ := attr
      cases value with
      | none => exact @Targeted.filled target [] _ _ (List.forall_mem_nil _) hname rfl
      | some value => exact @Targeted.kept target [] _ _ (List.forall_mem_nil _) hname rfl
    next hother => exact ih.cons hother

/-- What the whole text makes of a node: the text is appended to its value, and if the node is a
link and links are to get targets, its attributes get the target for the text. Everything else
stays. -/
structure Wraps (href : Bool) (text : String) (node node' : Node) : Prop where
  name : node'.name = node.name
  value : ∃ values, node'.value = some values ∧
    Value.Pushed (node.value.getD []) (.text text) values
  link : href = true → node.name = some "a" → ∃ target,
    Value.Pushed [] (.text (Link.hrefFor text)) target ∧
      Targeted target node.attributes node'.attributes
  noLink : href = false ∨ node.name ≠ some "a" → node'.attributes = node.attributes
  repeater : node'.repeater = node.repeater
  selfClosing : node'.selfClosing = node.selfClosing
  children : node'.children = node.children

theorem wraps_wrapText (href : Bool) (text : String) (node : Node) :
    Wraps href text node (node.wrapText href text) := by
  have hvalue : ∃ values, (node.appendText text).value = some values ∧
      Value.Pushed (node.value.getD []) (.text text) values :=
    ⟨_, rfl, Value.pushed_push _ _⟩
  unfold wrapText
  dsimp only
  split
  next hlink =>
    obtain ⟨hhref, hname⟩ : href = true ∧ node.name = some "a" := by
      simpa [appendText] using hlink
    exact ⟨rfl, hvalue, fun _ _ => ⟨_, Value.pushed_push _ _, targeted_fillHref _ _⟩,
      fun hnone => by simp_all, rfl, rfl, rfl⟩
  next hlink =>
    refine ⟨rfl, hvalue, fun hhref hname => absurd ?_ hlink, fun _ => rfl, rfl, rfl, rfl⟩
    simp [appendText, hhref, hname]

end Node

end Shorthand
