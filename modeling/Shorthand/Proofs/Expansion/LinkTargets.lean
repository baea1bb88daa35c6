import Shorthand.Proofs.Expansion.Delivery

/-!
# Links that text lands in

A link is to get its target from the text that lands in it. Text lands in a node in two ways: the
whole text at the last leaf of the output, or a line at the last leaf of a clone. Only the first
comes with a target. A clone of an implicit repeater that is a link gets its line and nothing else,
so it has a target only if it is written with one.

## Main definitions

* `Node.HasTarget`: a node with an `href` that has a value;
* `Delivers`: the placements of a tree, with the whole text at the last one if nothing claims it;
* `Placed.Shown`: a node shows the lines of its placement.

## Main results

* `Node.hasTarget_insertHref`: what gets a target has one;
* `exists_delivers_targets`: which links that text lands in have a target;
* `not_hasTarget_of_implicit`: the link `a*` has none.
-/

namespace Shorthand

namespace Node

/-! ## Targets -/

/-- There is an `href` with a value among the attributes. -/
def HasTarget (node : Node) : Prop :=
  ∃ attr ∈ node.attributes, attr.name = some "href" ∧ attr.value.isSome = true

/-- An `href` gets the target, and if there is none, one is added. -/
theorem exists_mem_fillHref (target : List Value) (attributes : List Attribute) :
    ∃ attr ∈ fillHref target attributes, attr.name = some "href" ∧ attr.value.isSome = true := by
  induction attributes with
  | nil => exact ⟨_, List.mem_singleton.2 rfl, rfl, rfl⟩
  | cons attr attributes ih =>
    rw [fillHref]
    split
    next hname => exact ⟨_, List.mem_cons_self, hname, rfl⟩
    next =>
      obtain ⟨found, hmem, hfound⟩ := ih
      exact ⟨found, List.mem_cons_of_mem attr hmem, hfound⟩

theorem hasTarget_insertHref (text : String) (node : Node) : (node.insertHref text).HasTarget :=
  exists_mem_fillHref _ node.attributes

/-- A link that wraps the whole text has a target, if that is asked for. -/
theorem hasTarget_wrapText (text : String) {node : Node}
    (hlink : (node.wrapText true text).name = some "a") :
    (node.wrapText true text).HasTarget := by
  unfold wrapText at hlink ⊢
  dsimp only at hlink ⊢
  split
  next => exact hasTarget_insertHref text _
  -- A link target does not change the name.
  next hother =>
    rw [if_neg hother] at hlink
    simp [hlink] at hother

/-- The node without its mark and its attributes. -/
def contents (node : Node) : Node :=
  { node with repeater := none, attributes := [] }

theorem contents_wrapText (href : Bool) (text : String) (node : Node) :
    (node.wrapText href text).contents = node.contents.appendText text := by
  unfold wrapText
  dsimp only
  split
  next => rfl
  next => rfl

/-- Lines are appended to the contents of a node. -/
theorem contents_foldl (lines : List String) (node : Node) :
    (lines.foldl (fun node line => node.appendText line) node).contents =
      lines.foldl (fun node line => node.appendText line) node.contents := by
  induction lines generalizing node with
  | nil => rfl
  | cons line lines ih => exact ih (node.appendText line)

/-- Appending lines leaves the attributes. -/
theorem attributes_foldl (lines : List String) (node : Node) :
    (lines.foldl (fun node line => node.appendText line) node).attributes = node.attributes := by
  induction lines generalizing node with
  | nil => rfl
  | cons line lines ih => exact ih (node.appendText line)

end Node

namespace Statement

open Node (listingAll)

variable {options : Options} {text : SuppliedText} {statements : List Statement}

/-! ## Delivered text -/

/-- The node of the element by itself, before any text is supplied. -/
def Placed.plain (options : Options) (placed : Placed) : Node :=
  Scope.single ⟨options, placed.loops⟩ placed.head none

/-- But for its mark and its attributes, the node is the one of the element by itself with the lines
appended to its value, and nothing else. -/
def Placed.Shown (options : Options) (placed : Placed) (node : Node) : Prop :=
  Node.GainsAll placed.lines (placed.plain options).contents node.contents

/-- Where text is appended in the output: to the clones that get lines, or if nothing in the tree
claims the text, the whole of it to the last node. -/
inductive Delivers (options : Options) (text : SuppliedText) (statements : List Statement) :
    List Placed → Prop
  | claimed {placed : List Placed}
      (hclaimed : anyImplicit (repeatersAll statements) = true ∨
        anyPlaceholder (elementsAll statements) = true)
      (h : PlacesAll options text (clonesNeededAll options 1 statements ≤ options.repeatLimit) []
        statements placed) :
      Delivers options text statements placed
  | unclaimed {placed : List Placed}
      (himplicit : anyImplicit (repeatersAll statements) = false)
      (hplaceholder : anyPlaceholder (elementsAll statements) = false)
      (h : PlacesAll options text (clonesNeededAll options 1 statements ≤ options.repeatLimit) []
        statements placed) :
      Delivers options text statements (placed.modifyLast (Placed.append text.joined))

/-- With an implicit repeater, text is appended where the rules say and nowhere else. -/
theorem Delivers.places {placed : List Placed} (h : Delivers options text statements placed)
    (himplicit : anyImplicit (repeatersAll statements) = true) :
    PlacesAll options text (clonesNeededAll options 1 statements ≤ options.repeatLimit) []
      statements placed := by
  cases h with
  | claimed _ h => exact h
  | unclaimed hnone =>
    rw [himplicit] at hnone
    cases hnone

/-- The node shows the lines of its placement. If there are any and the node is a link, then it has
a target exactly in one of two cases: no repeater is implicit, so that the text is the whole text at
the last leaf, or the element is written with an `href` that has a value. -/
structure Placed.Lands (options : Options) (statements : List Statement) (placed : Placed)
    (node : Node) : Prop where
  shown : placed.Shown options node
  target : node.name = some "a" → placed.lines ≠ [] →
    (node.HasTarget ↔
      anyImplicit (repeatersAll statements) = false ∨ (placed.plain options).HasTarget)

variable {placed : Placed} {node : Node}

theorem Placed.shown_iff : placed.Shown options node ↔ node.contents =
    placed.lines.foldl (fun node line => node.appendText line) (placed.plain options).contents :=
  Node.gainsAll_iff

theorem Placed.Becomes.shown (h : placed.Becomes options node) : placed.Shown options node := by
  have hcontents : node.contents = Node.contents { node with repeater := none } := rfl
  rw [becomes_iff] at h
  rw [shown_iff, hcontents, h]
  exact Node.contents_foldl placed.lines _

/-- What gets lines keeps the attributes that it is written with. -/
theorem Placed.Becomes.hasTarget_iff (h : placed.Becomes options node) :
    node.HasTarget ↔ (placed.plain options).HasTarget := by
  have hattributes : node.attributes = (placed.plain options).attributes :=
    (congrArg Node.attributes (becomes_iff.1 h)).trans (Node.attributes_foldl placed.lines _)
  unfold Node.HasTarget
  rw [hattributes]

/-- The last node wraps the whole text. -/
theorem Placed.Shown.wrapText (h : placed.Shown options node) (href : Bool) (line : String) :
    (placed.append line).Shown options (node.wrapText href line) := by
  rw [shown_iff] at h ⊢
  rw [Node.contents_wrapText, h, Placed.append, List.foldl_append]
  rfl

/-- The last node still is as described when it wraps the whole text. A link gets its target from
it. -/
theorem Placed.Lands.wrapText (h : placed.Lands options statements node)
    (himplicit : anyImplicit (repeatersAll statements) = false) (line : String) :
    (placed.append line).Lands options statements (node.wrapText true line) :=
  ⟨h.shown.wrapText true line,
    fun hlink _ => iff_of_true (Node.hasTarget_wrapText line hlink) (.inl himplicit)⟩

/-- Which links that text lands in have a target, for every tree and every text. If no repeater is
implicit, all of them have: there is at most one, at the last leaf of the output. Otherwise only
those have that are written with an `href` that has a value. -/
theorem exists_delivers_targets (options : Options) (statements : List Statement)
    (text : SuppliedText) (htext : options.text = some text) (hhref : options.href = true) :
    ∃ placed, Delivers options text statements placed ∧
      List.Forall₂ (Placed.Lands options statements) placed
        (listingAll (convert options statements)) := by
  obtain ⟨placed, hplaces, hbecomes⟩ := exists_places_unrollAll htext statements [] 0 fun h =>
    (Nat.zero_add _).le.trans h
  cases himplicit : anyImplicit (repeatersAll statements) with
  | true =>
    refine ⟨placed, .claimed (.inl himplicit) hplaces, ?_⟩
    rw [convert_of_claimed htext (.inl himplicit)]
    refine hbecomes.imp fun entry node h => ⟨h.shown, fun _ _ => ?_⟩
    rw [himplicit, h.hasTarget_iff]
    exact ⟨.inr, fun h => h.resolve_left Bool.noConfusion⟩
  | false =>
    -- Nothing has been appended before the text goes to the last node.
    have hlines : ∀ entry ∈ placed, entry.lines = [] := fun entry hmem =>
      (hplaces.untouched himplicit entry hmem).1
    have hlands : List.Forall₂ (Placed.Lands options statements) placed
        (listingAll (unrollAll { options } 0 statements).1) := by
      refine ((List.forall₂_and_left _ _).2 ⟨hlines, hbecomes⟩).imp ?_
      rintro entry node ⟨hnone, h⟩
      exact ⟨h.shown, fun _ hsome => absurd hnone hsome⟩
    cases hplaceholder : anyPlaceholder (elementsAll statements) with
    | true =>
      refine ⟨placed, .claimed (.inr hplaceholder) hplaces, ?_⟩
      rwa [convert_of_claimed htext (.inr hplaceholder)]
    | false =>
      refine ⟨_, .unclaimed himplicit hplaceholder hplaces, ?_⟩
      rw [listingAll_convert_of_unclaimed htext himplicit hplaceholder, hhref]
      exact Node.forall₂_modifyLast (fun _ _ h => h.wrapText himplicit text.joined) hlands

/-- In `li*>a[href=x]`, the link gets the line and keeps the target that it is written with. -/
theorem exists_delivers_targets_written :
    Options.href { text := some (.lines ["www.google.it"]), href := true } = true ∧
    ∃ placed, Delivers { text := some (.lines ["www.google.it"]), href := true }
        (.lines ["www.google.it"])
        [.element { name := some [⟨.literal "li", 0, 2⟩], repeater := some ⟨1, 0, true⟩ }
          [.element { name := some [⟨.literal "a", 4, 5⟩]
                      attributes := [{ name := some [⟨.literal "href", 6, 10⟩]
                                       value := some [⟨.literal "x", 11, 12⟩] }] } []]]
        placed ∧
      List.Forall₂ (Placed.Lands { text := some (.lines ["www.google.it"]), href := true }
          [.element { name := some [⟨.literal "li", 0, 2⟩], repeater := some ⟨1, 0, true⟩ }
            [.element { name := some [⟨.literal "a", 4, 5⟩]
                        attributes := [{ name := some [⟨.literal "href", 6, 10⟩]
                                         value := some [⟨.literal "x", 11, 12⟩] }] } []]])
        placed
        (listingAll (convert { text := some (.lines ["www.google.it"]), href := true }
          [.element { name := some [⟨.literal "li", 0, 2⟩], repeater := some ⟨1, 0, true⟩ }
            [.element { name := some [⟨.literal "a", 4, 5⟩]
                        attributes := [{ name := some [⟨.literal "href", 6, 10⟩]
                                         value := some [⟨.literal "x", 11, 12⟩] }] } []]])) :=
  ⟨rfl, exists_delivers_targets _ _ _ rfl rfl⟩

/-- A link that text lands in may be without a target. In `a*` the link gets the line of its clone,
and no `href` with it. -/
theorem not_hasTarget_of_implicit :
    ¬ ∀ (options : Options) (statements : List Statement) (text : SuppliedText),
      options.text = some text → options.href = true →
      ∃ placed, Delivers options text statements placed ∧
        List.Forall₂ (fun entry node => entry.Shown options node ∧
            (node.name = some "a" → entry.lines ≠ [] → node.HasTarget))
          placed (listingAll (convert options statements)) := by
  intro htargets
  obtain ⟨placed, hdelivers, hlands⟩ := htargets
    { text := some (.lines ["www.google.it"]), href := true }
    [.element { name := some [⟨.literal "a", 0, 1⟩], repeater := some ⟨1, 0, true⟩ } []]
    (.lines ["www.google.it"]) rfl rfl
  have houtput : listingAll (convert { text := some (.lines ["www.google.it"]), href := true }
      [.element { name := some [⟨.literal "a", 0, 1⟩], repeater := some ⟨1, 0, true⟩ } []]) =
      [⟨some "a", some [.text "www.google.it"], [], some ⟨1, 0, true⟩, false, []⟩] := by
    rfl
  have hfits : clonesNeededAll { text := some (.lines ["www.google.it"]), href := true } 1
      [.element { name := some [⟨.literal "a", 0, 1⟩], repeater := some ⟨1, 0, true⟩ } []] ≤
      Options.repeatLimit { text := some (.lines ["www.google.it"]), href := true } := by
    decide +kernel
  obtain ⟨entry, hentry, hline⟩ := (hdelivers.places rfl).carried hfits (by rfl)
    (List.mem_singleton.2 rfl) 0 Nat.one_pos
  -- There is one node, so the entry with the line is the one that belongs to it.
  rw [houtput, List.forall₂_cons_right_iff] at hlands
  obtain ⟨only, rest, ⟨-, hlink⟩, hrest, rfl⟩ := hlands
  obtain rfl := List.forall₂_nil_right_iff.1 hrest
  obtain rfl := List.mem_singleton.1 hentry
  obtain ⟨attr, hattr, -⟩ := hlink rfl (List.ne_nil_of_mem hline)
  cases hattr

end Statement

end Shorthand
