import Shorthand.Proofs.Expansion.Limit
import Shorthand.Proofs.Statement.Reading

/-!
# What a tree consists of

Nothing is reordered when statements are read: the elements of the tree, in reading order, are those
of its items in the order in which these are written, and so are its repeaters.

## Main definitions

* `Item.heads`, `Item.headsAll`: the elements of an item and of several items;
* `Item.repeaters`, `Item.repeatersAll`: the repeaters of an item and of several items.

## Main results

* `flatMap_ofOutline`: what is collected from a tree is what is collected from its outline;
* `exists_reads_of_parse`: whatever is parsed has the elements and repeaters of its items.
-/

namespace Shorthand.Statement

/-! ## Items -/

mutual

/-- The elements of an item in the order in which they are written. -/
def Item.heads : Item → List Element
  | .element head _ => [head]
  | .group inside _ _ => Item.headsAll inside

/-- The elements of several items in the order in which they are written. -/
def Item.headsAll : List Item → List Element
  | [] => []
  | item :: items => item.heads ++ Item.headsAll items

end

mutual

/-- The repeaters of an item, that of a group before those in it. -/
def Item.repeaters : Item → List Repeater
  | .element head _ => head.repeater.toList
  | .group inside repeater _ => repeater.toList ++ Item.repeatersAll inside

/-- The repeaters of several items. -/
def Item.repeatersAll : List Item → List Repeater
  | [] => []
  | item :: items => item.repeaters ++ Item.repeatersAll items

end

/-! ## Statements -/

theorem elementsAll_eq_flatMap (statements : List Statement) :
    elementsAll statements = statements.flatMap elements := by
  induction statements with
  | nil => rw [elementsAll, List.flatMap_nil]
  | cons statement statements ih => rw [elementsAll, ih, List.flatMap_cons]

theorem repeatersAll_eq_flatMap (statements : List Statement) :
    repeatersAll statements = statements.flatMap repeaters := by
  induction statements with
  | nil => rw [repeatersAll, List.flatMap_nil]
  | cons statement statements ih => rw [repeatersAll, ih, List.flatMap_cons]

theorem elements_adopt (statement : Statement) (more : List Statement) :
    elements (statement.adopt more) = elements statement ++ more.flatMap elements := by
  cases statement with
  | element head children => simp [adopt, elements, elementsAll_eq_flatMap]
  | group repeater children => simp [adopt, elements, elementsAll_eq_flatMap]

theorem repeaters_adopt (statement : Statement) (more : List Statement) :
    repeaters (statement.adopt more) = repeaters statement ++ more.flatMap repeaters := by
  cases statement with
  | element head children => simp [adopt, repeaters, repeatersAll_eq_flatMap]
  | group repeater children => simp [adopt, repeaters, repeatersAll_eq_flatMap]

section Collect

variable {α : Type} {collect : Statement → List α}

mutual

/-- What is collected from the statement of a branch is collected from its listing. -/
theorem collect_ofBranch (hadopt : ∀ statement more,
      collect (statement.adopt more) = collect statement ++ more.flatMap collect) (depth : Nat) :
    ∀ branch : Outline.Branch Statement,
      collect (ofBranch branch) = (branch.listing depth).flatMap fun item => collect item.2
  | .node statement below => by
    rw [ofBranch, hadopt, flatMap_ofBranches hadopt (depth + 1) below, Outline.Branch.listing,
      List.flatMap_cons]

/-- What is collected from the statements of branches is collected from their listing. -/
theorem flatMap_ofBranches (hadopt : ∀ statement more,
      collect (statement.adopt more) = collect statement ++ more.flatMap collect) (depth : Nat) :
    ∀ branches : List (Outline.Branch Statement),
      (ofBranches branches).flatMap collect =
        (Outline.listing depth branches).flatMap fun item => collect item.2
  | [] => by rw [ofBranches, Outline.listing, List.flatMap_nil, List.flatMap_nil]
  | branch :: branches => by
    rw [ofBranches, Outline.listing, List.flatMap_cons, collect_ofBranch hadopt depth branch,
      flatMap_ofBranches hadopt depth branches, List.flatMap_append]

end

/-- What is collected from a tree, each statement before those below it, is what is collected from
its outline. -/
theorem flatMap_ofOutline (hadopt : ∀ statement more,
      collect (statement.adopt more) = collect statement ++ more.flatMap collect)
    {outline : List (Nat × Statement)} (h : Outline.Nested outline) :
    (ofOutline outline).flatMap collect = outline.flatMap fun item => collect item.2 := by
  rw [ofOutline, flatMap_ofBranches hadopt 0, Outline.listing_forest h]

end Collect

/-! ## Trees of items -/

theorem Item.nested_outline (items : List Item) : Outline.Nested (Item.outline 0 items) :=
  Item.nestedFrom_outline (Nat.le_refl 0) items

mutual

/-- The statement of an item has the elements of the item. -/
theorem Item.elements_statement : ∀ item : Item, elements item.statement = item.heads
  | .element head link => by
    rw [Item.statement, Item.heads, elements, elementsAll]
  | .group inside repeater link => by
    rw [Item.statement, Item.heads, elements, elementsAll_eq_flatMap,
      flatMap_ofOutline elements_adopt (Item.nested_outline inside),
      Item.flatMap_elements_outline 0 inside]

/-- The outline of items has their elements. -/
theorem Item.flatMap_elements_outline (depth : Nat) : ∀ items : List Item,
    ((Item.outline depth items).flatMap fun item => elements item.2) = Item.headsAll items
  | [] => by rw [Item.outline, Item.headsAll, List.flatMap_nil]
  | item :: items => by
    rw [Item.outline, Item.headsAll, List.flatMap_cons, Item.elements_statement item,
      Item.flatMap_elements_outline _ items]

end

mutual

/-- The statement of an item has the repeaters of the item. -/
theorem Item.repeaters_statement : ∀ item : Item,
    Statement.repeaters item.statement = item.repeaters
  | .element head link => by
    rw [Item.statement, Item.repeaters, Statement.repeaters, Statement.repeatersAll,
      List.append_nil]
  | .group inside repeater link => by
    rw [Item.statement, Item.repeaters, Statement.repeaters, Statement.repeatersAll_eq_flatMap,
      flatMap_ofOutline repeaters_adopt (Item.nested_outline inside),
      Item.flatMap_repeaters_outline 0 inside]

/-- The outline of items has their repeaters. -/
theorem Item.flatMap_repeaters_outline (depth : Nat) : ∀ items : List Item,
    ((Item.outline depth items).flatMap fun item => Statement.repeaters item.2) =
      Item.repeatersAll items
  | [] => by rw [Item.outline, Item.repeatersAll, List.flatMap_nil]
  | item :: items => by
    rw [Item.outline, Item.repeatersAll, List.flatMap_cons, Item.repeaters_statement item,
      Item.flatMap_repeaters_outline _ items]

end

/-- Whatever is parsed has the elements and the repeaters of the items that its tokens spell, in the
order in which these are written. -/
theorem exists_reads_of_parse {jsx : Bool} {source : String} {statements : List Statement}
    (h : parse jsx source = .ok statements) : ∃ tokens items,
      Token.tokenize source = .ok tokens ∧ Reads jsx tokens items [] ∧
      elementsAll statements = Item.headsAll items ∧
      repeatersAll statements = Item.repeatersAll items := by
  unfold parse at h
  split at h
  next tokens htokens =>
    -- The items that the tokens spell are collected from the tree that they denote.
    obtain ⟨items, hreads, rfl⟩ := ofTokens_eq_ok_iff.1 h
    refine ⟨tokens, items, htokens, hreads, ?_, ?_⟩
    · rw [elementsAll_eq_flatMap, flatMap_ofOutline elements_adopt (Item.nested_outline items),
        Item.flatMap_elements_outline]
    · rw [repeatersAll_eq_flatMap, flatMap_ofOutline repeaters_adopt (Item.nested_outline items),
        Item.flatMap_repeaters_outline]
  next => cases h

end Shorthand.Statement
