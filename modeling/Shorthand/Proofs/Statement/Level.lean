import Shorthand.Proofs.Outline.Forest
import Shorthand.Statement.Parser

/-!
# Levels of statements

The statements of a level are written one after the other, each with the operator behind it that
says how the next one stands to it. This file states what tokens spell which items, and which tree
items denote, without reference to how either is computed. The tree is then computed from the depths
of the items, without a stack.

## Main definitions

* `Item`: a statement as it is written, with the link behind it;
* `Reads`: tokens that spell the items of a level;
* `Link.Leads`: how deep the statement behind a link stands;
* `Builds`: the statement that a branch of statements makes up;
* `Denotes`: the tree that the items of a level denote, on that level and in all of its groups;
* `ofOutline`, `Item.outline`: the same tree, computed.

## Main results

* `denotes_iff`: items denote exactly one tree, the computed one;
* `ofOutline_beside`, `ofOutline_below`: what is denoted where the items of a level stand beside
  each other or below the first one.
-/

namespace Shorthand.Statement

/-- A statement as it is written on its level, with the link to the statement behind it. -/
inductive Item
  | element (head : Element) (link : Link)
  /-- A group, with the items between its brackets. -/
  | group (inside : List Item) (repeater : Option Repeater) (link : Link)

/-- How the next item stands to this one. -/
def Item.link : Item → Link
  | .element _ link => link
  | .group _ _ link => link

/-! ## Spelling -/

/-- Tokens that begin with the operators of a link, and the tokens behind those. -/
inductive Link.Follows : Link → List Token → List Token → Prop
  | child {mark : Token} {rest : List Token} (h : mark.kind = .operator .child) :
      Follows .below (mark :: rest) rest
  | sibling {mark : Token} {rest : List Token} (h : mark.kind = .operator .sibling) :
      Follows .beside (mark :: rest) rest
  /-- Without an operator, the next statement is a sibling. -/
  | nothing {rest : List Token}
      (h : ∀ token ∈ rest.head?, token.kind ≠ .operator .child ∧
        token.kind ≠ .operator .sibling ∧ token.kind ≠ .operator .climb) :
      Follows .beside rest rest
  | climb {marks rest : List Token} (hne : marks ≠ [])
      (hmarks : ∀ mark ∈ marks, mark.kind = .operator .climb)
      (hrest : ∀ token ∈ rest.head?, token.kind ≠ .operator .climb) :
      Follows (.climb marks.length) (marks ++ rest) rest

/-- Tokens that begin with the items of a level, and the tokens behind those. -/
inductive Reads (jsx : Bool) : List Token → List Item → List Token → Prop
  | nil (tokens : List Token) : Reads jsx tokens [] tokens
  | element {tokens behind rest last : List Token} {head : Element} {link : Link}
      {items : List Item} (hhead : readElement? jsx tokens = .ok (some (head, behind)))
      (hlink : link.Follows behind rest) (hmore : Reads jsx rest items last) :
      Reads jsx tokens (.element head link :: items) last
  | group {opening closing : Token} {tokens repeated behind rest last : List Token}
      {inside items : List Item} {repeater : Option Repeater} {link : Link}
      (hopening : opening.kind = .bracket .group true)
      (hinside : Reads jsx tokens inside (closing :: repeated))
      (hclosing : closing.kind = .bracket .group false)
      (hrepeater : readRepeater repeated = (repeater, behind))
      (hlink : link.Follows behind rest) (hmore : Reads jsx rest items last) :
      Reads jsx (opening :: tokens) (.group inside repeater link :: items) last

/-! ## Meaning -/

/-- The depth of a statement and the depth of the one behind its link. Nothing is further out than
the level itself. -/
inductive Link.Leads : Link → Nat → Nat → Prop
  | below (depth : Nat) : Leads .below depth (depth + 1)
  | beside (depth : Nat) : Leads .beside depth depth
  | climb (levels depth : Nat) : Leads (.climb levels) depth (depth - levels)

mutual

/-- The statement that a branch makes up: the one at its root, in which the statements of the
branches below come behind what it holds by itself. -/
inductive Builds : Outline.Branch Statement → Statement → Prop
  | element {head : Element} {content children : List Statement}
      {below : List (Outline.Branch Statement)} (h : BuildsAll below children) :
      Builds (.node (.element head content) below) (.element head (content ++ children))
  | group {repeater : Option Repeater} {content children : List Statement}
      {below : List (Outline.Branch Statement)} (h : BuildsAll below children) :
      Builds (.node (.group repeater content) below) (.group repeater (content ++ children))

/-- The statements of several branches, in their order. -/
inductive BuildsAll : List (Outline.Branch Statement) → List Statement → Prop
  | nil : BuildsAll [] []
  | cons {branch : Outline.Branch Statement} {statement : Statement}
      {branches : List (Outline.Branch Statement)} {statements : List Statement}
      (h : Builds branch statement) (hmore : BuildsAll branches statements) :
      BuildsAll (branch :: branches) (statement :: statements)

end

mutual

/-- The statement that an item is by itself. For a group this is the tree of the items in it. -/
inductive Item.Stands : Item → Statement → Prop
  | element (head : Element) (link : Link) :
      Item.Stands (.element head link) (.element head [])
  | group {inside : List Item} {content : List Statement} (repeater : Option Repeater)
      (link : Link) (h : Denotes inside content) :
      Item.Stands (.group inside repeater link) (.group repeater content)

/-- The statements of items in reading order, each with its depth: the first one stands at the
given depth, and each other one where the link behind the one before it puts it. -/
inductive Outlined : Nat → List Item → List (Nat × Statement) → Prop
  | nil (depth : Nat) : Outlined depth [] []
  | cons {depth next : Nat} {item : Item} {statement : Statement} {items : List Item}
      {outline : List (Nat × Statement)} (hitem : Item.Stands item statement)
      (hnext : item.link.Leads depth next) (hitems : Outlined next items outline) :
      Outlined depth (item :: items) ((depth, statement) :: outline)

/-- The tree that the items of a level denote: that of the only forest which, read in preorder with
depths from zero on, is the sequence of their statements with their depths. -/
inductive Denotes : List Item → List Statement → Prop
  | intro {items : List Item} {outline : List (Nat × Statement)}
      {forest : List (Outline.Branch Statement)} {statements : List Statement}
      (houtline : Outlined 0 items outline)
      (hforest : ∀ other, Outline.listing 0 other = outline ↔ other = forest)
      (hbuilds : BuildsAll forest statements) : Denotes items statements

end

/-! ## The tree of an outline -/

/-- The statement with more statements below it, behind those that are there. -/
def adopt (more : List Statement) : Statement → Statement
  | .element head children => .element head (children ++ more)
  | .group repeater children => .group repeater (children ++ more)

mutual

/-- The statement of a branch: the statement at its root adopts those below it. -/
def ofBranch : Outline.Branch Statement → Statement
  | .node statement below => statement.adopt (ofBranches below)

/-- The statements of several branches. -/
def ofBranches : List (Outline.Branch Statement) → List Statement
  | [] => []
  | branch :: branches => ofBranch branch :: ofBranches branches

end

/-- The statements that an outline denotes. -/
def ofOutline (items : List (Nat × Statement)) : List Statement :=
  ofBranches (Outline.forest items)

/-- The depth of the statement that follows one at `depth`. -/
def Link.next (depth : Nat) : Link → Nat
  | .below => depth + 1
  | .beside => depth
  | .climb levels => depth - levels

mutual

/-- The statement of an item. -/
def Item.statement : Item → Statement
  | .element head _ => .element head []
  | .group inside repeater _ => .group repeater (ofOutline (Item.outline 0 inside))

/-- The outline of items of which the first one stands at the given depth. -/
def Item.outline (depth : Nat) : List Item → List (Nat × Statement)
  | [] => []
  | item :: items => (depth, item.statement) :: Item.outline (item.link.next depth) items

end

/-- A link leads to one depth. -/
theorem Link.leads_iff {link : Link} {depth next : Nat} :
    link.Leads depth next ↔ next = link.next depth := by
  constructor
  · rintro (_ | _ | _) <;> rfl
  · rintro rfl
    cases link with
    | below => exact .below depth
    | beside => exact .beside depth
    | climb levels => exact .climb levels depth

mutual

/-- A branch makes up its statement. -/
theorem builds_ofBranch : ∀ branch : Outline.Branch Statement, Builds branch (ofBranch branch)
  | .node (.element _ _) below => .element (buildsAll_ofBranches below)
  | .node (.group _ _) below => .group (buildsAll_ofBranches below)

/-- Branches make up their statements. -/
theorem buildsAll_ofBranches : ∀ branches : List (Outline.Branch Statement),
    BuildsAll branches (ofBranches branches)
  | [] => .nil
  | branch :: branches => .cons (builds_ofBranch branch) (buildsAll_ofBranches branches)

end

mutual

/-- A branch makes up no other statement. -/
theorem Builds.eq_ofBranch : ∀ {branch : Outline.Branch Statement} {statement : Statement},
    Builds branch statement → statement = ofBranch branch
  | _, _, .element h => by rw [ofBranch, adopt, h.eq_ofBranches]
  | _, _, .group h => by rw [ofBranch, adopt, h.eq_ofBranches]

/-- Branches make up no other statements. -/
theorem BuildsAll.eq_ofBranches : ∀ {branches : List (Outline.Branch Statement)}
    {statements : List Statement}, BuildsAll branches statements → statements = ofBranches branches
  | _, _, .nil => by rw [ofBranches]
  | _, _, .cons h hmore => by rw [ofBranches, h.eq_ofBranch, hmore.eq_ofBranches]

end

/-- A link leads at most one level deeper. -/
theorem Link.next_le (depth : Nat) (link : Link) : link.next depth ≤ depth + 1 := by
  cases link with
  | below => exact Nat.le_refl _
  | beside => exact Nat.le_succ _
  | climb levels => exact Nat.le_succ_of_le (Nat.sub_le _ _)

/-- The outline of items is nested. -/
theorem Item.nestedFrom_outline {depth deepest : Nat} (hdepth : depth ≤ deepest)
    (items : List Item) : Outline.NestedFrom deepest (Item.outline depth items) := by
  induction items generalizing depth deepest with
  | nil =>
    rw [Item.outline]
    trivial
  | cons item items ih =>
    rw [Item.outline]
    exact ⟨hdepth, ih (Link.next_le depth item.link)⟩

/-- The forest of the items of a level is the only one that is listed as their outline. -/
theorem Item.listing_eq_outline_iff (items : List Item) (other : List (Outline.Branch Statement)) :
    Outline.listing 0 other = Item.outline 0 items ↔
      other = Outline.forest (Item.outline 0 items) :=
  Outline.listing_eq_iff (Item.nestedFrom_outline (Nat.le_refl 0) items)

mutual

/-- Every item is a statement by itself. -/
theorem Item.stands_statement : ∀ item : Item, item.Stands item.statement
  | .element head link => by
    rw [Item.statement]
    exact .element head link
  | .group inside repeater link => by
    rw [Item.statement]
    exact .group repeater link (.intro (Item.outlined_outline 0 inside)
      (Item.listing_eq_outline_iff inside) (buildsAll_ofBranches _))

/-- All items have an outline. -/
theorem Item.outlined_outline (depth : Nat) : ∀ items : List Item,
    Outlined depth items (Item.outline depth items)
  | [] => by
    rw [Item.outline]
    exact .nil depth
  | item :: items => by
    rw [Item.outline]
    exact .cons item.stands_statement (Link.leads_iff.2 rfl) (Item.outlined_outline _ items)

end

mutual

/-- An item is no other statement. -/
theorem Item.Stands.eq_statement : ∀ {item : Item} {statement : Statement},
    item.Stands statement → statement = item.statement
  | _, _, .element head link => by rw [Item.statement]
  | _, _, .group repeater link h => by rw [Item.statement, h.eq_ofOutline]

/-- Items have no other outline. -/
theorem Outlined.eq_outline : ∀ {depth : Nat} {items : List Item}
    {outline : List (Nat × Statement)},
    Outlined depth items outline → outline = Item.outline depth items
  | _, _, _, .nil depth => by rw [Item.outline]
  | _, _, _, .cons hitem hnext hitems => by
    rw [Item.outline, hitem.eq_statement, hitems.eq_outline, Link.leads_iff.1 hnext]

/-- Items denote no other tree. -/
theorem Denotes.eq_ofOutline : ∀ {items : List Item} {statements : List Statement},
    Denotes items statements → statements = ofOutline (Item.outline 0 items)
  | items, _, .intro houtline hforest hbuilds => by
    -- The forest is listed as the outline, and so is the one that is computed from it.
    have hlisting := (hforest _).2 rfl
    rw [houtline.eq_outline, Item.listing_eq_outline_iff] at hlisting
    rw [hbuilds.eq_ofBranches, hlisting, ofOutline]

end

/-- Items denote exactly one tree, which is that of their outline. -/
theorem denotes_iff {items : List Item} {statements : List Statement} :
    Denotes items statements ↔ statements = ofOutline (Item.outline 0 items) := by
  constructor
  · exact Denotes.eq_ofOutline
  · rintro rfl
    exact .intro (Item.outlined_outline 0 items) (Item.listing_eq_outline_iff items)
      (buildsAll_ofBranches _)

/-! ## Levels without operators -/

theorem adopt_nil (statement : Statement) : statement.adopt [] = statement := by
  cases statement with
  | element head children => rw [adopt, List.append_nil]
  | group repeater children => rw [adopt, List.append_nil]

/-- Branches without anything below them are listed as their statements. -/
theorem listing_leaves (depth : Nat) (statements : List Statement) :
    Outline.listing depth (statements.map (.node · [])) = statements.map (depth, ·) := by
  induction statements with
  | nil => rw [List.map_nil, Outline.listing, List.map_nil]
  | cons statement statements ih =>
    rw [List.map_cons, Outline.listing, Outline.Branch.listing, Outline.listing, ih, List.map_cons]
    rfl

/-- Branches without anything below them are their statements. -/
theorem ofBranches_leaves (statements : List Statement) :
    ofBranches (statements.map (.node · [])) = statements := by
  induction statements with
  | nil => rw [List.map_nil, ofBranches]
  | cons statement statements ih =>
    rw [List.map_cons, ofBranches, ofBranch, ofBranches, adopt_nil, ih]

/-- Statements that all stand at depth zero are what their outline denotes. -/
theorem ofOutline_beside (statements : List Statement) :
    ofOutline (statements.map (0, ·)) = statements := by
  rw [ofOutline, ← listing_leaves, Outline.forest_listing, ofBranches_leaves]

/-- Statements one level below an element are the ones below it in what the outline denotes. -/
theorem ofOutline_below (head : Element) (statements : List Statement) :
    ofOutline ((0, .element head []) :: statements.map (1, ·)) = [.element head statements] := by
  have hlisting : (0, .element head []) :: statements.map (1, ·) =
      Outline.listing 0 [.node (.element head []) (statements.map (.node · []))] := by
    rw [Outline.listing, Outline.Branch.listing, listing_leaves, Outline.listing, List.append_nil]
  rw [ofOutline, hlisting, Outline.forest_listing, ofBranches, ofBranch, ofBranches,
    ofBranches_leaves]
  rfl

/-- Items without an operator behind them all stand at the depth of the first one. -/
theorem Item.outline_of_beside (depth : Nat) {items : List Item}
    (h : ∀ item ∈ items, item.link = .beside) :
    Item.outline depth items = (items.map Item.statement).map (depth, ·) := by
  induction items with
  | nil => rw [Item.outline, List.map_nil, List.map_nil]
  | cons item items ih =>
    obtain ⟨hlink, hmore⟩ := List.forall_mem_cons.1 h
    rw [Item.outline, hlink, Link.next, ih hmore, List.map_cons, List.map_cons]

end Shorthand.Statement
