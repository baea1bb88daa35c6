import Shorthand.Proofs.Statement.Level

/-!
# Open statements and depths

A level that is read keeps the statements that are open and puts each below the next one when it is
closed. This is the same tree as the one that the depths of the statements denote: as long as what
follows is not deeper, a statement that is closed at once and one that waits for what follows take
the same place.

## Main definitions

* `adoptDeeper`: puts a statement in front of what follows it, which takes in what is deeper;
* `Level.outline`: the statements of a level with their depths, the open ones last;
* `Level.append`: what has been read of a level, with further items.

## Main results

* `Level.foldr_outline_attach`, `Level.foldr_outline_climb`: closing statements changes nothing for
  what follows outside of them;
* `Level.statements_append`: a level of which only items have been read holds the tree of these.
-/

namespace Shorthand.Statement

/-! ## Statements in front of deeper ones -/

/-- Puts a statement in front of what follows it: the statements that are deeper, up to the first
that is not, come to lie below it. -/
def adoptDeeper (item : Nat × Statement) (later : List (Nat × Statement)) :
    List (Nat × Statement) :=
  (item.1, item.2.adopt ((later.takeWhile (item.1 < ·.1)).map Prod.snd)) ::
    later.dropWhile (item.1 < ·.1)

theorem ofBranches_eq_map (branches : List (Outline.Branch Statement)) :
    ofBranches branches = branches.map ofBranch := by
  induction branches with
  | nil => rw [ofBranches, List.map_nil]
  | cons branch branches ih => rw [ofBranches, ih, List.map_cons]

/-- The statements of branches that grow from an item are those that the item adopts. -/
theorem map_grow (item : Nat × Statement) (later : List (Nat × Outline.Branch Statement)) :
    (Outline.grow item later).map (Prod.map id ofBranch) =
      adoptDeeper item (later.map (Prod.map id ofBranch)) := by
  have hdeeper : (fun later : Nat × Statement => decide (item.1 < later.1)) ∘
      Prod.map id ofBranch = fun later => decide (item.1 < later.1) := rfl
  simp [Outline.grow, adoptDeeper, List.takeWhile_map, List.dropWhile_map, hdeeper, ofBranch,
    ofBranches_eq_map, Function.comp_def]

/-- The statements that an outline denotes are gathered from its end. -/
theorem ofOutline_eq_foldr (items : List (Nat × Statement)) :
    ofOutline items = (items.foldr adoptDeeper []).map Prod.snd := by
  have hfoldr : (items.foldr Outline.grow []).map (Prod.map id ofBranch) =
      items.foldr adoptDeeper [] := by
    induction items with
    | nil => rfl
    | cons item items ih => rw [List.foldr_cons, List.foldr_cons, map_grow, ih]
  rw [ofOutline, Outline.forest, ofBranches_eq_map, ← hfoldr, List.map_map, List.map_map]
  rfl

/-- Pushing a statement and adopting more is adopting all of them. -/
theorem adopt_push (statement child : Statement) (more : List Statement) :
    (statement.push child).adopt more = statement.adopt (child :: more) := by
  cases statement with
  | element head children => simp [push, adopt]
  | group repeater children => simp [push, adopt]

/-- In front of what is no deeper, a statement adopts nothing. -/
theorem adoptDeeper_of_le {depth : Nat} (statement : Statement) {later : List (Nat × Statement)}
    (hle : ∀ next ∈ later.head?, next.1 ≤ depth) :
    adoptDeeper (depth, statement) later = (depth, statement) :: later := by
  cases later with
  | nil => simp [adoptDeeper, adopt_nil]
  | cons next later =>
    have hstop : ¬ depth < next.1 := Nat.not_lt.2 (hle next rfl)
    simp [adoptDeeper, hstop, adopt_nil]

/-- In front of what is no deeper, a statement one level below another one may as well have been
pushed to that one. -/
theorem adoptDeeper_push {depth : Nat} (parent child : Statement) {later : List (Nat × Statement)}
    (hle : ∀ next ∈ later.head?, next.1 ≤ depth + 1) :
    adoptDeeper (depth, parent) (adoptDeeper (depth + 1, child) later) =
      adoptDeeper (depth, parent.push child) later := by
  rw [adoptDeeper_of_le child hle]
  simp [adoptDeeper, adopt_push]

/-! ## The outline of a level -/

namespace Level

/-- Open statements with their depths, given the innermost first. -/
def openOutline : List Statement → List (Nat × Statement)
  | [] => []
  | statement :: outer => openOutline outer ++ [(outer.length, statement)]

/-- The statements of a level with their depths: the closed ones at the root, and then the open
ones, each one level deeper than the one around it. -/
def outline (level : Level) : List (Nat × Statement) :=
  level.roots.map (0, ·) ++ openOutline level.ancestors

/-- The depth of the statement that comes next. -/
def depth (level : Level) : Nat :=
  level.ancestors.length

variable {later : List (Nat × Statement)}

/-- For what is no deeper than a statement, the statement may as well have been attached. -/
theorem foldr_outline_attach (level : Level) (statement : Statement)
    (hle : ∀ next ∈ later.head?, next.1 ≤ level.depth) :
    (level.attach statement).outline.foldr adoptDeeper later =
      (level.outline ++ [(level.depth, statement)]).foldr adoptDeeper later := by
  obtain ⟨roots, ancestors⟩ := level
  cases ancestors with
  | nil => simp [attach, outline, depth, openOutline]
  | cons parent outer =>
    simp only [attach, outline, depth, openOutline, List.length_cons, List.foldr_append,
      List.foldr_cons, List.foldr_nil]
    rw [adoptDeeper_push parent statement hle]

/-- Closing the innermost open statement makes the next one stand one level further out. -/
@[simp]
theorem depth_attach (level : Level) (statement : Statement) :
    (level.attach statement).depth = level.depth := by
  obtain ⟨roots, ancestors⟩ := level
  cases ancestors <;> rfl

@[simp]
theorem depth_pop (level : Level) : level.pop.depth = level.depth - 1 := by
  obtain ⟨roots, ancestors⟩ := level
  cases ancestors with
  | nil => rfl
  | cons closed outer => exact depth_attach { roots, ancestors := outer } closed

@[simp]
theorem depth_climb (level : Level) (levels : Nat) :
    (level.climb levels).depth = level.depth - levels := by
  induction levels generalizing level with
  | zero => rfl
  | succ levels ih => rw [climb, ih, depth_pop, Nat.sub_sub, Nat.add_comm]

/-- For what stands outside of the innermost open statement, that one may as well be closed. -/
theorem foldr_outline_pop (level : Level) (hle : ∀ next ∈ later.head?, next.1 ≤ level.depth - 1) :
    level.pop.outline.foldr adoptDeeper later = level.outline.foldr adoptDeeper later := by
  obtain ⟨roots, ancestors⟩ := level
  cases ancestors with
  | nil => rfl
  | cons closed outer =>
    rw [pop, foldr_outline_attach { roots, ancestors := outer } closed hle]
    simp [outline, openOutline, depth]

/-- For what stands outside of a number of open statements, these may as well be closed. -/
theorem foldr_outline_climb (level : Level) {levels : Nat}
    (hle : ∀ next ∈ later.head?, next.1 ≤ level.depth - levels) :
    (level.climb levels).outline.foldr adoptDeeper later =
      level.outline.foldr adoptDeeper later := by
  induction levels generalizing level with
  | zero => rfl
  | succ levels ih =>
    -- What follows is no deeper than the last statement that is closed, nor than those before.
    have hpop : ∀ next ∈ later.head?, next.1 ≤ level.depth - 1 := fun next hmem =>
      (hle next hmem).trans (by omega)
    have hclimb : ∀ next ∈ later.head?, next.1 ≤ level.pop.depth - levels := fun next hmem =>
      (hle next hmem).trans (by rw [depth_pop]; omega)
    rw [climb, ih level.pop hclimb, foldr_outline_pop level hpop]

/-- The next statement stands where the link leads. -/
theorem depth_add (level : Level) (statement : Statement) (link : Link) :
    (level.add statement link).depth = link.next level.depth := by
  cases link with
  | below => rfl
  | beside => exact depth_attach level statement
  | climb levels => rw [add, depth_climb, depth_attach, Link.next]

/-- For what follows behind its link, a statement that is added comes last in the outline. -/
theorem foldr_outline_add (level : Level) (statement : Statement) {link : Link}
    (hle : ∀ next ∈ later.head?, next.1 ≤ link.next level.depth) :
    (level.add statement link).outline.foldr adoptDeeper later =
      (level.outline ++ [(level.depth, statement)]).foldr adoptDeeper later := by
  cases link with
  | below => simp [add, outline, openOutline, depth]
  | beside => exact foldr_outline_attach level statement hle
  | climb levels =>
    -- The statement itself is closed first, and then as many as the link says.
    have hattach : ∀ next ∈ later.head?, next.1 ≤ level.depth := fun next hmem =>
      (hle next hmem).trans (Nat.sub_le _ _)
    have hclimb : ∀ next ∈ later.head?, next.1 ≤ (level.attach statement).depth - levels := by
      rwa [depth_attach]
    rw [add, foldr_outline_climb _ hclimb, foldr_outline_attach level statement hattach]

/-- Statements at the root stay as they are. -/
theorem foldr_adoptDeeper_roots (roots : List Statement) :
    (roots.map (0, ·)).foldr adoptDeeper [] = roots.map (0, ·) := by
  induction roots with
  | nil => rfl
  | cons root roots ih =>
    rw [List.map_cons, List.foldr_cons, ih, adoptDeeper_of_le root]
    simp

/-- The statements of a level are those that its outline denotes. -/
theorem statements_eq_ofOutline (level : Level) : level.statements = ofOutline level.outline := by
  -- When all open statements are closed, nothing follows that could still come to lie below one.
  have hclosed : (level.climb level.depth).ancestors = [] :=
    List.length_eq_zero_iff.1 ((depth_climb level level.depth).trans (Nat.sub_self _))
  have houtline : (level.climb level.depth).outline.foldr adoptDeeper [] =
      level.outline.foldr adoptDeeper [] := foldr_outline_climb level (by simp)
  rw [ofOutline_eq_foldr, ← houtline, outline, hclosed, openOutline, List.append_nil,
    foldr_adoptDeeper_roots, List.map_map]
  exact (List.map_id _).symm

/-! ## Levels with further items -/

/-- What has been read of a level, with further items behind it. -/
def append (level : Level) (items : List Item) : Level :=
  items.foldl (fun level item => level.add item.statement item.link) level

@[simp]
theorem append_nil (level : Level) : level.append [] = level := rfl

@[simp]
theorem append_cons (level : Level) (item : Item) (items : List Item) :
    level.append (item :: items) = (level.add item.statement item.link).append items := rfl

/-- The items come behind the outline of the level. -/
theorem foldr_outline_append (level : Level) (items : List Item) :
    (level.append items).outline.foldr adoptDeeper [] =
      (level.outline ++ Item.outline level.depth items).foldr adoptDeeper [] := by
  induction items generalizing level with
  | nil => simp [Item.outline]
  | cons item items ih =>
    -- The items behind this one begin where its link leads, so none of them lies below what the
    -- link closes.
    have hle : ∀ next ∈ ((Item.outline (item.link.next level.depth) items).foldr
        adoptDeeper []).head?, next.1 ≤ item.link.next level.depth := by
      cases items with
      | nil => simp [Item.outline]
      | cons item items => simp [Item.outline, adoptDeeper]
    rw [append_cons, ih, depth_add, List.foldr_append, foldr_outline_add level item.statement hle,
      Item.outline, ← List.foldr_append, List.append_assoc, List.singleton_append]

/-- The statements of a level of which only items have been read. -/
theorem statements_append (items : List Item) :
    (({} : Level).append items).statements = ofOutline (Item.outline 0 items) := by
  rw [statements_eq_ofOutline, ofOutline_eq_foldr, foldr_outline_append, ofOutline_eq_foldr]
  rfl

end Level

end Shorthand.Statement
