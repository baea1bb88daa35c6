import Mathlib.Data.List.TakeWhile

/-!
# The forest of an outline

An outline lists items in reading order, each with a depth, as the items of a forest are listed in
preorder. An outline in which no item is more than one level deeper than the one before it is the
listing of exactly one forest: that in which an item lies below the nearest earlier item that is
less deep.

## Main definitions

* `listing`: the outline of a forest;
* `forest`: the forest that an outline denotes;
* `Nested`: no item of the outline is more than one level deeper than the one before it.

## Main results

* `listing_forest`: a nested outline is the listing of the forest that it denotes;
* `forest_listing`: every forest is denoted by its listing;
* `listing_eq_iff`: a nested outline is the listing of no other forest.
-/

namespace Shorthand.Outline

/-- An item and the branches below it. -/
inductive Branch (α : Type)
  | node (item : α) (below : List (Branch α))

variable {α : Type}

mutual

/-- The outline of a branch that stands at `depth`. -/
def Branch.listing (depth : Nat) : Branch α → List (Nat × α)
  | .node item below => (depth, item) :: listing (depth + 1) below

/-- The outline of a forest whose roots stand at `depth`. -/
def listing (depth : Nat) : List (Branch α) → List (Nat × α)
  | [] => []
  | branch :: branches => branch.listing depth ++ listing depth branches

end

/-- Puts an item in front of what follows it: the branches that are deeper, up to the first that is
not, come to lie below it. -/
def grow (item : Nat × α) (later : List (Nat × Branch α)) : List (Nat × Branch α) :=
  let deeper := later.takeWhile (item.1 < ·.1)
  let beside := later.dropWhile (item.1 < ·.1)
  (item.1, .node item.2 (deeper.map Prod.snd)) :: beside

/-- The forest that an outline denotes. -/
def forest (items : List (Nat × α)) : List (Branch α) :=
  (items.foldr grow []).map Prod.snd

/-- The first item is at most as deep as `deepest`, and each other item at most one level deeper
than the one before it. -/
def NestedFrom (deepest : Nat) : List (Nat × α) → Prop
  | [] => True
  | item :: items => item.1 ≤ deepest ∧ NestedFrom (item.1 + 1) items

/-- The outline begins at depth zero, and no item is more than one level deeper than the one before
it. -/
def Nested (items : List (Nat × α)) : Prop :=
  NestedFrom 0 items

/-! ## Branches with depths -/

/-- The outline of branches that stand at different depths. -/
def unroll (branches : List (Nat × Branch α)) : List (Nat × α) :=
  branches.flatMap fun branch => branch.2.listing branch.1

/-- Each branch is at most as deep as the ones before it. -/
def Descending (branches : List (Nat × Branch α)) : Prop :=
  branches.Pairwise fun branch later => later.1 ≤ branch.1

@[simp]
theorem unroll_nil : unroll ([] : List (Nat × Branch α)) = [] := rfl

@[simp]
theorem unroll_cons (branch : Nat × Branch α) (branches : List (Nat × Branch α)) :
    unroll (branch :: branches) = branch.2.listing branch.1 ++ unroll branches := by
  simp [unroll]

@[simp]
theorem unroll_append (branches more : List (Nat × Branch α)) :
    unroll (branches ++ more) = unroll branches ++ unroll more := by
  simp [unroll]

/-- Branches at one depth are listed like a forest. -/
theorem unroll_eq_listing {depth : Nat} {branches : List (Nat × Branch α)}
    (h : ∀ branch ∈ branches, branch.1 = depth) :
    unroll branches = listing depth (branches.map Prod.snd) := by
  induction branches with
  | nil => simp [listing]
  | cons branch branches ih =>
    obtain ⟨rfl, hmore⟩ := List.forall_mem_cons.1 h
    rw [unroll_cons, ih hmore, List.map_cons, listing]

/-- Behind the branches that are deeper than `depth` there is none that is. -/
theorem Descending.le_of_mem_dropWhile {depth : Nat} {branches : List (Nat × Branch α)}
    (h : Descending branches) :
    ∀ branch ∈ branches.dropWhile (depth < ·.1), branch.1 ≤ depth := by
  induction branches with
  | nil => simp
  | cons branch branches ih =>
    obtain ⟨hle, hmore⟩ := List.pairwise_cons.1 h
    rw [List.dropWhile_cons]
    split
    next => exact ih hmore
    next hdeeper =>
      have hdepth : branch.1 ≤ depth := by simpa using hdeeper
      intro later hmem
      rcases List.mem_cons.1 hmem with rfl | hmem
      · exact hdepth
      · exact Nat.le_trans (hle later hmem) hdepth

/-! ## From outlines to forests -/

/-- Putting an item in front of branches that are at most one level deeper puts it in front of
their outline. -/
theorem unroll_grow {item : Nat × α} {later : List (Nat × Branch α)}
    (hle : ∀ branch ∈ later, branch.1 ≤ item.1 + 1) :
    unroll (grow item later) = item :: unroll later := by
  -- What the item takes in is deeper than the item, but by no more than one level.
  have hdeeper : ∀ branch ∈ later.takeWhile (item.1 < ·.1), branch.1 = item.1 + 1 := by
    intro branch hmem
    have hlt : item.1 < branch.1 := by simpa using List.mem_takeWhile_imp hmem
    have := hle branch ((List.takeWhile_sublist _).subset hmem)
    omega
  have hsplit := List.takeWhile_append_dropWhile (p := (item.1 < ·.1)) (l := later)
  rw [grow, unroll_cons, Branch.listing, ← unroll_eq_listing hdeeper, List.cons_append,
    ← unroll_append, hsplit]

/-- Putting an item in front of descending branches leaves them descending. -/
theorem Descending.grow {item : Nat × α} {later : List (Nat × Branch α)} (h : Descending later) :
    Descending (grow item later) :=
  List.pairwise_cons.2 ⟨h.le_of_mem_dropWhile, h.sublist (List.dropWhile_sublist _)⟩

/-- The branches of any outline are descending. -/
theorem descending_foldr_grow (items : List (Nat × α)) : Descending (items.foldr grow []) := by
  induction items with
  | nil => exact List.Pairwise.nil
  | cons item items ih => exact ih.grow

/-- The branches of an outline are no deeper than its first item may be. -/
theorem NestedFrom.le_of_mem_foldr_grow {deepest : Nat} {items : List (Nat × α)}
    (h : NestedFrom deepest items) : ∀ branch ∈ items.foldr grow [], branch.1 ≤ deepest := by
  cases items with
  | nil => simp
  | cons item items =>
    intro branch hmem
    rcases List.mem_cons.1 hmem with rfl | hmem
    · exact h.1
    · exact Nat.le_trans ((descending_foldr_grow items).le_of_mem_dropWhile branch hmem) h.1

/-- No item of a nested outline is lost, and all stay in their order. -/
theorem NestedFrom.unroll_foldr_grow {deepest : Nat} {items : List (Nat × α)}
    (h : NestedFrom deepest items) : unroll (items.foldr grow []) = items := by
  induction items generalizing deepest with
  | nil => rfl
  | cons item items ih =>
    rw [List.foldr_cons, unroll_grow h.2.le_of_mem_foldr_grow, ih h.2]

/-- A nested outline is the listing of the forest that it denotes. -/
theorem listing_forest {items : List (Nat × α)} (h : Nested items) :
    listing 0 (forest items) = items := by
  have hroots : ∀ branch ∈ items.foldr grow [], branch.1 = 0 := fun branch hmem =>
    Nat.le_zero.1 (h.le_of_mem_foldr_grow branch hmem)
  rw [forest, ← unroll_eq_listing hroots, h.unroll_foldr_grow]

/-! ## From forests to outlines -/

/-- Branches that are one level deeper than an item all come to lie below it, and nothing else
does. -/
theorem grow_map_append {depth : Nat} {item : α} {below : List (Branch α)}
    {later : List (Nat × Branch α)} (hle : ∀ branch ∈ later.head?, branch.1 ≤ depth) :
    grow (depth, item) (below.map (depth + 1, ·) ++ later) =
      (depth, .node item below) :: later := by
  have hbelow : ∀ branch ∈ below.map (depth + 1, ·), decide (depth < branch.1) = true := by
    simp
  have hstop : later.takeWhile (depth < ·.1) = [] ∧ later.dropWhile (depth < ·.1) = later := by
    cases later with
    | nil => simp
    | cons branch later =>
      have hdepth : ¬ depth < branch.1 := Nat.not_lt.2 (hle branch rfl)
      simp [hdepth]
  rw [grow, List.takeWhile_append_of_pos hbelow, List.dropWhile_append_of_pos hbelow, hstop.1,
    hstop.2]
  simp [Function.comp_def]

mutual

/-- A branch grows again from its listing, in front of branches that are no deeper. -/
theorem foldr_grow_branchListing (depth : Nat) (later : List (Nat × Branch α))
    (hle : ∀ branch ∈ later.head?, branch.1 ≤ depth) :
    ∀ branch : Branch α,
      (branch.listing depth).foldr grow later = (depth, branch) :: later
  | .node item below => by
    have hbelow := foldr_grow_listing (depth + 1) later
      (fun branch hmem => Nat.le_succ_of_le (hle branch hmem)) below
    rw [Branch.listing, List.foldr_cons, hbelow, grow_map_append hle]

/-- A forest grows again from its listing, in front of branches that are no deeper. -/
theorem foldr_grow_listing (depth : Nat) (later : List (Nat × Branch α))
    (hle : ∀ branch ∈ later.head?, branch.1 ≤ depth) :
    ∀ branches : List (Branch α),
      (listing depth branches).foldr grow later = branches.map (depth, ·) ++ later
  | [] => rfl
  | branch :: branches => by
    -- The outline is folded from its end, so the branches behind this one are there already.
    rw [listing, List.foldr_append, foldr_grow_listing depth later hle branches,
      foldr_grow_branchListing depth _ ?_ branch]
    · rfl
    · cases branches with
      | nil => exact hle
      | cons => simp

end

/-- Every forest is denoted by its listing. -/
theorem forest_listing (branches : List (Branch α)) : forest (listing 0 branches) = branches := by
  rw [forest, foldr_grow_listing 0 [] (by simp) branches]
  simp [Function.comp_def]

/-- A nested outline is the listing of the forest that it denotes, and of no other. -/
theorem listing_eq_iff {items : List (Nat × α)} (h : Nested items) {branches : List (Branch α)} :
    listing 0 branches = items ↔ branches = forest items := by
  constructor
  · rintro rfl
    exact (forest_listing branches).symm
  · rintro rfl
    exact listing_forest h

end Shorthand.Outline
