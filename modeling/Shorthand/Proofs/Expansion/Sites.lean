import Shorthand.Proofs.Expansion.Copies

/-!
# Sites of elements

An element of a tree stands at a site: within the repeaters of the statements around it, its own
included. A copy of the element belongs to one clone of each of them. The copies of a tree are
listed here with the number of the element that each is a copy of, so that those of one element can
be told from the others. In reading order they are one for each combination of clones of the
repeaters at its site, those of the outer repeaters varying slowest.

## Main definitions

* `Site`, `sites`, `sitesAll`: the elements of a statement with the repeaters around them;
* `Options.combinations`: the combinations of clones of several repeaters;
* `indexed`, `indexedAll`: copies with the number of their element;
* `CloneOf`: a clone of a repeater;
* `copiesAt`, `nodesAt`: the copies of one element, and its nodes in the output.

## Main results

* `filterMap_ofElement`: the copies of one element;
* `exists_site_of_mem_indexedAll`: the clones that a copy belongs to are those of the repeaters
  around its element;
* `forall₂_renders_nodesAt`: the nodes of one element.
-/

namespace Shorthand

/-- The clones around each repetition of what is within the repeaters, which are given from the
innermost one on, and within the clones around all of them. -/
def Options.combinations (options : Options) : List Repeater → List Repeater → List (List Repeater)
  | [], loops => [loops]
  | inner :: outer, loops =>
    (options.combinations outer loops).flatMap (options.rounds (some inner))

namespace Statement

/-! ## Sites -/

/-- An element in its place. -/
structure Site where
  head : Element
  /-- The repeaters of the element and of the statements around it, the innermost first. -/
  around : List Repeater

/-- The site within a statement with this repeater, if it has one. -/
def Site.within (repeater : Option Repeater) (site : Site) : Site :=
  { site with around := site.around ++ repeater.toList }

mutual

/-- The sites of the elements of a statement in reading order. -/
def sites : Statement → List Site
  | .element head children =>
    ⟨head, head.repeater.toList⟩ :: (sitesAll children).map (Site.within head.repeater)
  | .group repeater children => (sitesAll children).map (Site.within repeater)

/-- The sites of the elements of several statements in reading order. -/
def sitesAll : List Statement → List Site
  | [] => []
  | statement :: statements => sites statement ++ sitesAll statements

end

mutual

/-- The copies of the elements of a statement in reading order, each with the number of its element
in reading order. The first element has the number `first`. -/
def indexed (options : Options) (loops : List Repeater) (first : Nat) :
    Statement → List (Nat × Copy)
  | .element head children =>
    (options.rounds head.repeater loops).flatMap fun loops =>
      (first, ⟨head, loops⟩) :: indexedAll options loops (first + 1) children
  | .group repeater children =>
    (options.rounds repeater loops).flatMap fun loops => indexedAll options loops first children

/-- The copies of the elements of several statements, each with the number of its element. -/
def indexedAll (options : Options) (loops : List Repeater) (first : Nat) :
    List Statement → List (Nat × Copy)
  | [] => []
  | statement :: statements => indexed options loops first statement ++
      indexedAll options loops (first + (sites statement).length) statements

end

/-- A clone of a repeater: it counts among as many as the repeater makes. -/
structure CloneOf (options : Options) (written clone : Repeater) : Prop where
  count : clone.count = options.countOf (some written)
  index : clone.index < clone.count
  implicit : clone.implicit = written.implicit

variable {options : Options} {loops : List Repeater} {repeater : Option Repeater}
  {statement : Statement} {statements : List Statement}

/-! ## Combinations of clones -/

/-- The clones of inner repeaters are combined with each combination of those further out. -/
theorem combinations_append (inner outer : List Repeater) (loops : List Repeater) :
    options.combinations (inner ++ outer) loops =
      (options.combinations outer loops).flatMap (options.combinations inner) := by
  induction inner with
  | nil =>
    exact (List.map_id _).symm.trans (List.flatMap_pure_eq_map id _).symm
  | cons first inner ih =>
    rw [List.cons_append, Options.combinations, ih, List.flatMap_assoc]
    rfl

theorem combinations_toList (repeater : Option Repeater) (loops : List Repeater) :
    options.combinations repeater.toList loops = options.rounds repeater loops := by
  cases repeater with
  | none => rfl
  | some written =>
    rw [Option.toList_some, Options.combinations, Options.combinations, List.flatMap_singleton]

/-- A combination has a clone of each repeater. -/
theorem exists_clones_of_mem_combinations {around inner : List Repeater}
    (h : inner ∈ options.combinations around loops) :
    ∃ clones, inner = clones ++ loops ∧ List.Forall₂ (CloneOf options) around clones := by
  induction around generalizing inner with
  | nil =>
    obtain rfl : inner = loops := List.mem_singleton.1 h
    exact ⟨[], rfl, .nil⟩
  | cons written outer ih =>
    obtain ⟨further, hfurther, hmem⟩ := List.mem_flatMap.1 h
    obtain ⟨clones, rfl, hclones⟩ := ih hfurther
    obtain ⟨index, hlt, rfl⟩ := exists_of_mem_rounds hmem
    exact ⟨options.cloneAt written index :: clones, rfl, .cons ⟨rfl, hlt, rfl⟩ hclones⟩

/-! ## Copies of one element -/

/-- The copies of the element at a site, given the clones around all repeaters of the site. -/
def Site.copies (options : Options) (loops : List Repeater) (site : Site) : List Copy :=
  (options.combinations site.around loops).map fun loops => ⟨site.head, loops⟩

/-- Within another statement, an element has its copies in each repetition of the statement. -/
theorem Site.copies_within (repeater : Option Repeater) (site : Site) :
    (site.within repeater).copies options loops =
      (options.rounds repeater loops).flatMap fun loops => site.copies options loops := by
  rw [copies, within, combinations_append, combinations_toList, List.map_flatMap]
  rfl

/-- The copies of the element with the given number, of which there are none if there is no such
element. -/
def copiesAt (options : Options) (loops : List Repeater) (sites : List Site) (number : Nat) :
    List Copy :=
  (sites[number]?.map (Site.copies options loops)).getD []

theorem copiesAt_append (sites more : List Site) (number : Nat) :
    copiesAt options loops (sites ++ more) number =
      if number < sites.length then copiesAt options loops sites number
      else copiesAt options loops more (number - sites.length) := by
  unfold copiesAt
  split
  next hlt => rw [List.getElem?_append_left hlt]
  next hge => rw [List.getElem?_append_right (Nat.le_of_not_lt hge)]

theorem copiesAt_map_within (repeater : Option Repeater) (sites : List Site) (number : Nat) :
    copiesAt options loops (sites.map (Site.within repeater)) number =
      (options.rounds repeater loops).flatMap fun loops => copiesAt options loops sites number := by
  unfold copiesAt
  rw [List.getElem?_map]
  cases sites[number]? with
  | none => exact (List.flatMap_eq_nil_iff.2 fun _ _ => rfl).symm
  | some site => exact site.copies_within repeater

/-- The entry if it belongs to the element with the given number. -/
def ofElement {α : Type} (number : Nat) (entry : Nat × α) : Option α :=
  if entry.1 = number then some entry.2 else none

mutual

/-- The copies with one number are those of the element with this number. -/
theorem ofElement_indexed : ∀ (statement : Statement) (loops : List Repeater) (first number : Nat),
    (indexed options loops first statement).filterMap (ofElement number) =
      if number < first then [] else copiesAt options loops (sites statement) (number - first)
  | .element head children, loops, first, number => by
    have hbelow (inner : List Repeater) := ofElement_indexedAll children inner (first + 1) number
    rw [indexed, List.filterMap_flatMap, sites]
    simp only [List.filterMap_cons, hbelow, ofElement]
    rcases Nat.lt_trichotomy number first with hlt | rfl | hgt
    · rw [if_pos hlt]
      refine List.flatMap_eq_nil_iff.2 fun inner _ => ?_
      rw [if_neg hlt.ne', if_pos (Nat.lt_succ_of_lt hlt)]
    -- The element itself has one copy in each repetition.
    · simp only [if_true, if_neg (Nat.lt_irrefl number), if_pos (Nat.lt_succ_self number),
        Nat.sub_self, copiesAt, List.getElem?_cons_zero, Option.map_some, Option.getD_some,
        Site.copies, combinations_toList]
      exact List.flatMap_pure_eq_map _ _
    -- The elements below it have the later numbers.
    · obtain ⟨later, rfl⟩ := Nat.exists_eq_add_of_lt hgt
      have hlater : first + later + 1 - first = later + 1 := by omega
      rw [if_neg hgt.not_gt, hlater, copiesAt, List.getElem?_cons_succ]
      refine Eq.trans ?_ (copiesAt_map_within head.repeater _ later).symm
      refine List.flatMap_congr fun inner _ => ?_
      rw [if_neg hgt.ne, if_neg (by omega), show first + later + 1 - (first + 1) = later by omega]
  | .group repeater children, loops, first, number => by
    rw [indexed, List.filterMap_flatMap, sites, copiesAt_map_within]
    simp only [ofElement_indexedAll children]
    split
    next => exact List.flatMap_eq_nil_iff.2 fun _ _ => rfl
    next => rfl

theorem ofElement_indexedAll : ∀ (statements : List Statement) (loops : List Repeater)
    (first number : Nat), (indexedAll options loops first statements).filterMap (ofElement number) =
      if number < first then [] else copiesAt options loops (sitesAll statements) (number - first)
  | [], loops, first, number => by
    rw [indexedAll, sitesAll]
    split
    next => rfl
    next => rfl
  | statement :: statements, loops, first, number => by
    rw [indexedAll, sitesAll, List.filterMap_append, ofElement_indexed statement,
      ofElement_indexedAll statements, copiesAt_append]
    split
    next hlt => rw [if_pos (by omega), List.append_nil]
    next hge =>
      split
      next hmine => rw [if_pos (by omega), List.append_nil]
      next hlater =>
        -- There is no element with this number in the first statement.
        have hnone : copiesAt options loops (sites statement) (number - first) = [] := by
          rw [copiesAt, List.getElem?_eq_none (by omega)]
          rfl
        rw [hnone, if_neg (by omega), List.nil_append, Nat.sub_add_eq]

end

/-- Among the copies of a tree, these are the ones of an element. -/
theorem filterMap_ofElement (statements : List Statement) (number : Nat) :
    (indexedAll options [] 0 statements).filterMap (ofElement number) =
      copiesAt options [] (sitesAll statements) number := by
  rw [ofElement_indexedAll, if_neg (Nat.not_lt_zero _), Nat.sub_zero]

/-- A copy is one of the element with its number, and it belongs to a clone of each repeater around
that. -/
theorem exists_site_of_mem_indexedAll {entry : Nat × Copy}
    (h : entry ∈ indexedAll options [] 0 statements) :
    ∃ site, (sitesAll statements)[entry.1]? = some site ∧ entry.2.head = site.head ∧
      List.Forall₂ (CloneOf options) site.around entry.2.loops := by
  have hmem : entry.2 ∈ copiesAt options [] (sitesAll statements) entry.1 := by
    rw [← filterMap_ofElement]
    exact List.mem_filterMap.2 ⟨entry, h, if_pos rfl⟩
  unfold copiesAt at hmem
  cases hsite : (sitesAll statements)[entry.1]? with
  | none =>
    rw [hsite] at hmem
    cases hmem
  | some site =>
    rw [hsite] at hmem
    obtain ⟨loops, hloops, hcopy⟩ := List.mem_map.1 hmem
    obtain ⟨clones, rfl, hclones⟩ := exists_clones_of_mem_combinations hloops
    rw [List.append_nil] at hcopy
    rw [← hcopy]
    exact ⟨site, rfl, rfl, hclones⟩

mutual

/-- Without their numbers, these are the copies of the statement. -/
theorem map_snd_indexed : ∀ (statement : Statement) (loops : List Repeater) (first : Nat),
    (indexed options loops first statement).map Prod.snd = copies options loops statement
  | .element head children, loops, first => by
    rw [indexed, copies, List.map_flatMap]
    refine List.flatMap_congr fun inner _ => ?_
    rw [List.map_cons, map_snd_indexedAll children]
  | .group repeater children, loops, first => by
    rw [indexed, copies, List.map_flatMap]
    exact List.flatMap_congr fun inner _ => map_snd_indexedAll children inner first

theorem map_snd_indexedAll : ∀ (statements : List Statement) (loops : List Repeater) (first : Nat),
    (indexedAll options loops first statements).map Prod.snd = copiesAll options loops statements
  | [], loops, first => by
    rw [indexedAll, copiesAll]
    rfl
  | statement :: statements, loops, first => by
    rw [indexedAll, copiesAll, List.map_append, map_snd_indexed statement,
      map_snd_indexedAll statements]

end

/-! ## Nodes of one element -/

/-- The nodes of the output that belong to the element with the given number, in reading order. -/
def nodesAt (options : Options) (statements : List Statement) (number : Nat) : List Node :=
  let nodes := Node.listingAll (convert options statements)
  ((indexedAll options [] 0 statements).zip nodes).filterMap fun entry =>
    ofElement number (entry.1.1, entry.2)

/-- Related entries stay related where those of other elements are left out. -/
theorem forall₂_filterMap_ofElement {α β : Type} {R : α → β → Prop} {entries : List (Nat × α)}
    {nodes : List β} (h : List.Forall₂ (fun entry node => R entry.2 node) entries nodes)
    (number : Nat) : List.Forall₂ R (entries.filterMap (ofElement number))
      ((entries.zip nodes).filterMap fun entry => ofElement number (entry.1.1, entry.2)) := by
  induction h with
  | nil => exact .nil
  | @cons entry node entries nodes hentry _ ih =>
    rw [List.zip_cons_cons, List.filterMap_cons, List.filterMap_cons]
    unfold ofElement
    dsimp only
    by_cases hnumber : entry.1 = number
    · rw [if_pos hnumber, if_pos hnumber]
      exact .cons hentry ih
    · rw [if_neg hnumber, if_neg hnumber]
      exact ih

/-- If the clones that are needed fit in under the limit, there is one node for each copy of the
element, that is, for each combination of clones of the repeaters around it. -/
theorem forall₂_renders_nodesAt
    (hfits : clonesNeededAll options 1 statements ≤ options.repeatLimit) (number : Nat) :
    List.Forall₂ (Copy.Renders options) (copiesAt options [] (sitesAll statements) number)
      (nodesAt options statements number) := by
  obtain ⟨found, haccounts⟩ := exists_accounts_convert options statements
  obtain ⟨rfl, -⟩ := haccounts.complete (by rwa [Nat.zero_add])
  have hrenders := haccounts.renders
  rw [← map_snd_indexedAll statements [] 0, List.forall₂_map_left_iff] at hrenders
  rw [← filterMap_ofElement]
  exact forall₂_filterMap_ofElement hrenders number

end Statement

end Shorthand
