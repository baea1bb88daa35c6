import Mathlib.Tactic.Ring
import Shorthand.Proofs.Expansion.Listing
import Shorthand.Proofs.Expansion.Unrepeated

/-!
# Copies of elements

Written out in full, a tree has one copy of each of its elements for every combination of clones of
the element and of the statements around it. Read in order, the output consists of such copies: of
all of them if the limit on clones leaves room, and in any case of one of each element at least.

## Main definitions

* `Options.countOf`: how often a statement is written out;
* `copies`, `copiesAll`: the copies of the elements of a statement and of a list of statements;
* `clonesNeeded`, `clonesNeededAll`: how many clones writing all of them out takes;
* `Copy.Renders`: a node is what a copy becomes.

## Main results

* `exists_accounts_unroll`: the nodes that a statement is unrolled to, in reading order, are copies
  of its elements;
* `forall₂_renders_convert`: within the limit, the output is the list of all copies.
-/

namespace Shorthand

/-! ## Copies -/

/-- How often a statement with this repeater is written out: once without a repeater, as often as
the repeater says but at least once, and as often as there are lines to fill in if the repeater
leaves the count to the supplied text. -/
def Options.countOf (options : Options) : Option Repeater → Nat
  | none => 1
  | some written =>
    if written.implicit then
      match options.text with
      | some (.lines lines) => max 1 (SuppliedText.filledLines lines).length
      | _ => 1
    else max 1 written.count

theorem Options.cloneCount_eq (options : Options) (written : Repeater) :
    options.cloneCount written = options.countOf (some written) := by
  rw [cloneCount, countOf]
  rcases options.text with _ | _ | _
  · rfl
  · rfl
  · rfl

theorem Options.countOf_pos (options : Options) (repeater : Option Repeater) :
    0 < options.countOf repeater := by
  cases repeater with
  | none => exact Nat.one_pos
  | some written =>
    rw [← cloneCount_eq]
    exact Statement.cloneCount_pos options written

/-- The clone of a repeater at an index. -/
def Options.cloneAt (options : Options) (written : Repeater) (index : Nat) : Repeater :=
  { count := options.countOf (some written), index, implicit := written.implicit }

namespace Statement

/-- One clone of a statement: its nodes as `body` makes them, and with the line that belongs to the
clone, if that is not claimed inside. -/
def makeClone (options : Options) (loops : List Repeater) (written : Repeater) (claimed : Bool)
    (body : Scope → Option Repeater → Nat → Unrolled) (index made : Nat) : Unrolled :=
  let clone := options.cloneAt written index
  let unrolled := body ⟨options, clone :: loops⟩ (some clone) made
  if written.implicit && !claimed then
    (Node.modifyLastLeaf (Node.appendText (options.textAt (some index))) unrolled.1, unrolled.2)
  else unrolled

/-- A repeated statement is unrolled clone by clone. -/
theorem repeated_some (options : Options) (loops : List Repeater) (written : Repeater)
    (claimed : Bool) (body : Scope → Option Repeater → Nat → Unrolled) (made : Nat) :
    repeated ⟨options, loops⟩ (some written) claimed body made =
      clones options.repeatLimit (makeClone options loops written claimed body) 0 made
        (options.countOf (some written)) := by
  rw [repeated]
  dsimp only
  rw [options.cloneCount_eq]
  rfl

end Statement

/-- The clones around each repetition of a statement with this repeater, the innermost first, given
those around the statement. -/
def Options.rounds (options : Options) (repeater : Option Repeater) (loops : List Repeater) :
    List (List Repeater) :=
  match repeater with
  | none => [loops]
  | some written =>
    (List.range (options.countOf repeater)).map fun index => options.cloneAt written index :: loops

namespace Statement

/-- One copy of an element. -/
structure Copy where
  /-- The element. -/
  head : Element
  /-- Which clones the copy belongs to: that of its own repeater, if it has one, and those of the
  repeaters around it, the innermost first. -/
  loops : List Repeater
deriving DecidableEq

mutual

/-- The copies of the elements of a statement in reading order, given the clones around it. -/
def copies (options : Options) (loops : List Repeater) : Statement → List Copy
  | .element head children =>
    (options.rounds head.repeater loops).flatMap fun loops =>
      ⟨head, loops⟩ :: copiesAll options loops children
  | .group repeater children =>
    (options.rounds repeater loops).flatMap fun loops => copiesAll options loops children

/-- The copies of the elements of several statements in reading order. -/
def copiesAll (options : Options) (loops : List Repeater) : List Statement → List Copy
  | [] => []
  | statement :: statements =>
    copies options loops statement ++ copiesAll options loops statements

end

mutual

/-- How many clones it takes to write out a statement that stands where everything is written out
`times` times: for each repeated statement the product of its count and the counts of those around
it. -/
def clonesNeeded (options : Options) (times : Nat) : Statement → Nat
  | .element head children =>
    let times := times * options.countOf head.repeater
    (if head.repeater.isSome then times else 0) + clonesNeededAll options times children
  | .group repeater children =>
    let times := times * options.countOf repeater
    (if repeater.isSome then times else 0) + clonesNeededAll options times children

/-- How many clones it takes to write out several statements. -/
def clonesNeededAll (options : Options) (times : Nat) : List Statement → Nat
  | [] => 0
  | statement :: statements =>
    clonesNeeded options times statement + clonesNeededAll options times statements

end

mutual

/-- The elements of a statement in reading order. -/
def elements : Statement → List Element
  | .element head children => head :: elementsAll children
  | .group _ children => elementsAll children

/-- The elements of several statements in reading order. -/
def elementsAll : List Statement → List Element
  | [] => []
  | statement :: statements => elements statement ++ elementsAll statements

end

end Statement

/-! ## Nodes of copies -/

/-- What supplying text makes of a node: text is added to its value, and it may get a link target
along with that. -/
inductive Node.Supplied (options : Options) (node : Node) : Node → Prop
  | nothing : Supplied options node node
  | text {supplied : Node} (index : Option Nat) (h : Supplied options node supplied) :
      Supplied options node (supplied.appendText (options.textAt index))
  | link {supplied : Node} (hlink : options.href = true) (h : Supplied options node supplied) :
      Supplied options node (supplied.insertHref (options.textAt none))

/-- A mark can just as well be changed before text is supplied. -/
theorem Node.Supplied.mark {options : Options} {plain node : Node} (clone : Option Repeater)
    (h : plain.Supplied options node) :
    Node.Supplied options { plain with repeater := clone } { node with repeater := clone } := by
  induction h with
  | nothing => exact .nothing
  | text index _ ih => exact .text index ih
  | link hlink _ ih => exact .link hlink ih

namespace Statement

open Node (listingAll)

/-- The node is what the copy of an element becomes, apart from supplied text. It is marked as the
clone of the element's own repeater, which is the innermost of those that the copy belongs to;
without a repeater of its own, it may be marked as a clone of a group around it. -/
structure Copy.Renders (options : Options) (copy : Copy) (node : Node) : Prop where
  repeated : ∀ written ∈ copy.head.repeater, ∃ index < options.countOf (some written),
    node.repeater = some (options.cloneAt written index) ∧ copy.loops.head? = node.repeater
  unrepeated : copy.head.repeater = none → ∀ clone ∈ node.repeater, clone ∈ copy.loops
  supplied : (Scope.single ⟨options, copy.loops⟩ copy.head node.repeater).Supplied options node

variable {options : Options} {limit made needed : Nat} {loops : List Repeater}
  {repeater : Option Repeater} {claimed : Bool} {heads : List Element}
  {statement : Statement} {statements : List Statement}

namespace Copy.Renders

variable {copy : Copy} {node : Node}

theorem appendText (h : copy.Renders options node) (index : Option Nat) :
    copy.Renders options (node.appendText (options.textAt index)) :=
  ⟨h.repeated, h.unrepeated, .text index h.supplied⟩

theorem insertHref (h : copy.Renders options node) (hlink : options.href = true) :
    copy.Renders options (node.insertHref (options.textAt none)) :=
  ⟨h.repeated, h.unrepeated, .link hlink h.supplied⟩

/-- The mark of a clone around the copy does not change what it is the copy of. -/
theorem mark (h : copy.Renders options node) {clone : Repeater} (hclone : clone ∈ copy.loops) :
    copy.Renders options { node with repeater := node.repeater.or (some clone) } := by
  refine ⟨fun written hwritten => ?_, fun hnone outer hmem => ?_, h.supplied.mark _⟩
  · obtain ⟨index, hlt, hown, hhead⟩ := h.repeated written hwritten
    dsimp only
    rw [hown, Option.some_or]
    exact ⟨index, hlt, rfl, hhead.trans hown⟩
  · rcases Option.or_eq_some_iff.1 hmem with hown | ⟨-, hgroup⟩
    · exact h.unrepeated hnone outer hown
    · exact Option.some.inj hgroup ▸ hclone

end Copy.Renders

/-! ## Copies and the clones around them -/

/-- A repetition of a repeated statement is a clone with an index below the count. -/
theorem exists_of_mem_rounds {written : Repeater} {inner : List Repeater}
    (h : inner ∈ options.rounds (some written) loops) :
    ∃ index < options.countOf (some written), options.cloneAt written index :: loops = inner := by
  obtain ⟨index, hmem, hinner⟩ := List.mem_map.1 h
  exact ⟨index, List.mem_range.1 hmem, hinner⟩

theorem suffix_of_mem_rounds {inner : List Repeater} (h : inner ∈ options.rounds repeater loops) :
    loops <:+ inner := by
  cases repeater with
  | none =>
    obtain rfl : inner = loops := List.mem_singleton.1 h
    exact List.suffix_refl inner
  | some written =>
    obtain ⟨index, -, rfl⟩ := exists_of_mem_rounds h
    exact List.suffix_cons _ _

mutual

/-- A copy belongs to all clones around its statement. -/
theorem suffix_of_mem_copies : ∀ {statement : Statement} {loops : List Repeater} {copy : Copy},
    copy ∈ copies options loops statement → loops <:+ copy.loops
  | .element head children, loops, copy, hmem => by
    rw [copies] at hmem
    obtain ⟨inner, hinner, hmem⟩ := List.mem_flatMap.1 hmem
    rcases List.mem_cons.1 hmem with rfl | hbelow
    · exact suffix_of_mem_rounds hinner
    · exact (suffix_of_mem_rounds hinner).trans (suffix_of_mem_copiesAll hbelow)
  | .group repeater children, loops, copy, hmem => by
    rw [copies] at hmem
    obtain ⟨inner, hinner, hmem⟩ := List.mem_flatMap.1 hmem
    exact (suffix_of_mem_rounds hinner).trans (suffix_of_mem_copiesAll hmem)

theorem suffix_of_mem_copiesAll : ∀ {statements : List Statement} {loops : List Repeater}
    {copy : Copy}, copy ∈ copiesAll options loops statements → loops <:+ copy.loops
  | [], _, _, hmem => by
    rw [copiesAll] at hmem
    cases hmem
  | statement :: statements, loops, copy, hmem => by
    rw [copiesAll] at hmem
    rcases List.mem_append.1 hmem with hfirst | hmore
    · exact suffix_of_mem_copies hfirst
    · exact suffix_of_mem_copiesAll hmore

end

mutual

/-- What is written out `times` times takes `times` times as many clones. -/
theorem clonesNeeded_eq_mul (options : Options) (times : Nat) : ∀ statement : Statement,
    clonesNeeded options times statement = times * clonesNeeded options 1 statement
  | .element head children => by
    rw [clonesNeeded, clonesNeeded, clonesNeededAll_eq_mul options (times * _) children,
      clonesNeededAll_eq_mul options (1 * _) children, Nat.one_mul]
    split
    next => ring
    next => ring
  | .group repeater children => by
    rw [clonesNeeded, clonesNeeded, clonesNeededAll_eq_mul options (times * _) children,
      clonesNeededAll_eq_mul options (1 * _) children, Nat.one_mul]
    split
    next => ring
    next => ring

theorem clonesNeededAll_eq_mul (options : Options) (times : Nat) : ∀ statements : List Statement,
    clonesNeededAll options times statements = times * clonesNeededAll options 1 statements
  | [] => by rw [clonesNeededAll, clonesNeededAll, Nat.mul_zero]
  | statement :: statements => by
    rw [clonesNeededAll, clonesNeededAll, clonesNeeded_eq_mul options times statement,
      clonesNeededAll_eq_mul options times statements, Nat.mul_add]

end

/-- Every repetition of an element takes a clone, if the element has a repeater, and those of the
statements below it. -/
theorem clonesNeeded_element (options : Options) (head : Element) (children : List Statement) :
    clonesNeeded options 1 (.element head children) = options.countOf head.repeater *
      ((if head.repeater.isSome then 1 else 0) + clonesNeededAll options 1 children) := by
  rw [clonesNeeded, clonesNeededAll_eq_mul]
  split
  next => ring
  next => ring

/-- Every repetition of a group takes a clone, if the group has a repeater, and those of the
statements in it. -/
theorem clonesNeeded_group (options : Options) (repeater : Option Repeater)
    (children : List Statement) :
    clonesNeeded options 1 (.group repeater children) = options.countOf repeater *
      ((if repeater.isSome then 1 else 0) + clonesNeededAll options 1 children) := by
  rw [clonesNeeded, clonesNeededAll_eq_mul]
  split
  next => ring
  next => ring

/-! ## The account of an unrolling -/

/-- The nodes that are unrolled, in reading order, are these copies, from among all copies there
would be without a limit. Among them is one of each element, and there are at most as many of each
element as clones are made, and one more. If the clones that are needed fit in under the limit, all
copies are there, and the clones that are needed have been made. -/
structure Accounts (options : Options) (limit made : Nat) (all : List Copy) (heads : List Element)
    (needed : Nat) (unrolled : Unrolled) (found : List Copy) : Prop where
  renders : List.Forall₂ (Copy.Renders options) found (listingAll unrolled.1)
  sublist : found.Sublist all
  covers : heads.Sublist (found.map Copy.head)
  grows : made ≤ unrolled.2
  few : found.length ≤ heads.length * (unrolled.2 + 1 - made)
  complete : made + needed ≤ limit → found = all ∧ unrolled.2 = made + needed

/-- The copies of clones one after the other. -/
theorem exists_accounts_clones {body : Nat → Nat → Unrolled} {all : Nat → List Copy} {count : Nat}
    (hbody : ∀ index < count, ∀ made, ∃ found,
      Accounts options limit made (all index) heads needed (body index made) found)
    (remaining index made : Nat) (hcount : index + remaining ≤ count) : ∃ found,
      Accounts options limit made ((List.range' index remaining).flatMap all)
        (if remaining = 0 then [] else heads) (remaining * (needed + 1))
        (clones limit body index made remaining) found := by
  induction remaining generalizing index made with
  | zero =>
    rw [clones, Nat.zero_mul]
    refine ⟨[], ?_, List.nil_sublist _, List.nil_sublist _, Nat.le_refl _, Nat.zero_le _,
      fun _ => ⟨rfl, rfl⟩⟩
    rw [Node.listingAll_nil]
    exact .nil
  | succ remaining ih =>
    obtain ⟨found, h⟩ := hbody index (by omega) made
    rw [clones, Nat.succ_mul, List.range'_succ, List.flatMap_cons,
      if_neg (Nat.succ_ne_zero remaining)]
    generalize body index made = first at h
    obtain ⟨nodes, after⟩ := first
    have hgrows : made ≤ after := h.grows
    have hfew : found.length ≤ heads.length * (after + 1 - made) := h.few
    dsimp only
    split
    -- The limit is met here. If everything fits, no clone is missing.
    next hlimit =>
      refine ⟨found, h.renders, h.sublist.trans (List.sublist_append_left _ _), h.covers,
        Nat.le_succ_of_le hgrows, ?_, fun hfits => ?_⟩
      · exact hfew.trans (Nat.mul_le_mul_left _ (by omega))
      · obtain ⟨rfl, rfl : after = made + needed⟩ := h.complete (by omega)
        have hlast : remaining * (needed + 1) = 0 := by omega
        obtain rfl : remaining = 0 := (Nat.mul_eq_zero.1 hlast).resolve_right (Nat.succ_ne_zero _)
        exact ⟨by simp, by omega⟩
    next hlimit =>
      obtain ⟨more, hmore⟩ := ih (index + 1) (after + 1) (by omega)
      generalize clones limit body (index + 1) (after + 1) remaining = later at hmore
      obtain ⟨nodes', last⟩ := later
      have hgrows' : after + 1 ≤ last := hmore.grows
      refine ⟨found ++ more, ?_, h.sublist.append hmore.sublist, ?_, by omega, ?_, fun hfits => ?_⟩
      · rw [Node.listingAll_append]
        exact List.rel_append h.renders hmore.renders
      · rw [List.map_append]
        exact h.covers.trans (List.sublist_append_left _ _)
      -- The bounds of the first clone and of the others add up to that of all.
      · have hfew' : more.length ≤ heads.length * (last + 1 - (after + 1)) := by
          refine hmore.few.trans (Nat.mul_le_mul_right _ ?_)
          split
          next => exact Nat.zero_le _
          next => exact Nat.le_refl _
        have hsum : last + 1 - made = after + 1 - made + (last + 1 - (after + 1)) := by omega
        rw [List.length_append, hsum, Nat.mul_add]
        exact Nat.add_le_add hfew hfew'
      · obtain ⟨rfl, rfl : after = made + needed⟩ := h.complete (by omega)
        obtain ⟨rfl, hmade⟩ := hmore.complete (by omega)
        exact ⟨rfl, by omega⟩

/-- The line of an implicit clone leaves the copies as they are. -/
theorem Accounts.appendLine {all found : List Copy} {nodes : List Node} {after : Nat}
    (h : Accounts options limit made all heads needed (nodes, after) found) (index : Nat) :
    Accounts options limit made all heads needed
      (Node.modifyLastLeaf (Node.appendText (options.textAt (some index))) nodes, after) found :=
  ⟨Node.forall₂_listingAll_modifyLastLeaf (fun _ hleaf => hleaf)
    (fun _ _ hrenders => hrenders.appendText _) h.renders, h.sublist, h.covers, h.grows, h.few,
    h.complete⟩

/-- The clone that the nodes of a statement are marked with, given the clones around a repetition
of it. -/
def ownClone (repeater : Option Repeater) (loops : List Repeater) : Option Repeater :=
  if repeater.isSome then loops.head? else none

/-- The copies of a statement, given those of each repetition of it. -/
theorem exists_accounts_repeated {body : Scope → Option Repeater → Nat → Unrolled}
    {all : List Repeater → List Copy}
    (hbody : ∀ inner ∈ options.rounds repeater loops, ∀ made, ∃ found,
      Accounts options options.repeatLimit made (all inner) heads needed
        (body ⟨options, inner⟩ (ownClone repeater inner) made) found)
    (claimed : Bool) (made : Nat) : ∃ found,
      Accounts options options.repeatLimit made ((options.rounds repeater loops).flatMap all) heads
        (options.countOf repeater * ((if repeater.isSome then 1 else 0) + needed))
        (repeated ⟨options, loops⟩ repeater claimed body made) found := by
  cases repeater with
  | none =>
    obtain ⟨found, h⟩ := hbody loops (List.mem_singleton.2 rfl) made
    refine ⟨found, ?_⟩
    simpa [Options.rounds, Options.countOf, repeated, ownClone] using h
  | some written =>
    have hpos := Nat.pos_iff_ne_zero.1 (options.countOf_pos (some written))
    have hclone : ∀ index < options.countOf (some written), ∀ made, ∃ found,
        Accounts options options.repeatLimit made (all (options.cloneAt written index :: loops))
          heads needed (makeClone options loops written claimed body index made) found := by
      intro index hindex made
      obtain ⟨found, h⟩ := hbody (options.cloneAt written index :: loops)
        (List.mem_map_of_mem (List.mem_range.2 hindex)) made
      refine ⟨found, ?_⟩
      unfold makeClone
      split
      next => exact h.appendLine index
      next => exact h
    obtain ⟨found, h⟩ := exists_accounts_clones hclone _ 0 made (Nat.zero_add _).le
    refine ⟨found, ?_⟩
    rw [if_neg hpos] at h
    rw [repeated_some]
    simpa [Options.rounds, List.flatMap_map, List.range_eq_range', Nat.add_comm] using h

/-- A repetition of an element is a copy of it, followed by those of the elements below it. -/
theorem Accounts.element {head : Element} {inner : List Repeater} {all found : List Copy}
    {below : Unrolled} (hinner : inner ∈ options.rounds head.repeater loops)
    (h : Accounts options limit made all heads needed below found) :
    Accounts options limit made (⟨head, inner⟩ :: all) (head :: heads) needed
      (Scope.nodes ⟨options, inner⟩ head (ownClone head.repeater inner) below.1, below.2)
      (⟨head, inner⟩ :: found) := by
  have hgrows := h.grows
  refine ⟨?_, h.sublist.cons_cons _, h.covers.cons_cons _, hgrows, ?_, fun hfits => ?_⟩
  · rw [Node.listingAll_nodes]
    refine .cons ⟨fun written hwritten => ?_, fun hnone clone hmem => ?_, .nothing⟩ h.renders
    · dsimp only at hwritten
      rw [Option.mem_def.1 hwritten] at hinner ⊢
      obtain ⟨index, hlt, rfl⟩ := exists_of_mem_rounds hinner
      exact ⟨index, hlt, rfl, rfl⟩
    · dsimp only at hnone
      simp [Scope.single, ownClone, hnone] at hmem
  · have hfew := h.few
    rw [List.length_cons, List.length_cons, Nat.succ_mul]
    dsimp only
    omega
  · obtain ⟨rfl, hmade⟩ := h.complete hfits
    exact ⟨rfl, hmade⟩

/-- Marking the nodes of a group leaves the copies in it as they are. -/
theorem Accounts.group {inner : List Repeater} {all found : List Copy} {below : Unrolled}
    (h : Accounts options limit made all heads needed below found)
    (hloops : ∀ copy ∈ found, inner <:+ copy.loops) :
    Accounts options limit made all heads needed
      (markClone (ownClone repeater inner) below.1, below.2) found := by
  refine ⟨?_, h.sublist, h.covers, h.grows, h.few, h.complete⟩
  dsimp only
  unfold ownClone
  split
  next =>
    cases inner with
    | nil => rw [List.head?_nil, markClone_none]; exact h.renders
    | cons clone outer =>
      refine Node.forall₂_listingAll_map (fun _ => rfl) (fun _ => rfl) ?_ h.renders
      intro copy hmem node hrenders
      exact hrenders.mark ((hloops copy hmem).subset List.mem_cons_self)
  next => rw [markClone_none]; exact h.renders

mutual

/-- The nodes that a statement is unrolled to are copies of its elements. -/
theorem exists_accounts_unroll (options : Options) : ∀ (statement : Statement)
    (loops : List Repeater) (made : Nat), ∃ found,
      Accounts options options.repeatLimit made (copies options loops statement)
        (elements statement) (clonesNeeded options 1 statement)
        (unroll ⟨options, loops⟩ made statement) found
  | .element head children, loops, made => by
    rw [unroll, copies, elements, clonesNeeded_element]
    refine exists_accounts_repeated (fun inner hinner made => ?_) _ made
    obtain ⟨found, h⟩ := exists_accounts_unrollAll options children inner made
    exact ⟨⟨head, inner⟩ :: found, h.element hinner⟩
  | .group repeater children, loops, made => by
    rw [unroll, copies, elements, clonesNeeded_group]
    refine exists_accounts_repeated (fun inner _ made => ?_) _ made
    obtain ⟨found, h⟩ := exists_accounts_unrollAll options children inner made
    exact ⟨found, h.group fun copy hmem => suffix_of_mem_copiesAll (h.sublist.subset hmem)⟩

/-- The nodes that statements are unrolled to are copies of their elements. -/
theorem exists_accounts_unrollAll (options : Options) : ∀ (statements : List Statement)
    (loops : List Repeater) (made : Nat), ∃ found,
      Accounts options options.repeatLimit made (copiesAll options loops statements)
        (elementsAll statements) (clonesNeededAll options 1 statements)
        (unrollAll ⟨options, loops⟩ made statements) found
  | [], loops, made => by
    rw [unrollAll, copiesAll, elementsAll, clonesNeededAll]
    refine ⟨[], ?_, List.nil_sublist _, List.nil_sublist _, Nat.le_refl _, Nat.zero_le _,
      fun _ => ⟨rfl, rfl⟩⟩
    rw [Node.listingAll_nil]
    exact .nil
  | statement :: statements, loops, made => by
    rw [unrollAll, copiesAll, elementsAll, clonesNeededAll]
    obtain ⟨found, h⟩ := exists_accounts_unroll options statement loops made
    generalize unroll ⟨options, loops⟩ made statement = first at h
    obtain ⟨nodes, after⟩ := first
    obtain ⟨more, hmore⟩ := exists_accounts_unrollAll options statements loops after
    dsimp only
    generalize unrollAll ⟨options, loops⟩ after statements = later at hmore
    obtain ⟨nodes', last⟩ := later
    have hgrows : made ≤ after := h.grows
    have hgrows' : after ≤ last := hmore.grows
    refine ⟨found ++ more, ?_, h.sublist.append hmore.sublist, ?_, hgrows.trans hgrows', ?_,
      fun hfits => ?_⟩
    · rw [Node.listingAll_append]
      exact List.rel_append h.renders hmore.renders
    · rw [List.map_append]
      exact h.covers.append hmore.covers
    · rw [List.length_append, List.length_append, Nat.add_mul]
      exact Nat.add_le_add (h.few.trans (Nat.mul_le_mul_left _ (by dsimp only; omega)))
        (hmore.few.trans (Nat.mul_le_mul_left _ (by dsimp only; omega)))
    · obtain ⟨rfl, rfl : after = made + clonesNeeded options 1 statement⟩ := h.complete (by omega)
      obtain ⟨rfl, hmade⟩ := hmore.complete (by omega)
      exact ⟨rfl, hmade.trans (Nat.add_assoc _ _ _)⟩

end

/-! ## The output -/

/-- How many clones the conversion of a tree makes. -/
def clonesMade (options : Options) (statements : List Statement) : Nat :=
  (unrollAllNoting { options } 0 statements).made

theorem clonesMade_eq (options : Options) (statements : List Statement) :
    clonesMade options statements = (unrollAll { options } 0 statements).2 := by
  rw [clonesMade, unrollAllNoting_eq]
  rfl

/-- The output consists of copies of the elements. -/
theorem exists_accounts_convert (options : Options) (statements : List Statement) : ∃ found,
    Accounts options options.repeatLimit 0 (copiesAll options [] statements)
      (elementsAll statements) (clonesNeededAll options 1 statements)
      (convert options statements, clonesMade options statements) found := by
  obtain ⟨found, h⟩ := exists_accounts_unrollAll options statements [] 0
  rw [clonesMade_eq]
  refine ⟨found, ?_, h.sublist, h.covers, h.grows, h.few, h.complete⟩
  rw [convert_eq_insertWhole, Options.insertWhole]
  dsimp only
  split
  next => exact h.renders
  next text htext =>
    split
    next => exact h.renders
    next =>
      have hjoined : options.textAt none = text.joined := by simp [Options.textAt, htext]
      refine Node.forall₂_listingAll_modifyLastLeaf (fun node hleaf => ?_) (fun copy node h => ?_)
        h.renders
      · unfold Node.wrapText
        dsimp only
        split
        next => exact hleaf
        next => exact hleaf
      · unfold Node.wrapText
        rw [← hjoined]
        dsimp only
        split
        next hlink => exact (h.appendText none).insertHref (by simp_all)
        next => exact h.appendText none

/-- Writing repetitions out loses, duplicates and reorders nothing: if the clones that are needed
fit in under the limit, the output in reading order is one node for each copy of an element, that
is, for each element and each combination of clones of its repeater and of those around it, those of
the outer repeaters varying slowest. -/
theorem forall₂_renders_convert (options : Options) (statements : List Statement)
    (hfits : clonesNeededAll options 1 statements ≤ options.repeatLimit) :
    List.Forall₂ (Copy.Renders options) (copiesAll options [] statements)
      (listingAll (convert options statements)) := by
  obtain ⟨found, h⟩ := exists_accounts_convert options statements
  obtain ⟨rfl, -⟩ := h.complete (by rwa [Nat.zero_add])
  exact h.renders

/-- Lists in a repeated group, with one item for each line that is not blank: six clones are needed,
and six may be made. The index of the group varies more slowly than that of the items. -/
theorem forall₂_renders_convert_lines :
    clonesNeededAll { text := some (.lines ["x", " ", "y"]), maxRepeat := some 6 } 1
        [.group (some ⟨2, 0, false⟩) [.element { name := some [⟨.literal "ul", 1, 3⟩] }
          [.element { name := some [⟨.literal "li", 4, 6⟩], repeater := some ⟨0, 0, true⟩ } []]]] ≤
      Options.repeatLimit { text := some (.lines ["x", " ", "y"]), maxRepeat := some 6 } ∧
    List.Forall₂ (Copy.Renders { text := some (.lines ["x", " ", "y"]), maxRepeat := some 6 })
      [⟨{ name := some [⟨.literal "ul", 1, 3⟩] }, [⟨2, 0, false⟩]⟩,
        ⟨{ name := some [⟨.literal "li", 4, 6⟩], repeater := some ⟨0, 0, true⟩ },
          [⟨2, 0, true⟩, ⟨2, 0, false⟩]⟩,
        ⟨{ name := some [⟨.literal "li", 4, 6⟩], repeater := some ⟨0, 0, true⟩ },
          [⟨2, 1, true⟩, ⟨2, 0, false⟩]⟩,
        ⟨{ name := some [⟨.literal "ul", 1, 3⟩] }, [⟨2, 1, false⟩]⟩,
        ⟨{ name := some [⟨.literal "li", 4, 6⟩], repeater := some ⟨0, 0, true⟩ },
          [⟨2, 0, true⟩, ⟨2, 1, false⟩]⟩,
        ⟨{ name := some [⟨.literal "li", 4, 6⟩], repeater := some ⟨0, 0, true⟩ },
          [⟨2, 1, true⟩, ⟨2, 1, false⟩]⟩]
      (listingAll (convert { text := some (.lines ["x", " ", "y"]), maxRepeat := some 6 }
        [.group (some ⟨2, 0, false⟩) [.element { name := some [⟨.literal "ul", 1, 3⟩] }
          [.element { name := some [⟨.literal "li", 4, 6⟩], repeater := some ⟨0, 0, true⟩ }
            []]]])) := by
  have hfits : clonesNeededAll { text := some (.lines ["x", " ", "y"]), maxRepeat := some 6 } 1
      [.group (some ⟨2, 0, false⟩) [.element { name := some [⟨.literal "ul", 1, 3⟩] }
        [.element { name := some [⟨.literal "li", 4, 6⟩], repeater := some ⟨0, 0, true⟩ } []]]] ≤
      Options.repeatLimit { text := some (.lines ["x", " ", "y"]), maxRepeat := some 6 } := by
    decide +kernel
  exact ⟨hfits, forall₂_renders_convert _ _ hfits⟩

end Statement

end Shorthand
