import Shorthand.Proofs.Expansion.Placement

/-!
# Pruned output

Under a lower limit on clones, the output is that under a higher limit with whole subtrees deleted.
The two expansions go the same way until the lower one meets its limit inside a repeater; from then
on the higher one makes clones that the lower one does not.

There is one more trace of the limit. The line of an implicit clone goes to the last leaf of the
clone, and without supplied text the line is empty: a last leaf without a value gets an empty one.
Which leaf of a clone is the last depends on the limit. So the nodes that are left carry flags, in
reading order, and a flag is raised at a leaf that is the last one of such a clone.

## Main definitions

* `Node.Survives`, `Node.Pruned`: a node and a forest with subtrees deleted;
* `lined`, `linedAll`: which nodes of an unrolling are last leaves with a line;
* `Trails`: how an unrolling under a lower limit stands to one under a higher limit.

## Main results

* `Node.Pruned.fill`: pruning before an empty line is appended is pruning after that;
* `trails_unroll`: unrolling a statement under a lower limit prunes its nodes;
* `convert_pruned`: a lower limit prunes the output, and changes nothing where there is room;
* `not_pruned_strictly`: a last leaf can have an empty value instead of none.
-/

namespace Shorthand

/-! ## Deleting subtrees -/

namespace Node

mutual

/-- What is left of a node when subtrees below it are deleted: the node itself, with what is left of
its children. Each node that is left has a flag, in reading order. It is raised only at a leaf that
an empty line has been appended to: where its original has no value, the leaf has an empty one. -/
inductive Survives : List Bool → Node → Node → Prop
  | intro {lined : Bool} {flags : List Bool} {node original : Node}
      (name : node.name = original.name)
      (value : node.value = if lined then some (original.value.getD []) else original.value)
      (leaf : lined = true → node.children = [])
      (attributes : node.attributes = original.attributes)
      (repeater : node.repeater = original.repeater)
      (selfClosing : node.selfClosing = original.selfClosing)
      (children : Pruned flags node.children original.children) :
      Survives (lined :: flags) node original

/-- What is left of a forest when subtrees are deleted, in the same order, with the flags of the
nodes that are left. -/
inductive Pruned : List Bool → List Node → List Node → Prop
  | nil : Pruned [] [] []
  | keep {flags more : List Bool} {node original : Node} {nodes originals : List Node}
      (hnode : Survives flags node original) (hmore : Pruned more nodes originals) :
      Pruned (flags ++ more) (node :: nodes) (original :: originals)
  | cut {flags : List Bool} {original : Node} {nodes originals : List Node}
      (hmore : Pruned flags nodes originals) : Pruned flags nodes (original :: originals)

end

variable {flags moreFlags : List Bool} {lined : Bool} {node original : Node}
  {nodes originals more : List Node}

/-- Every subtree may be deleted. -/
theorem Pruned.none_left (originals : List Node) : Pruned [] [] originals := by
  induction originals with
  | nil => exact .nil
  | cons original originals ih => exact .cut ih

theorem Survives.flags_ne_nil (h : Survives flags node original) : flags ≠ [] := by
  cases h with
  | intro => exact List.cons_ne_nil _ _

/-- There is a flag for each node, so flags without a node are none. -/
theorem Pruned.flags_eq_nil_iff (h : Pruned flags nodes originals) : flags = [] ↔ nodes = [] := by
  induction originals generalizing nodes with
  | nil =>
    cases h
    exact iff_of_true rfl rfl
  | cons original originals ih =>
    cases h with
    | keep hnode hrest => simp [hnode.flags_ne_nil]
    | cut hrest => exact ih hrest

theorem Pruned.append {moreOriginals : List Node} (h : Pruned flags nodes originals)
    (hmore : Pruned moreFlags more moreOriginals) :
    Pruned (flags ++ moreFlags) (nodes ++ more) (originals ++ moreOriginals) := by
  induction originals generalizing flags nodes with
  | nil =>
    cases h
    exact hmore
  | cons original originals ih =>
    cases h with
    | keep hnode hrest =>
      rw [List.append_assoc]
      exact .keep hnode (ih hrest)
    | cut hrest => exact .cut (ih hrest)

/-- Marking the nodes of a group leaves what survives as it is. -/
theorem Pruned.markClone (clone : Option Repeater) (h : Pruned flags nodes originals) :
    Pruned flags (Statement.markClone clone nodes) (Statement.markClone clone originals) := by
  induction originals generalizing flags nodes with
  | nil =>
    cases h
    exact .nil
  | cons original originals ih =>
    cases h with
    | keep hnode hrest =>
      obtain ⟨name, value, leaf, attributes, repeater, selfClosing, children⟩ := hnode
      refine .keep (.intro name value leaf attributes ?_ selfClosing children) (ih hrest)
      dsimp only
      rw [repeater]
    | cut hrest => exact .cut (ih hrest)

/-- An element survives with what is left below it. -/
theorem Pruned.element (scope : Scope) (head : Statement.Element) (clone : Option Repeater)
    {below belowOriginals : List Node} (h : Pruned flags below belowOriginals) :
    Pruned (false :: flags) (scope.nodes head clone below)
      (scope.nodes head clone belowOriginals) := by
  rw [Scope.nodes_eq, Scope.nodes_eq]
  split
  next =>
    have hnode : Survives [false] (scope.single head clone) (scope.single head clone) :=
      .intro rfl rfl (fun h => nomatch h) rfl rfl rfl .nil
    exact .keep hnode h
  next =>
    have hnode : Survives (false :: flags) { scope.single head clone with children := below }
        { scope.single head clone with children := belowOriginals } :=
      .intro rfl rfl (fun h => nomatch h) rfl rfl rfl h
    rw [← List.append_nil (false :: flags)]
    exact .keep hnode .nil

/-! ## Empty lines -/

/-- The flags with the last one raised. -/
def raiseLast (flags : List Bool) : List Bool :=
  flags.modifyLast fun _ => true

theorem raiseLast_append (flags : List Bool) (h : moreFlags ≠ []) :
    raiseLast (flags ++ moreFlags) = flags ++ raiseLast moreFlags :=
  List.modifyLast_append_of_right_ne_nil _ flags moreFlags h

/-- Empty text leaves a value as it is, but where there is none it makes an empty one. -/
theorem appendText_empty (node : Node) :
    node.appendText "" = { node with value := some (node.value.getD []) } := by
  have hpush (values : List Value) : Value.push values (.text "") = values := by
    induction values with
    | nil => rfl
    | cons value values ih =>
      cases values with
      | nil =>
        cases value with
        | text last => simp [Value.push]
        | field field => rfl
      | cons next values => simpa [Value.push] using ih
  rw [appendText, hpush]

theorem modifyLeaf_of_leaf {f : Node → Node} (h : node.children = []) :
    modifyLeaf f node = f node := by
  obtain ⟨name, value, attributes, repeater, selfClosing, children⟩ := node
  obtain rfl : children = [] := h
  rw [modifyLeaf]

theorem modifyLeaf_of_ne_nil {f : Node → Node} (h : node.children ≠ []) :
    modifyLeaf f node = { node with children := modifyLastLeaf f node.children } := by
  obtain ⟨name, value, attributes, repeater, selfClosing, children⟩ := node
  cases children with
  | nil => exact absurd rfl h
  | cons child children => rw [modifyLeaf]

/-- Whether there was a line before or not, an empty one makes the value of the original, or an
empty value. -/
theorem some_getD_value
    (value : node.value = if lined then some (original.value.getD []) else original.value) :
    some (node.value.getD []) = some (original.value.getD []) := by
  rw [value]
  cases lined with
  | false => rfl
  | true => rfl

mutual

/-- An empty line for what survives alone. -/
theorem Survives.fill_left : ∀ {flags : List Bool} {node original : Node},
    Survives flags node original →
      Survives (raiseLast flags) (modifyLeaf (appendText "") node) original
  | _, node, original, @Survives.intro lined flags _ _ name value leaf attributes repeater
      selfClosing children => by
    by_cases hleaf : node.children = []
    -- A leaf gets the line itself, and its flag is the only one.
    · obtain rfl := children.flags_eq_nil_iff.2 hleaf
      rw [modifyLeaf_of_leaf hleaf, appendText_empty]
      exact .intro name (some_getD_value value) (fun _ => hleaf) attributes repeater selfClosing
        children
    -- Otherwise the line goes on to the children, and so does the flag to raise.
    · have hflags : flags ≠ [] := fun h => hleaf (children.flags_eq_nil_iff.1 h)
      rw [modifyLeaf_of_ne_nil hleaf, ← List.singleton_append, raiseLast_append _ hflags]
      exact .intro name value (fun h => absurd (leaf h) hleaf) attributes repeater selfClosing
        children.fill_left

theorem Pruned.fill_left : ∀ {flags : List Bool} {nodes originals : List Node},
    Pruned flags nodes originals →
      Pruned (raiseLast flags) (modifyLastLeaf (appendText "") nodes) originals
  | _, _, _, .nil => by
    rw [modifyLastLeaf]
    exact .nil
  | _, [node], _, .keep hnode hmore => by
    obtain rfl := hmore.flags_eq_nil_iff.2 rfl
    have hlast := Pruned.keep hnode.fill_left hmore
    rw [modifyLastLeaf]
    rwa [List.append_nil] at hlast ⊢
  | _, node :: next :: nodes, _, .keep hnode hmore => by
    have hflags := mt hmore.flags_eq_nil_iff.1 (List.cons_ne_nil next nodes)
    rw [modifyLastLeaf, raiseLast_append _ hflags]
    exact .keep hnode hmore.fill_left
  | _, _, _, .cut hmore => .cut hmore.fill_left

end

mutual

theorem Survives.fill : ∀ {flags : List Bool} {node original : Node},
    Survives flags node original →
      Survives (raiseLast flags) (modifyLeaf (appendText "") node)
        (modifyLeaf (appendText "") original)
  | _, node, original, @Survives.intro lined flags _ _ name value leaf attributes repeater
      selfClosing children => by
    by_cases hleaf : node.children = []
    · obtain rfl := children.flags_eq_nil_iff.2 hleaf
      have hvalue := some_getD_value value
      rw [modifyLeaf_of_leaf hleaf, appendText_empty]
      by_cases hbare : original.children = []
      · rw [modifyLeaf_of_leaf hbare, appendText_empty]
        exact .intro name hvalue (fun _ => hleaf) attributes repeater selfClosing children
      -- All children of the original are deleted, and the one that gets the line with them.
      · rw [modifyLeaf_of_ne_nil hbare]
        refine .intro name hvalue (fun _ => hleaf) attributes repeater selfClosing ?_
        dsimp only
        rw [hleaf]
        exact Pruned.none_left _
    -- The node has children left, so the original has some, and the line goes on to those of both.
    · have hbelow : original.children ≠ [] := by
        intro hnone
        rw [hnone] at children
        cases hempty : node.children with
        | nil => exact hleaf hempty
        | cons child rest =>
          rw [hempty] at children
          cases children
      have hflags : flags ≠ [] := fun h => hleaf (children.flags_eq_nil_iff.1 h)
      rw [modifyLeaf_of_ne_nil hleaf, modifyLeaf_of_ne_nil hbelow, ← List.singleton_append,
        raiseLast_append _ hflags]
      exact .intro name value (fun h => absurd (leaf h) hleaf) attributes repeater selfClosing
        children.fill

/-- Where subtrees are deleted before an empty line is appended, they are deleted from what the
appended line makes of all. -/
theorem Pruned.fill : ∀ {flags : List Bool} {nodes originals : List Node},
    Pruned flags nodes originals →
      Pruned (raiseLast flags) (modifyLastLeaf (appendText "") nodes)
        (modifyLastLeaf (appendText "") originals)
  | _, _, _, .nil => by
    rw [modifyLastLeaf]
    exact .nil
  | _, [node], [original], .keep hnode hmore => by
    obtain rfl := hmore.flags_eq_nil_iff.2 rfl
    have hlast := Pruned.keep hnode.fill .nil
    rw [modifyLastLeaf, modifyLastLeaf]
    rwa [List.append_nil] at hlast ⊢
  -- The last leaf of all is in a tree that is deleted.
  | _, [node], original :: next :: originals, .keep hnode hmore => by
    obtain rfl := hmore.flags_eq_nil_iff.2 rfl
    have hlast := Pruned.keep hnode.fill_left
      (Pruned.none_left (modifyLastLeaf (appendText "") (next :: originals)))
    rw [modifyLastLeaf, modifyLastLeaf]
    rwa [List.append_nil] at hlast ⊢
  | _, node :: next :: nodes, original :: last :: originals, .keep hnode hmore => by
    have hflags := mt hmore.flags_eq_nil_iff.1 (List.cons_ne_nil next nodes)
    rw [modifyLastLeaf, modifyLastLeaf, raiseLast_append _ hflags]
    exact .keep hnode hmore.fill
  | flags, [], [original], .cut hmore => by
    obtain rfl := hmore.flags_eq_nil_iff.2 rfl
    rw [modifyLastLeaf]
    exact Pruned.none_left _
  | _, _, original :: next :: originals, .cut hmore => by
    rw [modifyLastLeaf]
    exact .cut hmore.fill

end

end Node

/-- The options with another limit on clones. -/
def Options.capped (options : Options) (cap : Option Nat) : Options :=
  { options with maxRepeat := cap }

namespace Statement

open Node (Pruned)

/-! ## Lines at last leaves -/

/-- The flags of the clones of a statement, or of the statement once if it has no repeater. If the
statement is implicitly repeated and holds neither an implicit repeater nor a placeholder, each
clone has a line at its last leaf. -/
def linedClones (options : Options) (statement : Statement) (body : Nat → List Bool × Nat)
    (made : Nat) : List Bool × Nat :=
  match statement.repeater with
  | none => body made
  | some written =>
    let clone (_ made : Nat) : List Bool × Nat :=
      let (flags, made) := body made
      if statement.isInnermost && !anyPlaceholder (elements statement) then
        (Node.raiseLast flags, made)
      else (flags, made)
    clones options.repeatLimit clone 0 made (options.cloneCount written)

mutual

/-- Which nodes that a statement is unrolled to are last leaves with a line, in reading order, and
how many clones have been made. An element makes one node, before those below it. -/
def lined (options : Options) (made : Nat) : Statement → List Bool × Nat
  | .element head children =>
    linedClones options (.element head children)
      (fun made =>
        let (flags, made) := linedAll options made children
        (false :: flags, made))
      made
  | .group repeater children =>
    linedClones options (.group repeater children) (fun made => linedAll options made children) made

/-- Which nodes of several statements are last leaves with a line. -/
def linedAll (options : Options) (made : Nat) : List Statement → List Bool × Nat
  | [] => ([], made)
  | statement :: statements =>
    let (flags, made) := lined options made statement
    let (more, made) := linedAll options made statements
    (flags ++ more, made)

end

/-! ## Two limits -/

/-- How an unrolling under a lower limit stands to one of the same under a higher limit: its nodes
are pruned, and it has no more room left. Where both have room for the clones that are needed, the
nodes are the same. -/
structure Trails (lined : List Bool × Nat) (needed limit limit' made made' : Nat)
    (unrolled unrolled' : Unrolled) : Prop where
  pruned : Pruned lined.1 unrolled.1 unrolled'.1
  counted : lined.2 = unrolled.2
  room : limit - unrolled.2 ≤ limit' - unrolled'.2
  same : made + needed ≤ limit → made' + needed ≤ limit' →
    unrolled.1 = unrolled'.1 ∧ unrolled.2 = made + needed ∧ unrolled'.2 = made' + needed

variable {needed limit limit' made made' : Nat}

/-- Clones under a lower limit stop no later than those under a higher one. -/
theorem trails_clones {linedBody : Nat → Nat → List Bool × Nat} {body body' : Nat → Nat → Unrolled}
    (hbody : ∀ index made made', limit - made ≤ limit' - made' → Trails (linedBody index made)
      needed limit limit' made made' (body index made) (body' index made'))
    (remaining index made made' : Nat) (hroom : limit - made ≤ limit' - made') :
    Trails (clones limit linedBody index made remaining) (remaining * (needed + 1)) limit limit'
      made made' (clones limit body index made remaining)
      (clones limit' body' index made' remaining) := by
  induction remaining generalizing index made made' with
  | zero =>
    rw [clones, clones, clones, Nat.zero_mul]
    exact ⟨.nil, rfl, hroom, fun _ _ => ⟨rfl, rfl, rfl⟩⟩
  | succ remaining ih =>
    have hfirst := hbody index made made' hroom
    rw [clones, clones, clones, Nat.succ_mul]
    generalize linedBody index made = lined at hfirst
    generalize body index made = first at hfirst
    generalize body' index made' = first' at hfirst
    obtain ⟨flags, counted⟩ := lined
    obtain ⟨nodes, after⟩ := first
    obtain ⟨nodes', after'⟩ := first'
    obtain ⟨hpruned, rfl, hroom', hsame⟩ := hfirst
    dsimp only at hpruned hroom' hsame ⊢
    have hmore := ih (index + 1) (counted + 1) (after' + 1) (by omega)
    by_cases hstop : limit ≤ counted + 1
    -- The lower limit is met with this clone, or both are.
    · rw [if_pos hstop, if_pos hstop]
      split
      next hstop' =>
        refine ⟨hpruned, rfl, by dsimp only; omega, fun hfits hfits' => ?_⟩
        obtain ⟨hnodes, rfl, rfl⟩ := hsame (by omega) (by omega)
        exact ⟨hnodes, by dsimp only; omega, by dsimp only; omega⟩
      -- Only the lower limit is met, and what the higher one goes on to make is cut off.
      next hgo' =>
        refine ⟨?_, rfl, by dsimp only; omega, fun hfits hfits' => ?_⟩
        · have happend := hpruned.append
            (Pruned.none_left (clones limit' body' (index + 1) (after' + 1) remaining).1)
          rwa [List.append_nil, List.append_nil] at happend
        · obtain ⟨hnodes, rfl, rfl⟩ := hsame (by omega) (by omega)
          have hlast : remaining * (needed + 1) = 0 := by omega
          obtain rfl := (Nat.mul_eq_zero.1 hlast).resolve_right (Nat.succ_ne_zero _)
          rw [clones, List.append_nil]
          exact ⟨hnodes, by dsimp only; omega, by dsimp only; omega⟩
    -- The lower limit leaves room for more clones, and the higher one all the more.
    · rw [if_neg hstop, if_neg hstop, if_neg (by omega)]
      refine ⟨hpruned.append hmore.pruned, hmore.counted, hmore.room, fun hfits hfits' => ?_⟩
      obtain ⟨hnodes, rfl, rfl⟩ := hsame (by omega) (by omega)
      obtain ⟨hmore, hlast, hlast'⟩ := hmore.same (by omega) (by omega)
      exact ⟨by dsimp only; rw [hnodes, hmore], by dsimp only; omega, by dsimp only; omega⟩

variable {options : Options} {cap cap' : Option Nat}

/-- Unrolling a statement under two limits, given how its repetitions stand to each other. -/
theorem trails_repeated (htext : options.text = none) (statement : Statement)
    {linedBody : Nat → List Bool × Nat} {body : Scope → Option Repeater → Nat → Unrolled}
    (hbody : ∀ inner clone made made', limit - made ≤ limit' - made' → Trails (linedBody made)
      needed limit limit' made made' (body ⟨options.capped cap, inner⟩ clone made)
        (body ⟨options.capped cap', inner⟩ clone made'))
    (hlimit : (options.capped cap).repeatLimit = limit)
    (hlimit' : (options.capped cap').repeatLimit = limit') (loops : List Repeater)
    (hroom : limit - made ≤ limit' - made') :
    Trails (linedClones (options.capped cap) statement linedBody made)
      (options.countOf statement.repeater *
        ((if statement.repeater.isSome then 1 else 0) + needed)) limit limit' made made'
      (repeated ⟨options.capped cap, loops⟩ statement.repeater (bodyClaimsText statement) body made)
      (repeated ⟨options.capped cap', loops⟩ statement.repeater (bodyClaimsText statement) body
        made') := by
  have happends := appends_eq statement
  rw [isImplicit] at happends
  rw [linedClones, ← happends]
  cases statement.repeater with
  | none =>
    have h := hbody loops none made made' hroom
    simpa [repeated, Options.countOf] using h
  | some written =>
    dsimp only
    rw [repeated_some, repeated_some, Options.cloneCount_eq, hlimit, hlimit', Option.isSome_some,
      if_pos rfl, Nat.add_comm 1]
    refine trails_clones (fun index made made' hroom => ?_) _ 0 made made' hroom
    have hclone := hbody (options.cloneAt written index :: loops)
      (some (options.cloneAt written index)) made made' hroom
    unfold makeClone
    rw [Option.any_some]
    split
    next =>
      -- The clone gets its line under both limits, and without supplied text the line is empty.
      have hempty (cap : Option Nat) : (options.capped cap).textAt (some index) = "" := by
        simp [Options.textAt, Options.capped, htext]
      rw [hempty, hempty]
      exact ⟨hclone.pruned.fill, hclone.counted, hclone.room, fun hfits hfits' => by
        obtain ⟨hnodes, hmade⟩ := hclone.same hfits hfits'
        exact ⟨congrArg (Node.modifyLastLeaf (Node.appendText "")) hnodes, hmade⟩⟩
    next => exact hclone

mutual

/-- Under a lower limit, the nodes of a statement are pruned. -/
theorem trails_unroll (htext : options.text = none) : ∀ (statement : Statement)
    (loops : List Repeater) (made made' : Nat),
    (options.capped cap).repeatLimit - made ≤ (options.capped cap').repeatLimit - made' →
      Trails (lined (options.capped cap) made statement) (clonesNeeded options 1 statement)
        (options.capped cap).repeatLimit (options.capped cap').repeatLimit made made'
        (unroll ⟨options.capped cap, loops⟩ made statement)
        (unroll ⟨options.capped cap', loops⟩ made' statement)
  | .element head children, loops, made, made', hroom => by
    rw [lined, unroll, unroll, clonesNeeded_element]
    refine trails_repeated htext (.element head children)
      (fun inner clone made made' hroom => ?_) rfl rfl loops hroom
    have h := trails_unrollAll htext children inner made made' hroom
    refine ⟨h.pruned.element _ head clone, h.counted, h.room, fun hfits hfits' => ?_⟩
    obtain ⟨hnodes, hmade⟩ := h.same hfits hfits'
    exact ⟨congrArg (Scope.nodes ⟨options, inner⟩ head clone) hnodes, hmade⟩
  | .group repeater children, loops, made, made', hroom => by
    rw [lined, unroll, unroll, clonesNeeded_group]
    refine trails_repeated htext (.group repeater children)
      (fun inner clone made made' hroom => ?_) rfl rfl loops hroom
    have h := trails_unrollAll htext children inner made made' hroom
    refine ⟨h.pruned.markClone clone, h.counted, h.room, fun hfits hfits' => ?_⟩
    obtain ⟨hnodes, hmade⟩ := h.same hfits hfits'
    exact ⟨congrArg (markClone clone) hnodes, hmade⟩

/-- Under a lower limit, the nodes of statements are pruned. -/
theorem trails_unrollAll (htext : options.text = none) : ∀ (statements : List Statement)
    (loops : List Repeater) (made made' : Nat),
    (options.capped cap).repeatLimit - made ≤ (options.capped cap').repeatLimit - made' →
      Trails (linedAll (options.capped cap) made statements) (clonesNeededAll options 1 statements)
        (options.capped cap).repeatLimit (options.capped cap').repeatLimit made made'
        (unrollAll ⟨options.capped cap, loops⟩ made statements)
        (unrollAll ⟨options.capped cap', loops⟩ made' statements)
  | [], loops, made, made', hroom => by
    rw [linedAll, unrollAll, unrollAll, clonesNeededAll]
    exact ⟨.nil, rfl, hroom, fun _ _ => ⟨rfl, rfl, rfl⟩⟩
  | statement :: statements, loops, made, made', hroom => by
    have h := trails_unroll htext statement loops made made' hroom
    have hmore := trails_unrollAll htext statements loops _ _ h.room
    rw [linedAll, unrollAll, unrollAll, clonesNeededAll]
    dsimp only
    rw [h.counted]
    refine ⟨h.pruned.append hmore.pruned, hmore.counted, hmore.room, fun hfits hfits' => ?_⟩
    obtain ⟨hnodes, hmade, hmade'⟩ := h.same (by omega) (by omega)
    obtain ⟨hmore, hlast, hlast'⟩ := hmore.same (by omega) (by omega)
    exact ⟨by dsimp only; rw [hnodes, hmore], by dsimp only; omega, by dsimp only; omega⟩

end

/-- A lower limit on clones does no more than delete whole subtrees from the output, where no text
is supplied: what is left stands in the same order and is as it was, except that the last leaf of a
clone has an empty value in place of none, where an implicit repeater appends lines to its clones.
If there is room for all clones under the lower limit, nothing is deleted. -/
theorem convert_pruned (options : Options) (htext : options.text = none) (cap cap' : Option Nat)
    (hcap : (options.capped cap).repeatLimit ≤ (options.capped cap').repeatLimit)
    (statements : List Statement) :
    Pruned (linedAll (options.capped cap) 0 statements).1
      (convert (options.capped cap) statements) (convert (options.capped cap') statements) ∧
    (clonesNeededAll options 1 statements ≤ (options.capped cap).repeatLimit →
      convert (options.capped cap) statements = convert (options.capped cap') statements) := by
  have hconvert (cap : Option Nat) : convert (options.capped cap) statements =
      (unrollAll ⟨options.capped cap, []⟩ 0 statements).1 :=
    convert_eq_unrollAll (show (options.capped cap).text = none from htext) statements
  obtain ⟨hpruned, -, -, hsame⟩ := trails_unrollAll htext statements [] 0 0 (by omega)
  rw [hconvert, hconvert]
  exact ⟨hpruned, fun hfits => (hsame (by omega) (by omega)).1⟩

/-- Three lists of three items are twelve clones, and a bold element that is written twice in an
implicitly repeated group makes three more. A limit of five cuts two items, a list and the second
bold element, so it is the first one that gets the empty line. A limit of fifteen leaves room for
all, and then the output is the one without a limit. -/
theorem convert_pruned_nested : ∃ statements : List Statement, statements =
      [.element { name := some [⟨.literal "ul", 0, 2⟩], repeater := some ⟨3, 0, false⟩ }
          [.element { name := some [⟨.literal "li", 5, 7⟩], repeater := some ⟨3, 0, false⟩ } []],
        .group (some ⟨1, 0, true⟩)
          [.element { name := some [⟨.literal "b", 12, 13⟩], repeater := some ⟨2, 0, false⟩ } []]] ∧
    ({} : Options).text = none ∧
    (({} : Options).capped (some 5)).repeatLimit ≤ (({} : Options).capped (some 15)).repeatLimit ∧
    convert (({} : Options).capped (some 5)) statements =
      [⟨some "ul", none, [], some ⟨3, 0, false⟩, false,
          [⟨some "li", none, [], some ⟨3, 0, false⟩, false, []⟩,
            ⟨some "li", none, [], some ⟨3, 1, false⟩, false, []⟩,
            ⟨some "li", none, [], some ⟨3, 2, false⟩, false, []⟩]⟩,
        ⟨some "ul", none, [], some ⟨3, 1, false⟩, false,
          [⟨some "li", none, [], some ⟨3, 0, false⟩, false, []⟩]⟩,
        ⟨some "b", some [], [], some ⟨2, 0, false⟩, false, []⟩] ∧
    (linedAll (({} : Options).capped (some 5)) 0 statements).1 =
      [false, false, false, false, false, false, true] ∧
    Pruned (linedAll (({} : Options).capped (some 5)) 0 statements).1
      (convert (({} : Options).capped (some 5)) statements)
      (convert (({} : Options).capped (some 15)) statements) ∧
    (({} : Options).capped (some 15)).repeatLimit ≤ (({} : Options).capped none).repeatLimit ∧
    clonesNeededAll {} 1 statements ≤ (({} : Options).capped (some 15)).repeatLimit ∧
    convert (({} : Options).capped (some 15)) statements =
      convert (({} : Options).capped none) statements := by
  refine ⟨_, rfl, rfl, by decide, by decide +kernel, by decide +kernel, ?_, by decide,
    by decide, ?_⟩
  · exact (convert_pruned {} rfl (some 5) (some 15) (by decide) _).1
  · exact (convert_pruned {} rfl (some 15) none (by decide) _).2 (by decide)

/-- Which leaf gets an empty value depends on the limit: of two repetitions in the clone of an
implicit repeater it is the last, and under a limit of one it is the first, which has no value
otherwise. So the output under the lower limit is not that under the higher one with subtrees
deleted, unless a flag is raised. -/
theorem not_pruned_strictly :
    ({} : Options).text = none ∧
    (({} : Options).capped (some 1)).repeatLimit ≤ (({} : Options).capped (some 2)).repeatLimit ∧
    ∀ flags : List Bool, true ∉ flags → ¬Pruned flags
      (convert (({} : Options).capped (some 1)) [.group (some ⟨1, 0, true⟩)
        [.element { name := some [⟨.literal "b", 1, 2⟩], repeater := some ⟨2, 0, false⟩ } []]])
      (convert (({} : Options).capped (some 2)) [.group (some ⟨1, 0, true⟩)
        [.element { name := some [⟨.literal "b", 1, 2⟩], repeater := some ⟨2, 0, false⟩ }
          []]]) := by
  refine ⟨rfl, by decide, fun flags hflags => ?_⟩
  have hlower : convert (({} : Options).capped (some 1)) [.group (some ⟨1, 0, true⟩)
      [.element { name := some [⟨.literal "b", 1, 2⟩], repeater := some ⟨2, 0, false⟩ } []]] =
        [⟨some "b", some [], [], some ⟨2, 0, false⟩, false, []⟩] := by rfl
  have hupper : convert (({} : Options).capped (some 2)) [.group (some ⟨1, 0, true⟩)
      [.element { name := some [⟨.literal "b", 1, 2⟩], repeater := some ⟨2, 0, false⟩ } []]] =
        [⟨some "b", none, [], some ⟨2, 0, false⟩, false, []⟩,
          ⟨some "b", some [], [], some ⟨2, 1, false⟩, false, []⟩] := by rfl
  rw [hlower, hupper]
  intro hpruned
  -- The node can survive from the first one, which has no value, or from the second clone.
  cases hpruned with
  | keep hnode _ =>
    obtain ⟨-, hvalue, -, -, -, -, -⟩ := hnode
    rw [if_neg fun h => hflags (by simp [h])] at hvalue
    cases hvalue
  | cut hmore =>
    cases hmore with
    | keep hnode _ =>
      obtain ⟨-, -, -, -, hrepeater, -, -⟩ := hnode
      cases hrepeater
    | cut hmore => cases hmore

end Statement

end Shorthand
