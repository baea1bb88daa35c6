import Shorthand.Proofs.Expansion.Insertion
import Shorthand.Proofs.Expansion.Limit

/-!
# Where supplied text goes

Supplied text gets into the output in three ways. A placeholder is rendered as the text, or as the
line of the nearest implicit clone around it. A clone of an implicit repeater gets its line at its
last leaf, unless there is a placeholder or another implicit repeater in it. And text that has no
place in the tree at all goes to the last leaf of the output.

The places are described here without reference to how nodes are made. Each entry of a list of
placements is the copy of an element, with the lines that its node gets, and the rules say for each
kind of statement which entries there are.

## Main definitions

* `Placed`, `Placed.Becomes`: a copy with its lines, and the node that it becomes;
* `Places`, `PlacesAll`: the placements of a statement and of a list of statements;
* `PlacesText`: the placements of a tree and the output for it.

## Main results

* `anyClaimsText_eq`: text is claimed by implicit repeaters and by placeholders;
* `Places.untouched`: without implicit repeaters nothing is appended;
* `exists_places_unroll`: the nodes of a statement are what its placements become;
* `exists_placesText`: supplied text goes where the rules say.
-/

namespace Shorthand

namespace Statement

open Node (listingAll)

/-! ## Claims on the text -/

/-- Whether one of the repeaters takes its clones from the supplied text. -/
def anyImplicit (repeaters : List Repeater) : Bool :=
  repeaters.any (·.implicit)

/-- Whether one of the elements has a placeholder in its name, its text or an attribute. -/
def anyPlaceholder (heads : List Element) : Bool :=
  heads.any Element.claimsText

/-- Whether the statement has an implicit repeater, and no other implicit repeater inside it. -/
def isInnermost (statement : Statement) : Bool :=
  statement.isImplicit && !anyImplicit (repeatersAll statement.children)

variable {options : Options} {text : SuppliedText} {fits : Prop} {loops : List Repeater}
  {statement : Statement} {statements : List Statement}

theorem anyImplicit_append (repeaters more : List Repeater) :
    anyImplicit (repeaters ++ more) = (anyImplicit repeaters || anyImplicit more) :=
  List.any_append

theorem anyPlaceholder_append (heads more : List Element) :
    anyPlaceholder (heads ++ more) = (anyPlaceholder heads || anyPlaceholder more) :=
  List.any_append

/-- The repeaters of a statement are its own and those inside it. -/
theorem anyImplicit_repeaters (statement : Statement) : anyImplicit (repeaters statement) =
    (statement.isImplicit || anyImplicit (repeatersAll statement.children)) := by
  -- There is one repeater at most that is the statement's own.
  have hown : anyImplicit statement.repeater.toList = statement.isImplicit := by
    unfold anyImplicit isImplicit
    cases statement.repeater with
    | none => rfl
    | some written => exact Bool.or_false _
  rw [← hown, ← anyImplicit_append]
  cases statement with
  | element head children => rw [repeaters, Statement.repeater, Statement.children]
  | group repeater children => rw [repeaters, Statement.repeater, Statement.children]

mutual

/-- Apart from its own repeater, a statement claims the text by the implicit repeaters inside it and
by its placeholders. -/
theorem bodyClaimsText_eq : ∀ statement : Statement, bodyClaimsText statement =
    (anyImplicit (repeatersAll statement.children) || anyPlaceholder (elements statement))
  | .element head children => by
    have hhead : anyPlaceholder (head :: elementsAll children) =
        (head.claimsText || anyPlaceholder (elementsAll children)) :=
      List.any_cons
    rw [bodyClaimsText, anyClaimsText_eq children, elements, hhead, Statement.children]
    exact Bool.or_left_comm _ _ _
  | .group repeater children => by
    rw [bodyClaimsText, anyClaimsText_eq children, elements, Statement.children]

/-- Statements claim the text by their implicit repeaters and by their placeholders. -/
theorem anyClaimsText_eq : ∀ statements : List Statement, anyClaimsText statements =
    (anyImplicit (repeatersAll statements) || anyPlaceholder (elementsAll statements))
  | [] => by
    rw [anyClaimsText, repeatersAll, elementsAll]
    rfl
  | statement :: statements => by
    rw [anyClaimsText, bodyClaimsText_eq statement, anyClaimsText_eq statements, repeatersAll,
      elementsAll, anyImplicit_append, anyPlaceholder_append, anyImplicit_repeaters]
    ac_rfl

end

/-! ## Placements -/

/-- A copy of an element, with what is appended to the text of its node. -/
structure Placed extends Copy where
  /-- The lines that are appended, in this order. -/
  lines : List String

namespace Placed

/-- One line more. -/
def append (line : String) (placed : Placed) : Placed :=
  { placed with lines := placed.lines ++ [line] }

/-- What a placeholder in the copy is rendered as. -/
def placeholder (options : Options) (placed : Placed) : String :=
  Scope.render ⟨options, placed.loops⟩ .placeholder

/-- The node is what the copy becomes, with nothing but these lines appended. How the node is marked
is left open. -/
def Becomes (options : Options) (placed : Placed) (node : Node) : Prop :=
  Node.GainsAll placed.lines (Scope.single ⟨options, placed.loops⟩ placed.head none)
    { node with repeater := none }

variable {placed : Placed} {node : Node}

theorem becomes_iff : placed.Becomes options node ↔ { node with repeater := none } =
    placed.lines.foldl (fun node line => node.appendText line)
      (Scope.single ⟨options, placed.loops⟩ placed.head none) :=
  Node.gainsAll_iff

theorem Becomes.append (h : placed.Becomes options node) (line : String) :
    (placed.append line).Becomes options (node.appendText line) := by
  have hsame : { node.appendText line with repeater := none } =
    Node.appendText line { node with repeater := none } := rfl
  rw [becomes_iff] at h ⊢
  rw [hsame, h, Placed.append, List.foldl_append]
  rfl

theorem Becomes.mark (h : placed.Becomes options node) (clone : Option Repeater) :
    placed.Becomes options { node with repeater := clone } :=
  h

/-- The copy of an element without any lines becomes the node of the element. -/
theorem becomes_single (head : Element) (clone : Option Repeater) :
    Placed.Becomes options ⟨⟨head, loops⟩, []⟩ (Scope.single ⟨options, loops⟩ head clone) :=
  .nil _

end Placed

/-- The number of clones that a repeater makes: at least one, and if the limit leaves room, as many
as it asks for. For separate lines, these are then as many as there are lines that are not blank:
every one of them is the line of one clone, in order. -/
structure Makes (options : Options) (text : SuppliedText) (fits : Prop) (written : Repeater)
    (made : Nat) : Prop where
  pos : 0 < made
  le_countOf : made ≤ options.countOf (some written)
  eq_countOf : fits → made = options.countOf (some written)
  eachLine : fits → written.implicit = true → ∀ lines, text = .lines lines →
    SuppliedText.filledLines lines ≠ [] →
    (List.range made).map text.line = SuppliedText.filledLines lines

/-- What the line of a clone does to the copies in it: if nothing in the statement takes the line,
it is appended to the last copy. The node of that copy is the leaf that is reached by last children
from the last node (`Node.getLast?_listingAll_concat`). -/
def fill (text : SuppliedText) (statement : Statement) (index : Nat) (copied : List Placed) :
    List Placed :=
  if statement.isInnermost && !anyPlaceholder (elements statement) then
    copied.modifyLast (Placed.append (text.line index))
  else copied

mutual

/-- The placements of a statement, given the clones around it. All clones that are asked for are
made if `fits` holds. -/
inductive Places (options : Options) (text : SuppliedText) (fits : Prop) :
    List Repeater → Statement → List Placed → Prop
  /-- Without a repeater, the statement is written out once. -/
  | once {loops : List Repeater} {statement : Statement} {placed : List Placed}
      (hrepeater : statement.repeater = none)
      (h : PlacesBody options text fits loops statement placed) :
      Places options text fits loops statement placed
  /-- With a repeater, it is written out clone by clone. If the repeater is implicit and no further
  one is inside, the copies in a clone have no lines of their own, and their placeholders are
  rendered as the line of the clone. -/
  | repeated {loops : List Repeater} {statement : Statement} {written : Repeater} {made : Nat}
      {copied : Nat → List Placed} (hrepeater : statement.repeater = some written)
      (hmade : Makes options text fits written made)
      (hcopied : ∀ index < made, PlacesBody options text fits
        (options.cloneAt written index :: loops) statement (copied index))
      (hown : statement.isInnermost = true → ∀ index < made, ∀ entry ∈ copied index,
        entry.lines = [] ∧ entry.placeholder options = text.line index) :
      Places options text fits loops statement
        ((List.range made).flatMap fun index => fill text statement index (copied index))

/-- The placements of one repetition of a statement, given the clones around what is in it. -/
inductive PlacesBody (options : Options) (text : SuppliedText) (fits : Prop) :
    List Repeater → Statement → List Placed → Prop
  | element {loops : List Repeater} {head : Element} {children : List Statement}
      {below : List Placed} (h : PlacesAll options text fits loops children below) :
      PlacesBody options text fits loops (.element head children) (⟨⟨head, loops⟩, []⟩ :: below)
  | group {loops : List Repeater} {repeater : Option Repeater} {children : List Statement}
      {below : List Placed} (h : PlacesAll options text fits loops children below) :
      PlacesBody options text fits loops (.group repeater children) below

/-- The placements of several statements, one after the other. -/
inductive PlacesAll (options : Options) (text : SuppliedText) (fits : Prop) :
    List Repeater → List Statement → List Placed → Prop
  | nil {loops : List Repeater} : PlacesAll options text fits loops [] []
  | cons {loops : List Repeater} {statement : Statement} {statements : List Statement}
      {placed more : List Placed} (h : Places options text fits loops statement placed)
      (hmore : PlacesAll options text fits loops statements more) :
      PlacesAll options text fits loops (statement :: statements) (placed ++ more)

end

/-! ## Placeholders -/

theorem find?_implicit_eq_none {explicit : List Repeater} (h : anyImplicit explicit = false) :
    explicit.find? (·.implicit) = none := by
  rw [List.find?_eq_none]
  intro clone hmem hclone
  exact absurd (List.any_eq_true.2 ⟨clone, hmem, hclone⟩) (Bool.eq_false_iff.1 h)

/-- A placeholder is rendered as the line of the nearest implicit clone, or as the whole text. -/
theorem placeholder_eq (htext : options.text = some text) (placed : Placed) :
    placed.placeholder options =
      ((placed.loops.find? (·.implicit)).map fun clone => text.line clone.index).getD
        text.joined := by
  show Options.textAt options _ = _
  unfold Options.textAt
  rw [htext]
  cases placed.loops.find? (·.implicit) with
  | none => rfl
  | some clone => rfl

/-- Explicit clones further in make no difference to a placeholder. -/
theorem placeholder_of_nearest (htext : options.text = some text) {placed : Placed}
    {explicit outer : List Repeater} {clone : Repeater}
    (hloops : placed.loops = explicit ++ clone :: outer) (hexplicit : anyImplicit explicit = false)
    (hclone : clone.implicit = true) : placed.placeholder options = text.line clone.index := by
  rw [placeholder_eq htext, hloops, List.find?_append, find?_implicit_eq_none hexplicit,
    Option.none_or, List.find?_cons_of_pos hclone]
  rfl

/-- Outside implicit repeaters, a placeholder is rendered as the whole text. -/
theorem placeholder_of_outside (htext : options.text = some text) {placed : Placed}
    (hloops : anyImplicit placed.loops = false) : placed.placeholder options = text.joined := by
  rw [placeholder_eq htext, find?_implicit_eq_none hloops]
  rfl

/-! ## Statements without implicit repeaters -/

/-- The entry has no lines, and the nearest implicit clone around it is the one around all of its
statement. -/
def Untouched (loops : List Repeater) (entry : Placed) : Prop :=
  entry.lines = [] ∧ entry.loops.find? (·.implicit) = loops.find? (·.implicit)

theorem fill_of_not_implicit (himplicit : statement.isImplicit = false) (index : Nat)
    (copied : List Placed) : fill text statement index copied = copied := by
  rw [fill, isInnermost, himplicit]
  rfl

mutual

/-- Nothing is appended where there is no implicit repeater. -/
theorem Places.untouched : ∀ {loops : List Repeater} {statement : Statement} {placed : List Placed},
    Places options text fits loops statement placed →
    anyImplicit (repeaters statement) = false → ∀ entry ∈ placed, Untouched loops entry
  | _, _, _, .once _ h, hnone => by
    rw [anyImplicit_repeaters, Bool.or_eq_false_iff] at hnone
    exact h.untouched hnone.2
  | loops, statement, _, .repeated hrepeater _ hcopied _, hnone => by
    rw [anyImplicit_repeaters, Bool.or_eq_false_iff] at hnone
    obtain ⟨himplicit, hinside⟩ := hnone
    intro entry hmem
    obtain ⟨index, hindex, hmem⟩ := List.mem_flatMap.1 hmem
    rw [fill_of_not_implicit himplicit] at hmem
    obtain ⟨hlines, hnearest⟩ := (hcopied index (List.mem_range.1 hindex)).untouched hinside entry
      hmem
    rw [isImplicit, hrepeater, Option.any_some] at himplicit
    -- The clone that is entered is an explicit one.
    exact ⟨hlines, hnearest.trans (List.find?_cons_of_neg (Bool.eq_false_iff.1 himplicit))⟩

theorem PlacesBody.untouched : ∀ {loops : List Repeater} {statement : Statement}
    {placed : List Placed}, PlacesBody options text fits loops statement placed →
    anyImplicit (repeatersAll statement.children) = false →
    ∀ entry ∈ placed, Untouched loops entry
  | loops, _, _, .element h, hnone => by
    intro entry hmem
    rcases List.mem_cons.1 hmem with rfl | hbelow
    · exact ⟨rfl, rfl⟩
    · exact h.untouched hnone entry hbelow
  | _, _, _, .group h, hnone => h.untouched hnone

theorem PlacesAll.untouched : ∀ {loops : List Repeater} {statements : List Statement}
    {placed : List Placed}, PlacesAll options text fits loops statements placed →
    anyImplicit (repeatersAll statements) = false → ∀ entry ∈ placed, Untouched loops entry
  | _, _, _, .nil, _ => by
    intro entry hmem
    cases hmem
  | _, _, _, .cons h hmore, hnone => by
    rw [repeatersAll, anyImplicit_append, Bool.or_eq_false_iff] at hnone
    intro entry hmem
    rcases List.mem_append.1 hmem with hfirst | hrest
    · exact h.untouched hnone.1 entry hfirst
    · exact hmore.untouched hnone.2 entry hrest

end

/-! ## Unrolling -/

/-- If the clones that are needed fit in under the limit, these are the clones that are made. -/
theorem made_unrollAll {made : Nat}
    (hroom : made + clonesNeededAll options 1 statements ≤ options.repeatLimit) :
    (unrollAll ⟨options, loops⟩ made statements).2 =
      made + clonesNeededAll options 1 statements := by
  obtain ⟨found, h⟩ := exists_accounts_unrollAll options statements loops made
  exact (h.complete hroom).2

/-- The copies in the clones that are made, from an index on. `finish` is what becomes of the copies
in one clone. -/
theorem exists_copied_clones {limit needed count : Nat} {body : Nat → Nat → Unrolled}
    (rule : Nat → List Placed → Prop) (finish : Nat → List Placed → List Placed)
    (hbody : ∀ index < count, ∀ made, (fits → made + needed ≤ limit) → ∃ copied,
      rule index copied ∧ List.Forall₂ (Placed.Becomes options) (finish index copied)
        (listingAll (body index made).1))
    (hmade : ∀ index made, made + needed ≤ limit → (body index made).2 = made + needed)
    (remaining index made : Nat) (hcount : index + remaining ≤ count)
    (hroom : fits → made + remaining * (needed + 1) ≤ limit) :
    ∃ (more : Nat) (copied : Nat → List Placed), (0 < remaining → 0 < more) ∧ more ≤ remaining ∧
      (fits → more = remaining) ∧ (∀ later < more, rule (index + later) (copied later)) ∧
      List.Forall₂ (Placed.Becomes options)
        ((List.range more).flatMap fun later => finish (index + later) (copied later))
        (listingAll (clones limit body index made remaining).1) := by
  induction remaining generalizing index made with
  | zero =>
    rw [clones, Node.listingAll_nil]
    exact ⟨0, fun _ => [], id, Nat.le_refl 0, fun _ => rfl, fun _ h => absurd h (Nat.not_lt_zero _),
      .nil⟩
  | succ remaining ih =>
    rw [Nat.succ_mul] at hroom
    -- Whether the limit is met or not, the clone at this index is made.
    obtain ⟨first, hrule, hfirst⟩ := hbody index (by omega) made fun h => by
      have := hroom h
      omega
    have hgrown : fits → (body index made).2 = made + needed := fun h =>
      hmade index made (by have := hroom h; omega)
    rw [clones]
    generalize body index made = unrolled at hfirst hgrown
    obtain ⟨nodes, after⟩ := unrolled
    dsimp only at hfirst hgrown ⊢
    split
    -- The limit is met. Where the clones fit in, this is the last one that is asked for.
    next hlimit =>
      refine ⟨1, fun _ => first, fun _ => Nat.one_pos, by omega, fun h => ?_, fun later hlt => ?_,
        ?_⟩
      · have hafter := hgrown h
        have hlast : remaining * (needed + 1) = 0 := by
          have := hroom h
          omega
        rw [(Nat.mul_eq_zero.1 hlast).resolve_right (Nat.succ_ne_zero _)]
      · obtain rfl : later = 0 := Nat.lt_one_iff.1 hlt
        exact hrule
      · simpa using hfirst
    next hlimit =>
      obtain ⟨more, copied, -, hle, hall, hrules, hbecomes⟩ := ih (index + 1) (after + 1) (by omega)
        fun h => by
          have := hroom h
          have := hgrown h
          omega
      refine ⟨more + 1, fun later => later.casesOn first copied, fun _ => Nat.succ_pos _,
        Nat.succ_le_succ hle, fun h => congrArg Nat.succ (hall h), fun later hlt => ?_, ?_⟩
      · cases later with
        | zero => exact hrule
        | succ later =>
          have hrest := hrules later (Nat.lt_of_succ_lt_succ hlt)
          rwa [Nat.add_right_comm] at hrest
      · rw [List.range_succ_eq_map, List.flatMap_cons, List.flatMap_map, Node.listingAll_append]
        refine List.rel_append hfirst ?_
        simp only [Nat.add_right_comm index 1] at hbecomes
        exact hbecomes

/-- The lines go to the same clones by the rules and when a statement is unrolled. -/
theorem appends_eq (statement : Statement) :
    (statement.isImplicit && !bodyClaimsText statement) =
      (statement.isInnermost && !anyPlaceholder (elements statement)) := by
  rw [bodyClaimsText_eq, Bool.not_or, isInnermost, Bool.and_assoc]

/-- The copies in a clone become its nodes, with its line. -/
theorem forall₂_becomes_makeClone (htext : options.text = some text) {written : Repeater}
    (hrepeater : statement.repeater = some written)
    {body : Scope → Option Repeater → Nat → Unrolled} {index made : Nat} {copied : List Placed}
    (h : List.Forall₂ (Placed.Becomes options) copied (listingAll
      (body ⟨options, options.cloneAt written index :: loops⟩ (some (options.cloneAt written index))
        made).1)) :
    List.Forall₂ (Placed.Becomes options) (fill text statement index copied) (listingAll
      (makeClone options loops written (bodyClaimsText statement) body index made).1) := by
  have himplicit : statement.isImplicit = written.implicit := by
    rw [isImplicit, hrepeater, Option.any_some]
  have hline : options.textAt (some index) = text.line index := by
    unfold Options.textAt
    rw [htext]
  have hleaf (node : Node) (h : node.children = []) :
      (node.appendText (text.line index)).children = [] := h
  unfold fill makeClone
  rw [← appends_eq, himplicit]
  dsimp only
  split
  next =>
    -- The leaf that gets the line is the last node of the clone in reading order.
    rw [hline]
    dsimp only
    rw [Node.listingAll_modifyLastLeaf hleaf]
    exact Node.forall₂_modifyLast (fun _ _ hbecomes => hbecomes.append _) h
  next => exact h

/-- In a clone of an innermost implicit repeater, every placeholder stands for the line of the
clone, and nothing is appended by statements inside it. -/
theorem PlacesBody.own (htext : options.text = some text) {written : Repeater} {index : Nat}
    {copied : List Placed} (hrepeater : statement.repeater = some written)
    (h : PlacesBody options text fits (options.cloneAt written index :: loops) statement copied)
    (hinnermost : statement.isInnermost = true) :
    ∀ entry ∈ copied, entry.lines = [] ∧ entry.placeholder options = text.line index := by
  rw [isInnermost, isImplicit, hrepeater, Option.any_some, Bool.and_eq_true, Bool.not_eq_true']
    at hinnermost
  obtain ⟨himplicit, hinside⟩ := hinnermost
  intro entry hmem
  obtain ⟨hlines, hnearest⟩ := h.untouched hinside entry hmem
  have hclone : (options.cloneAt written index).implicit = true := himplicit
  refine ⟨hlines, ?_⟩
  rw [placeholder_eq htext, hnearest, List.find?_cons_of_pos hclone]
  rfl

/-- If all clones are made, every line that is not blank is the line of one of them. -/
theorem map_line_range (htext : options.text = some text) {written : Repeater}
    (himplicit : written.implicit = true) {lines : List String} (hlines : text = .lines lines)
    (hfilled : SuppliedText.filledLines lines ≠ []) :
    (List.range (options.countOf (some written))).map text.line =
      SuppliedText.filledLines lines := by
  -- There is a clone for every line, so no clone falls back to the whole text.
  have hcount : options.countOf (some written) = (SuppliedText.filledLines lines).length := by
    have hpos := List.length_pos_iff.2 hfilled
    rw [Options.countOf, if_pos himplicit, htext, hlines]
    dsimp only
    omega
  rw [hcount, hlines]
  apply List.ext_getElem
  · rw [List.length_map, List.length_range]
  · intro index hindex hfound
    rw [List.getElem_map, List.getElem_range, SuppliedText.line, List.getElem?_eq_getElem hfound,
      Option.getD_some]

/-- The number of clones between one and the count of the repeater. -/
theorem makes_of_le (htext : options.text = some text) {written : Repeater} {made : Nat}
    (hpos : 0 < made) (hle : made ≤ options.countOf (some written))
    (hall : fits → made = options.countOf (some written)) : Makes options text fits written made :=
  ⟨hpos, hle, hall, fun h himplicit lines hlines hfilled => by
    rw [hall h]
    exact map_line_range htext himplicit hlines hfilled⟩

/-- The placements of a statement, given those of each repetition of it. -/
theorem exists_places_repeated (statement : Statement) (htext : options.text = some text)
    {needed : Nat} {body : Scope → Option Repeater → Nat → Unrolled}
    (hbody : ∀ inner clone made, (fits → made + needed ≤ options.repeatLimit) → ∃ copied,
      PlacesBody options text fits inner statement copied ∧
        List.Forall₂ (Placed.Becomes options) copied
          (listingAll (body ⟨options, inner⟩ clone made).1))
    (hmade : ∀ inner clone made, made + needed ≤ options.repeatLimit →
      (body ⟨options, inner⟩ clone made).2 = made + needed)
    (loops : List Repeater) (made : Nat)
    (hroom : fits → made + options.countOf statement.repeater *
      ((if statement.repeater.isSome then 1 else 0) + needed) ≤ options.repeatLimit) :
    ∃ placed, Places options text fits loops statement placed ∧
      List.Forall₂ (Placed.Becomes options) placed
        (listingAll (repeated ⟨options, loops⟩ statement.repeater (bodyClaimsText statement) body
          made).1) := by
  cases hrepeater : statement.repeater with
  | none =>
    obtain ⟨copied, hplaces, hbecomes⟩ := hbody loops none made (by
      simpa [hrepeater, Options.countOf] using hroom)
    exact ⟨copied, .once hrepeater hplaces, hbecomes⟩
  | some written =>
    rw [repeated_some]
    rw [hrepeater, Option.isSome_some, if_pos rfl, Nat.add_comm 1] at hroom
    -- The clones are made one by one, each with the line that goes to it.
    have hclone : ∀ index < options.countOf (some written), ∀ made,
        (fits → made + needed ≤ options.repeatLimit) → ∃ copied,
        PlacesBody options text fits (options.cloneAt written index :: loops) statement copied ∧
          List.Forall₂ (Placed.Becomes options) (fill text statement index copied) (listingAll
            (makeClone options loops written (bodyClaimsText statement) body index made).1) := by
      intro index _ made hfits
      obtain ⟨copied, hplaces, hbecomes⟩ := hbody (options.cloneAt written index :: loops)
        (some (options.cloneAt written index)) made hfits
      exact ⟨copied, hplaces, forall₂_becomes_makeClone htext hrepeater hbecomes⟩
    have hgrows (index made : Nat) (hfits : made + needed ≤ options.repeatLimit) :
        (makeClone options loops written (bodyClaimsText statement) body index made).2 =
          made + needed := by
      have hcount := hmade (options.cloneAt written index :: loops)
        (some (options.cloneAt written index)) made hfits
      unfold makeClone
      split
      next => exact hcount
      next => exact hcount
    obtain ⟨more, copied, hpos, hle, hall, hplaces, hbecomes⟩ := exists_copied_clones
      (fun index => PlacesBody options text fits (options.cloneAt written index :: loops) statement)
      (fill text statement) hclone hgrows _ 0 made (Nat.zero_add _).le hroom
    simp only [Nat.zero_add] at hplaces hbecomes
    have hmakes := makes_of_le htext (hpos (options.countOf_pos _)) hle hall
    exact ⟨_, .repeated hrepeater hmakes hplaces fun hinnermost index hindex =>
      (hplaces index hindex).own htext hrepeater hinnermost, hbecomes⟩

mutual

/-- The nodes that a statement is unrolled to are what its placements become. -/
theorem exists_places_unroll (htext : options.text = some text) : ∀ (statement : Statement)
    (loops : List Repeater) (made : Nat),
    (fits → made + clonesNeeded options 1 statement ≤ options.repeatLimit) →
    ∃ placed, Places options text fits loops statement placed ∧
      List.Forall₂ (Placed.Becomes options) placed
        (listingAll (unroll ⟨options, loops⟩ made statement).1)
  | .element head children, loops, made, hroom => by
    rw [clonesNeeded_element] at hroom
    rw [unroll]
    refine exists_places_repeated (.element head children) htext
      (fun inner clone made hfits => ?_) (fun inner _ made hfits => made_unrollAll hfits) loops made
      hroom
    obtain ⟨below, hplaces, hbecomes⟩ := exists_places_unrollAll htext children inner made hfits
    refine ⟨_, .element hplaces, ?_⟩
    -- The node of the element is listed first, whether it holds what is below it or not.
    rw [Node.listingAll_nodes]
    exact .cons (Placed.becomes_single head clone) hbecomes
  | .group repeater children, loops, made, hroom => by
    rw [clonesNeeded_group] at hroom
    rw [unroll]
    refine exists_places_repeated (.group repeater children) htext
      (fun inner clone made hfits => ?_) (fun inner _ made hfits => made_unrollAll hfits) loops made
      hroom
    obtain ⟨below, hplaces, hbecomes⟩ := exists_places_unrollAll htext children inner made hfits
    refine ⟨below, .group hplaces, ?_⟩
    -- Marking the nodes of a group appends nothing.
    exact Node.forall₂_listingAll_map (fun _ => rfl) (fun _ => rfl)
      (fun _ _ node hnode => hnode.mark _) hbecomes

/-- The nodes that statements are unrolled to are what their placements become. -/
theorem exists_places_unrollAll (htext : options.text = some text) : ∀ (statements : List Statement)
    (loops : List Repeater) (made : Nat),
    (fits → made + clonesNeededAll options 1 statements ≤ options.repeatLimit) →
    ∃ placed, PlacesAll options text fits loops statements placed ∧
      List.Forall₂ (Placed.Becomes options) placed
        (listingAll (unrollAll ⟨options, loops⟩ made statements).1)
  | [], loops, made, _ => by
    rw [unrollAll, Node.listingAll_nil]
    exact ⟨[], .nil, .nil⟩
  | statement :: statements, loops, made, hroom => by
    rw [clonesNeededAll] at hroom
    have hfirst : fits → made + clonesNeeded options 1 statement ≤ options.repeatLimit := by
      intro h
      have := hroom h
      omega
    obtain ⟨placed, hplaces, hbecomes⟩ := exists_places_unroll htext statement loops made hfirst
    -- How many clones the first statement makes says how many are left for the others.
    have hgrown : fits → (unroll ⟨options, loops⟩ made statement).2 =
        made + clonesNeeded options 1 statement := fun h => by
      obtain ⟨found, haccounts⟩ := exists_accounts_unroll options statement loops made
      exact (haccounts.complete (hfirst h)).2
    rw [unrollAll]
    generalize unroll ⟨options, loops⟩ made statement = unrolled at hbecomes hgrown
    obtain ⟨nodes, after⟩ := unrolled
    dsimp only at hbecomes hgrown ⊢
    obtain ⟨more, hmore, hlater⟩ := exists_places_unrollAll htext statements loops after fun h => by
      have := hroom h
      have := hgrown h
      omega
    refine ⟨placed ++ more, .cons hplaces hmore, ?_⟩
    rw [Node.listingAll_append]
    exact List.rel_append hbecomes hlater

end

/-! ## The output -/

/-- Supplied text has found its place behind a tree with an implicit repeater or a placeholder. -/
theorem noted_unrollAllNoting_iff (scope : Scope) (made : Nat) (statements : List Statement) :
    (unrollAllNoting scope made statements).noted = true ↔
      anyImplicit (repeatersAll statements) = true ∨
        anyPlaceholder (elementsAll statements) = true := by
  rw [unrollAllNoting_eq, Unrolled.note, anyClaimsText_eq, Bool.or_eq_true_iff]

/-- Text that is claimed in the tree stays where it has been put. -/
theorem convert_of_claimed (htext : options.text = some text)
    (hclaimed : anyImplicit (repeatersAll statements) = true ∨
      anyPlaceholder (elementsAll statements) = true) :
    convert options statements = (unrollAll { options } 0 statements).1 := by
  have hclaims : anyClaimsText statements = true := by
    rw [anyClaimsText_eq]
    exact Bool.or_eq_true_iff.2 hclaimed
  rw [convert_eq_insertWhole, Options.insertWhole, htext]
  dsimp only
  rw [if_pos hclaims]

/-- Text that nothing in the tree claims goes to the last node of the output. -/
theorem listingAll_convert_of_unclaimed (htext : options.text = some text)
    (himplicit : anyImplicit (repeatersAll statements) = false)
    (hplaceholder : anyPlaceholder (elementsAll statements) = false) :
    listingAll (convert options statements) =
      (listingAll (unrollAll { options } 0 statements).1).modifyLast
        (Node.wrapText options.href text.joined) := by
  have hclaims : ¬ anyClaimsText statements = true := by
    rw [anyClaimsText_eq, himplicit, hplaceholder]
    exact Bool.false_ne_true
  rw [convert_eq_insertWhole, Options.insertWhole, htext]
  dsimp only
  rw [if_neg hclaims]
  apply Node.listingAll_modifyLastLeaf
  intro node hleaf
  unfold Node.wrapText
  dsimp only
  split
  next => exact hleaf
  next => exact hleaf

/-- Where the supplied text goes when a tree is converted. The nodes are what the placements become,
and the output in reading order consists of them, with the whole text at the last one if nothing in
the tree claims it. -/
structure PlacesText (options : Options) (text : SuppliedText) (statements : List Statement)
    (placed : List Placed) (nodes : List Node) : Prop where
  /-- The placements follow the rules, in full if the limit leaves room. -/
  places : PlacesAll options text (clonesNeededAll options 1 statements ≤ options.repeatLimit) []
    statements placed
  becomes : List.Forall₂ (Placed.Becomes options) placed nodes
  /-- What is noted on the way is whether anything in the tree claims the text. -/
  noted : (unrollAllNoting { options } 0 statements).noted = true ↔
    anyImplicit (repeatersAll statements) = true ∨ anyPlaceholder (elementsAll statements) = true
  claimed : anyImplicit (repeatersAll statements) = true ∨
    anyPlaceholder (elementsAll statements) = true → listingAll (convert options statements) = nodes
  unclaimed : anyImplicit (repeatersAll statements) = false →
    anyPlaceholder (elementsAll statements) = false →
    Node.AtLast (Node.Wraps options.href text.joined) nodes
      (listingAll (convert options statements))
  /-- Behind any explicit clones, the nearest implicit one gives a placeholder its line. -/
  nearest : ∀ entry ∈ placed, ∀ explicit clone outer, entry.loops = explicit ++ clone :: outer →
    anyImplicit explicit = false → clone.implicit = true →
    entry.placeholder options = text.line clone.index
  outside : ∀ entry ∈ placed, anyImplicit entry.loops = false →
    entry.placeholder options = text.joined

/-- Supplied text goes where the rules say, for every tree, every text and every limit. -/
theorem exists_placesText (options : Options) (statements : List Statement) (text : SuppliedText)
    (htext : options.text = some text) :
    ∃ placed nodes, PlacesText options text statements placed nodes := by
  obtain ⟨placed, hplaces, hbecomes⟩ := exists_places_unrollAll htext statements [] 0 fun h =>
    (Nat.zero_add _).le.trans h
  refine ⟨placed, _, hplaces, hbecomes, noted_unrollAllNoting_iff _ _ _, fun hclaimed => ?_,
    fun himplicit hplaceholder => ?_,
    fun entry _ explicit clone outer hloops hexplicit hclone => ?_, fun entry _ hloops => ?_⟩
  · rw [convert_of_claimed htext hclaimed]
  · rw [listingAll_convert_of_unclaimed htext himplicit hplaceholder]
    exact Node.atLast_modifyLast (Node.wraps_wrapText options.href text.joined) _
  · exact placeholder_of_nearest htext hloops hexplicit hclone
  · exact placeholder_of_outside htext hloops

/-- In `(a+b*>{$#}*2)*+c*`, each clone of the group holds an implicit repeater with a placeholder
behind an explicit one. The clones of the group get no lines, the placeholders get those of the
inner clones, and the clones of the last element have their lines appended. -/
theorem exists_placesText_nested :
    Options.text { text := some (.lines ["x", " ", "y"]) } = some (.lines ["x", " ", "y"]) ∧
    ∃ placed nodes, PlacesText { text := some (.lines ["x", " ", "y"]) } (.lines ["x", " ", "y"])
      [.group (some ⟨1, 0, true⟩) [.element { name := some [⟨.literal "a", 1, 2⟩] } [],
        .element { name := some [⟨.literal "b", 3, 4⟩], repeater := some ⟨1, 0, true⟩ }
          [.element { value := some [⟨.placeholder, 7, 9⟩], repeater := some ⟨2, 0, false⟩ } []]],
        .element { name := some [⟨.literal "c", 16, 17⟩], repeater := some ⟨1, 0, true⟩ } []]
      placed nodes ∧
      nodes.map (fun node => (node.name, node.text?)) = [(some "a", none),
        (some "b", none), (none, some "x"), (none, some "x"),
        (some "b", none), (none, some "y"), (none, some "y"), (some "a", none),
        (some "b", none), (none, some "x"), (none, some "x"),
        (some "b", none), (none, some "y"), (none, some "y"),
        (some "c", some "x"), (some "c", some "y")] := by
  obtain ⟨placed, nodes, hplaces⟩ := exists_placesText { text := some (.lines ["x", " ", "y"]) }
    [.group (some ⟨1, 0, true⟩) [.element { name := some [⟨.literal "a", 1, 2⟩] } [],
      .element { name := some [⟨.literal "b", 3, 4⟩], repeater := some ⟨1, 0, true⟩ }
        [.element { value := some [⟨.placeholder, 7, 9⟩], repeater := some ⟨2, 0, false⟩ } []]],
      .element { name := some [⟨.literal "c", 16, 17⟩], repeater := some ⟨1, 0, true⟩ } []]
    (.lines ["x", " ", "y"]) rfl
  refine ⟨rfl, placed, nodes, hplaces, ?_⟩
  -- The text is claimed, so these are the nodes of the output.
  rw [← hplaces.claimed (.inl rfl)]
  decide +kernel

end Statement

end Shorthand
