import Shorthand.Proofs.Expansion.Placement

/-!
# Supplied text in the output

Text without a placeholder is appended to nodes: the whole text to the last leaf, or line by line to
the last leaf of each clone of an innermost implicit repeater. A clone without nodes has no leaf. If
that is so for all innermost implicit repeaters, nothing of the text gets into the output, since the
repeaters claim it all the same.

## Main definitions

* `SuppliedText.parts`: the parts of a text, each of which is to appear in the output;
* `Node.Shows`: a node with the part in its text;
* `subtrees`, `subtreesAll`: a statement and those inside it, and those of a list of statements;
* `carries`: whether the clones of a statement have leaves for their lines.

## Main results

* `Places.carried`: every line gets to a clone of a statement that carries lines;
* `Places.dropped`: without such a statement, no line is appended;
* `shows_of_convert`: which texts appear in the output;
* `not_shows_of_convert`: a text can be lost.
-/

namespace Shorthand

/-- The parts of a text, each of which is to appear in the output: the whole of a single text, and
the lines that are not blank. -/
def SuppliedText.parts : SuppliedText → List String
  | .block text => [text]
  | .lines all => filledLines all

/-- Joined lines contain each of the lines. -/
theorem SuppliedText.exists_intercalate_eq (separator : String) {lines : List String}
    {line : String} (hmem : line ∈ lines) :
    ∃ before after, separator.intercalate lines = before ++ line ++ after := by
  induction lines with
  | nil => cases hmem
  | cons first lines ih =>
    by_cases hlast : lines = []
    · subst hlast
      obtain rfl : line = first := List.mem_singleton.1 hmem
      refine ⟨"", "", ?_⟩
      rw [String.intercalate_singleton, String.append_empty, String.empty_append]
    -- The first line stands before the others, with the separator between.
    · rw [String.intercalate_cons_of_ne_nil hlast]
      rcases List.mem_cons.1 hmem with rfl | hmore
      · refine ⟨"", separator ++ separator.intercalate lines, ?_⟩
        rw [String.empty_append, String.append_assoc]
      · obtain ⟨before, after, hrest⟩ := ih hmore
        refine ⟨first ++ separator ++ before, after, ?_⟩
        rw [hrest]
        simp only [String.append_assoc]

/-- Every part of a text is part of the whole. -/
theorem SuppliedText.exists_joined_eq {text : SuppliedText} {part : String}
    (hpart : part ∈ text.parts) : ∃ before after, text.joined = before ++ part ++ after := by
  cases text with
  | block whole =>
    rw [parts, List.mem_singleton] at hpart
    subst hpart
    refine ⟨"", "", ?_⟩
    rw [joined, String.append_empty, String.empty_append]
  | lines lines =>
    rw [parts, filledLines] at hpart
    exact exists_intercalate_eq "\n" (List.mem_of_mem_filter hpart)

/-! ## Texts of nodes -/

/-- The part occurs in the text of the node. -/
def Node.Shows (part : String) (node : Node) : Prop :=
  ∃ before after, node.text? = some (before ++ part ++ after)

namespace Node

variable {node : Node} {part : String}

theorem text?_wrapText (href : Bool) (text : String) (node : Node) :
    (node.wrapText href text).text? = (node.appendText text).text? := by
  unfold wrapText
  dsimp only
  split
  next => rfl
  next => rfl

/-- What is appended is shown. -/
theorem shows_appendText (node : Node) (part : String) : (node.appendText part).Shows part :=
  ⟨node.text?.getD "", "", by rw [text?_appendText, String.append_empty]⟩

/-- What is shown still is when more is appended. -/
theorem Shows.appendText (h : node.Shows part) (text : String) :
    (node.appendText text).Shows part := by
  obtain ⟨before, after, htext⟩ := h
  refine ⟨before, after ++ text, ?_⟩
  rw [text?_appendText, htext, Option.getD_some, String.append_assoc]

/-- Every line that is appended is shown. -/
theorem shows_foldl {lines : List String} (hmem : part ∈ lines) (node : Node) :
    (lines.foldl (fun node line => node.appendText line) node).Shows part := by
  -- Lines that are appended later do not hide it.
  have hkept (lines : List String) : ∀ node : Node, node.Shows part →
      (lines.foldl (fun node line => node.appendText line) node).Shows part := by
    induction lines with
    | nil => exact fun _ h => h
    | cons line lines ih => exact fun node h => ih _ (h.appendText line)
  induction lines generalizing node with
  | nil => cases hmem
  | cons line lines ih =>
    rw [List.foldl_cons]
    rcases List.mem_cons.1 hmem with rfl | hmore
    · exact hkept lines _ (shows_appendText node part)
    · exact ih hmore _

end Node

namespace Statement

open Node (listingAll)

variable {options : Options} {text : SuppliedText} {fits : Prop} {part : String}
  {target : Statement}

/-- The node shows the lines of its placement. -/
theorem Placed.Becomes.shows {placed : Placed} {node : Node} (h : placed.Becomes options node)
    (hmem : part ∈ placed.lines) : node.Shows part := by
  have hshown := Node.shows_foldl hmem (Scope.single ⟨options, placed.loops⟩ placed.head none)
  rw [becomes_iff] at h
  rw [← h] at hshown
  exact hshown

/-- Every placement has a node. -/
theorem exists_becomes {placed : List Placed} {nodes : List Node}
    (h : List.Forall₂ (Placed.Becomes options) placed nodes) {entry : Placed}
    (hmem : entry ∈ placed) : ∃ node ∈ nodes, entry.Becomes options node := by
  induction h with
  | nil => cases hmem
  | cons hbecomes hmore ih =>
    rcases List.mem_cons.1 hmem with rfl | hrest
    · exact ⟨_, List.mem_cons_self, hbecomes⟩
    · obtain ⟨node, hnode, hentry⟩ := ih hrest
      exact ⟨node, List.mem_cons_of_mem _ hnode, hentry⟩

/-! ## Statements inside statements -/

mutual

/-- The statement and those inside it. -/
def subtrees : Statement → List Statement
  | .element head children => .element head children :: subtreesAll children
  | .group repeater children => .group repeater children :: subtreesAll children

/-- The statements of a tree. -/
def subtreesAll : List Statement → List Statement
  | [] => []
  | statement :: statements => subtrees statement ++ subtreesAll statements

end

theorem subtrees_eq (statement : Statement) :
    subtrees statement = statement :: subtreesAll statement.children := by
  cases statement with
  | element head children => rw [subtrees, Statement.children]
  | group repeater children => rw [subtrees, Statement.children]

/-- Whether the clones of the statement get lines and have leaves for them: it is an innermost
implicit repetition without placeholders, and there is an element in it. -/
def carries (statement : Statement) : Bool :=
  statement.isInnermost && !anyPlaceholder (elements statement) && !(elements statement).isEmpty

theorem isImplicit_of_carries (h : carries target = true) : target.isImplicit = true := by
  simp only [carries, isInnermost, Bool.and_eq_true] at h
  exact h.1.1.1

/-! ## Lines and placements -/

theorem exists_mem_modifyLast {entries : List Placed} (hne : entries ≠ []) (line : String) :
    ∃ entry ∈ entries.modifyLast (Placed.append line), line ∈ entry.lines := by
  rcases List.eq_nil_or_concat' entries with rfl | ⟨init, last, rfl⟩
  · exact absurd rfl hne
  · rw [List.modifyLast_concat]
    refine ⟨last.append line, List.mem_append_right _ (List.mem_singleton.2 rfl), ?_⟩
    exact List.mem_append_right _ (List.mem_singleton.2 rfl)

/-- Lines that are there already stay when the clone gets its line. -/
theorem exists_mem_fill {entries : List Placed} {entry : Placed} (hentry : entry ∈ entries)
    (hmem : part ∈ entry.lines) (statement : Statement) (index : Nat) :
    ∃ entry ∈ fill text statement index entries, part ∈ entry.lines := by
  unfold fill
  split
  next =>
    rcases List.eq_nil_or_concat' entries with rfl | ⟨init, last, rfl⟩
    · cases hentry
    · rw [List.modifyLast_concat]
      rcases List.mem_append.1 hentry with hinit | hlast
      · exact ⟨entry, List.mem_append_left _ hinit, hmem⟩
      · obtain rfl : entry = last := List.mem_singleton.1 hlast
        exact ⟨_, List.mem_append_right _ (List.mem_singleton.2 rfl), List.mem_append_left _ hmem⟩
  next => exact ⟨entry, hentry, hmem⟩

theorem fill_eq_nil_iff (statement : Statement) (index : Nat) (copied : List Placed) :
    fill text statement index copied = [] ↔ copied = [] := by
  unfold fill
  split
  next =>
    rcases List.eq_nil_or_concat' copied with rfl | ⟨init, last, rfl⟩
    · exact Iff.rfl
    · rw [List.modifyLast_concat]
      simp
  next => exact Iff.rfl

mutual

/-- A statement has placements if there is an element in it. -/
theorem Places.eq_nil_iff : ∀ {loops : List Repeater} {statement : Statement}
    {placed : List Placed}, Places options text fits loops statement placed →
    (placed = [] ↔ elements statement = [])
  | _, _, _, .once _ h => h.eq_nil_iff
  | _, _, _, .repeated _ hmade hcopied _ => by
    rw [List.flatMap_eq_nil_iff]
    constructor
    · intro hnone
      -- At least one clone is made, and it has placements if the statement does.
      have hfirst := hnone 0 (List.mem_range.2 hmade.pos)
      rw [fill_eq_nil_iff] at hfirst
      exact (hcopied 0 hmade.pos).eq_nil_iff.1 hfirst
    · intro hnone index hindex
      rw [fill_eq_nil_iff]
      exact (hcopied index (List.mem_range.1 hindex)).eq_nil_iff.2 hnone

theorem PlacesBody.eq_nil_iff : ∀ {loops : List Repeater} {statement : Statement}
    {placed : List Placed}, PlacesBody options text fits loops statement placed →
    (placed = [] ↔ elements statement = [])
  | _, _, _, .element _ => by
    rw [elements]
    exact iff_of_false (List.cons_ne_nil _ _) (List.cons_ne_nil _ _)
  | _, _, _, .group h => by
    rw [elements]
    exact h.eq_nil_iff

theorem PlacesAll.eq_nil_iff : ∀ {loops : List Repeater} {statements : List Statement}
    {placed : List Placed}, PlacesAll options text fits loops statements placed →
    (placed = [] ↔ elementsAll statements = [])
  | _, _, _, .nil => by
    rw [elementsAll]
    exact iff_of_true rfl rfl
  | _, _, _, .cons h hmore => by
    rw [elementsAll, List.append_eq_nil_iff, List.append_eq_nil_iff, h.eq_nil_iff,
      hmore.eq_nil_iff]

end

/-! ### Lines that are carried -/

/-- What every placement of a statement that holds the target brings along: each of the target's
lines is appended somewhere. -/
def Carried (options : Options) (text : SuppliedText) (target : Statement) (placed : List Placed) :
    Prop :=
  ∀ index < options.countOf target.repeater, ∃ entry ∈ placed, text.line index ∈ entry.lines

theorem Carried.mono {placed more : List Placed} (h : Carried options text target placed)
    (hsub : placed ⊆ more) : Carried options text target more := by
  intro index hindex
  obtain ⟨entry, hentry, hmem⟩ := h index hindex
  exact ⟨entry, hsub hentry, hmem⟩

mutual

/-- A statement that carries lines gets all of them, wherever it is. -/
theorem Places.carried (hfits : fits) (hcarries : carries target = true) :
    ∀ {loops : List Repeater} {statement : Statement} {placed : List Placed},
    Places options text fits loops statement placed → target ∈ subtrees statement →
    Carried options text target placed
  | _, statement, _, .once hrepeater h, hmem => by
    rw [subtrees_eq] at hmem
    rcases List.mem_cons.1 hmem with rfl | hinside
    · rw [carries, isInnermost, isImplicit, hrepeater] at hcarries
      cases hcarries
    · exact h.carried hfits hcarries hinside
  | _, statement, _, .repeated hrepeater hmade hcopied _, hmem => by
    rw [subtrees_eq] at hmem
    intro index hindex
    rcases List.mem_cons.1 hmem with rfl | hinside
    -- The clone with this index gets the line.
    · rw [hrepeater, ← hmade.eq_countOf hfits] at hindex
      rw [carries, Bool.and_eq_true, Bool.not_eq_true', List.isEmpty_eq_false_iff] at hcarries
      have hne := mt (hcopied index hindex).eq_nil_iff.1 hcarries.2
      obtain ⟨entry, hentry, hline⟩ := exists_mem_modifyLast hne (text.line index)
      refine ⟨entry, List.mem_flatMap.2 ⟨index, List.mem_range.2 hindex, ?_⟩, hline⟩
      rw [fill, if_pos hcarries.1]
      exact hentry
    -- The first clone holds the target already.
    · obtain ⟨entry, hentry, hline⟩ := (hcopied 0 hmade.pos).carried hfits hcarries hinside
        index hindex
      obtain ⟨filled, hfilled, hline⟩ := exists_mem_fill hentry hline statement 0
      exact ⟨filled, List.mem_flatMap.2 ⟨0, List.mem_range.2 hmade.pos, hfilled⟩, hline⟩

theorem PlacesBody.carried (hfits : fits) (hcarries : carries target = true) :
    ∀ {loops : List Repeater} {statement : Statement} {placed : List Placed},
    PlacesBody options text fits loops statement placed →
    target ∈ subtreesAll statement.children → Carried options text target placed
  | _, _, _, .element h, hmem =>
    (h.carried hfits hcarries hmem).mono (List.subset_cons_self _ _)
  | _, _, _, .group h, hmem => h.carried hfits hcarries hmem

theorem PlacesAll.carried (hfits : fits) (hcarries : carries target = true) :
    ∀ {loops : List Repeater} {statements : List Statement} {placed : List Placed},
    PlacesAll options text fits loops statements placed → target ∈ subtreesAll statements →
    Carried options text target placed
  | _, _, _, .nil, hmem => by
    rw [subtreesAll] at hmem
    cases hmem
  | _, _, _, .cons h hmore, hmem => by
    rw [subtreesAll] at hmem
    rcases List.mem_append.1 hmem with hfirst | hrest
    · exact (h.carried hfits hcarries hfirst).mono (List.subset_append_left _ _)
    · exact (hmore.carried hfits hcarries hrest).mono (List.subset_append_right _ _)

end

/-! ### Lines that are dropped -/

mutual

/-- Without a statement that carries lines, no line is appended. -/
theorem Places.dropped : ∀ {loops : List Repeater} {statement : Statement} {placed : List Placed},
    Places options text fits loops statement placed →
    (∀ inner ∈ subtrees statement, carries inner = false) → ∀ entry ∈ placed, entry.lines = []
  | _, statement, _, .once _ h, hnone => by
    rw [subtrees_eq] at hnone
    exact h.dropped (List.forall_mem_cons.1 hnone).2
  | _, statement, _, .repeated _ _ hcopied _, hnone => by
    rw [subtrees_eq] at hnone
    obtain ⟨hstatement, hinside⟩ := List.forall_mem_cons.1 hnone
    intro entry hmem
    obtain ⟨index, hindex, hmem⟩ := List.mem_flatMap.1 hmem
    have hplaces := hcopied index (List.mem_range.1 hindex)
    unfold fill at hmem
    split at hmem
    next happends =>
      -- The clone has no copies at all.
      rw [carries, happends, Bool.true_and, Bool.not_eq_false', List.isEmpty_iff] at hstatement
      rw [hplaces.eq_nil_iff.2 hstatement] at hmem
      cases hmem
    next => exact hplaces.dropped hinside entry hmem

theorem PlacesBody.dropped : ∀ {loops : List Repeater} {statement : Statement}
    {placed : List Placed}, PlacesBody options text fits loops statement placed →
    (∀ inner ∈ subtreesAll statement.children, carries inner = false) →
    ∀ entry ∈ placed, entry.lines = []
  | _, _, _, .element h, hnone => List.forall_mem_cons.2 ⟨rfl, h.dropped hnone⟩
  | _, _, _, .group h, hnone => h.dropped hnone

theorem PlacesAll.dropped : ∀ {loops : List Repeater} {statements : List Statement}
    {placed : List Placed}, PlacesAll options text fits loops statements placed →
    (∀ inner ∈ subtreesAll statements, carries inner = false) → ∀ entry ∈ placed, entry.lines = []
  | _, _, _, .nil, _ => by
    intro entry hmem
    cases hmem
  | _, _, _, .cons h hmore, hnone => by
    rw [subtreesAll] at hnone
    obtain ⟨hfirst, hrest⟩ := List.forall_mem_append.1 hnone
    exact List.forall_mem_append.2 ⟨h.dropped hfirst, hmore.dropped hrest⟩

end

/-! ## The output -/

/-- The parts of the text are the lines of the clones. -/
theorem exists_line_eq (htext : options.text = some text) (himplicit : target.isImplicit = true)
    (hpart : part ∈ text.parts) :
    ∃ index < options.countOf target.repeater, text.line index = part := by
  unfold isImplicit at himplicit
  obtain ⟨written, hrepeater, himplicit⟩ := (Option.any_eq_true _ _).1 himplicit
  rw [hrepeater]
  cases text with
  | block whole =>
    rw [SuppliedText.parts, List.mem_singleton] at hpart
    exact ⟨0, options.countOf_pos _, hpart.symm⟩
  | lines lines =>
    have hmap := map_line_range htext himplicit rfl (List.ne_nil_of_mem hpart)
    rw [SuppliedText.parts, ← hmap] at hpart
    obtain ⟨index, hindex, hline⟩ := List.mem_map.1 hpart
    exact ⟨index, List.mem_range.1 hindex, hline⟩

/-- Without implicit repeaters, the last node shows the whole text. -/
theorem exists_shows_of_unclaimed (htext : options.text = some text)
    {statements : List Statement} (himplicit : anyImplicit (repeatersAll statements) = false)
    (hplain : anyPlaceholder (elementsAll statements) = false)
    (hnodes : convert options statements ≠ []) (hpart : part ∈ text.parts) :
    ∃ node ∈ listingAll (convert options statements), node.Shows part := by
  -- There is output, so there is a last node that the text goes to.
  have hne : listingAll (convert options statements) ≠ [] := by
    obtain ⟨node, nodes, hnodes⟩ := List.exists_cons_of_ne_nil hnodes
    rw [hnodes]
    exact Node.listingAll_ne_nil node nodes
  rw [listingAll_convert_of_unclaimed htext himplicit hplain] at hne ⊢
  rcases List.eq_nil_or_concat' (listingAll (unrollAll { options } 0 statements).1) with
    hnone | ⟨init, last, hlast⟩
  · rw [hnone] at hne
    exact absurd rfl hne
  · rw [hlast, List.modifyLast_concat]
    refine ⟨_, List.mem_append_right _ (List.mem_singleton.2 rfl), ?_⟩
    obtain ⟨before, after, hjoined⟩ := SuppliedText.exists_joined_eq hpart
    refine ⟨last.text?.getD "" ++ before, after, ?_⟩
    rw [Node.text?_wrapText, Node.text?_appendText, hjoined, String.append_assoc,
      String.append_assoc, String.append_assoc]

/-- Which texts appear in the output of a tree without placeholders, if the limit leaves room and
there is output at all. If no repeater is implicit, or if some innermost implicit repetition holds
an element, then every part of the text is shown by a node. If there are implicit repeaters but no
such repetition, nothing is appended anywhere. -/
theorem shows_of_convert (options : Options) (statements : List Statement) (text : SuppliedText)
    (htext : options.text = some text)
    (hplain : anyPlaceholder (elementsAll statements) = false)
    (hfits : clonesNeededAll options 1 statements ≤ options.repeatLimit)
    (hnodes : convert options statements ≠ []) :
    (anyImplicit (repeatersAll statements) = false ∨
        (∃ inner ∈ subtreesAll statements, carries inner = true) →
      ∀ part ∈ text.parts, ∃ node ∈ listingAll (convert options statements), node.Shows part) ∧
    (anyImplicit (repeatersAll statements) = true →
      (∀ inner ∈ subtreesAll statements, carries inner = false) →
      ∃ placed, List.Forall₂ (Placed.Becomes options) placed
          (listingAll (convert options statements)) ∧
        ∀ entry ∈ placed, entry.lines = []) := by
  obtain ⟨placed, hplaces, hbecomes⟩ := exists_places_unrollAll htext statements [] 0 fun _ =>
    (Nat.zero_add _).le.trans hfits
  constructor
  · intro hshown part hpart
    cases himplicit : anyImplicit (repeatersAll statements) with
    | false => exact exists_shows_of_unclaimed htext himplicit hplain hnodes hpart
    | true =>
      rw [himplicit] at hshown
      -- The text is claimed, so the lines of the clones are all that is appended.
      obtain ⟨target, hmem, hcarries⟩ := hshown.resolve_left Bool.noConfusion
      obtain ⟨index, hindex, rfl⟩ := exists_line_eq htext (isImplicit_of_carries hcarries) hpart
      obtain ⟨entry, hentry, hline⟩ := hplaces.carried hfits hcarries hmem index hindex
      obtain ⟨node, hnode, hshows⟩ := exists_becomes hbecomes hentry
      rw [convert_of_claimed htext (.inl himplicit)]
      exact ⟨node, hnode, hshows.shows hline⟩
  · intro himplicit hnone
    rw [convert_of_claimed htext (.inl himplicit)]
    exact ⟨placed, hbecomes, hplaces.dropped hnone⟩

/-- A list with a link in each item: both lines that are not blank are shown, each by a link. -/
theorem shows_of_convert_items :
    Options.text { text := some (.lines ["x", " ", "y"]) } = some (.lines ["x", " ", "y"]) ∧
    ∀ part ∈ ["x", "y"], ∃ node ∈ listingAll (convert { text := some (.lines ["x", " ", "y"]) }
      [.element { name := some [⟨.literal "ul", 0, 2⟩] }
        [.element { name := some [⟨.literal "li", 3, 5⟩], repeater := some ⟨1, 0, true⟩ }
          [.element { name := some [⟨.literal "a", 7, 8⟩] } []]]]), node.Shows part := by
  have hfits : clonesNeededAll { text := some (.lines ["x", " ", "y"]) } 1
      [.element { name := some [⟨.literal "ul", 0, 2⟩] }
        [.element { name := some [⟨.literal "li", 3, 5⟩], repeater := some ⟨1, 0, true⟩ }
          [.element { name := some [⟨.literal "a", 7, 8⟩] } []]]] ≤
      Options.repeatLimit { text := some (.lines ["x", " ", "y"]) } := by
    decide +kernel
  have hcarried : ∃ inner ∈ subtreesAll [.element { name := some [⟨.literal "ul", 0, 2⟩] }
      [.element { name := some [⟨.literal "li", 3, 5⟩], repeater := some ⟨1, 0, true⟩ }
        [.element { name := some [⟨.literal "a", 7, 8⟩] } []]]], carries inner = true :=
    List.any_eq_true.1 (by rfl)
  refine ⟨rfl, ?_⟩
  exact (shows_of_convert _ _ (.lines ["x", " ", "y"]) rfl (by rfl) hfits
    (List.cons_ne_nil _ _)).1 (.inr hcarried)

/-- A text can be lost. In `a+()*` the group claims it, but its clone has no node that could show
it. -/
theorem not_shows_of_convert :
    ¬ ∀ (options : Options) (statements : List Statement) (text : SuppliedText),
      options.text = some text → anyPlaceholder (elementsAll statements) = false →
      clonesNeededAll options 1 statements ≤ options.repeatLimit →
      convert options statements ≠ [] →
      ∀ part ∈ text.parts, ∃ node ∈ listingAll (convert options statements), node.Shows part := by
  intro hshows
  have hfits : clonesNeededAll { text := some (.block "hello") } 1
      [.element { name := some [⟨.literal "a", 0, 1⟩] } [], .group (some ⟨1, 0, true⟩) []] ≤
      Options.repeatLimit { text := some (.block "hello") } := by
    decide +kernel
  have houtput : convert { text := some (.block "hello") }
      [.element { name := some [⟨.literal "a", 0, 1⟩] } [], .group (some ⟨1, 0, true⟩) []] =
      [⟨some "a", none, [], none, false, []⟩] := by
    rfl
  obtain ⟨node, hmem, before, after, htext⟩ := hshows { text := some (.block "hello") }
    [.element { name := some [⟨.literal "a", 0, 1⟩] } [], .group (some ⟨1, 0, true⟩) []]
    (.block "hello") rfl (by rfl) hfits (List.cons_ne_nil _ _) "hello" (List.mem_singleton.2 rfl)
  -- The only node of the output has no text.
  rw [houtput, Node.listingAll_singleton, Node.listing_of_leaf rfl, List.mem_singleton] at hmem
  rw [hmem] at htext
  cases htext

end Statement

end Shorthand
