import Shorthand.Proofs.Expansion.Insertion
import Shorthand.Proofs.Expansion.Sites

/-!
# Numbering

A numbering token counts clones. It is rendered within the clones that the copy of its element
belongs to, one of each repeater around the element, whichever of the repeaters are implicit and
wherever the limit has cut them short. The number is the base of the token plus the position of the
innermost clone, and it may climb: then it continues over the clones of a repeater further out.
So over the clones of the two innermost repeaters together, a numbering that climbs by one counts on
without a gap, and over the clones of the innermost one, a reversed numbering takes the numbers of
the plain one from behind.

## Main definitions

* `Numbering.Counts`, `Numbering.Adds`: what the clones around a token add to its base;
* `Options.clonesOf`: the clones of a repeater;
* `Statement.Copy.Holds`: the digits that a node has where a numbering stands in its element;
* `Statement.Numbered`: what is known of the numbers in the output for a tree.

## Main results

* `Scope.exists_adds_render`: the number that a token is rendered as;
* `Scope.map_render_climb`: a numbering that climbs by one counts on;
* `Scope.map_render_reverse`: a reversed numbering takes the numbers of the plain one from behind;
* `Statement.Copy.Renders.holds`: the nodes hold the numbers that are rendered for their copies;
* `Statement.numbered`: all of this for every tree and all options.
-/

namespace Shorthand

/-! ## What clones add -/

/-- The position at which a numbering takes a clone: its index, or how many clones come after it if
the numbering is reversed. -/
inductive Numbering.Counts (numbering : Numbering) (clone : Repeater) : Nat → Prop
  | forward (hforward : numbering.reverse = false) : Counts numbering clone clone.index
  | reversed {position : Nat} (hreverse : numbering.reverse = true)
      (hposition : position + clone.index + 1 = clone.count) : Counts numbering clone position

/-- What the clones around a numbering token, the innermost first, add to its base: the position of
the innermost one, and what it climbs. -/
inductive Numbering.Adds (numbering : Numbering) : List Repeater → Nat → Nat → Prop
  /-- Outside all repeaters nothing is added. -/
  | outside : Adds numbering [] 0 0
  /-- A numbering that does not climb, or cannot, counts the clones of the innermost repeater. -/
  | anew {inner : Repeater} {outer : List Repeater} {position : Nat}
      (hposition : numbering.Counts inner position)
      (hlevel : min numbering.climb outer.length = 0) : Adds numbering (inner :: outer) position 0
  /-- One that climbs continues over the clones of the repeater so many levels further out, or of
  the outermost one if there are not so many. -/
  | continued {inner further : Repeater} {outer : List Repeater} {position : Nat}
      (hposition : numbering.Counts inner position)
      (hlevel : min numbering.climb outer.length ≠ 0)
      (hfurther : (inner :: outer)[min numbering.climb outer.length]? = some further) :
      Adds numbering (inner :: outer) position (inner.count * further.index)

variable {options : Options} {loops : List Repeater} {numbering : Numbering}

/-- The last of the repeaters that a numbering passes as it climbs is the one that it gets to. -/
theorem getLast?_take_climb (inner : Repeater) (outer : List Repeater) (climb : Nat) :
    (outer.take climb).getLast? =
      if min climb outer.length = 0 then none else (inner :: outer)[min climb outer.length]? := by
  rw [List.getLast?_eq_getElem?, List.length_take, List.getElem?_take]
  cases hlevel : min climb outer.length with
  | zero =>
    rw [if_pos rfl]
    split
    next hpos => rw [List.getElem?_eq_none (by omega)]
    next => rfl
  | succ level =>
    rw [if_neg (Nat.succ_ne_zero level), Nat.add_sub_cancel, if_pos (by omega),
      List.getElem?_cons_succ]

namespace Scope

/-- The position that is added is the one that the numbering counts. -/
theorem position_eq {inner : Repeater} {position : Nat} (h : numbering.Counts inner position) :
    (if numbering.reverse then inner.count - (inner.index + 1) else inner.index) = position := by
  cases h with
  | forward hforward => rw [hforward, if_neg Bool.false_ne_true]
  | reversed hreverse hposition =>
    rw [if_pos hreverse]
    omega

/-- The number that a token stands for is its base with what the clones around it add, as far as
that is a count. -/
theorem number_eq {position climbed : Nat} (h : numbering.Adds loops position climbed) :
    number ⟨options, loops⟩ numbering =
      min Count.greatest (numbering.base + position + climbed) := by
  unfold number
  cases h with
  | outside => exact Nat.min_comm _ _
  | @anew inner outer position hposition hlevel =>
    dsimp only
    rw [position_eq hposition, getLast?_take_climb inner, if_pos hlevel]
    exact Nat.min_comm _ _
  | @continued inner further outer position hposition hlevel hfurther =>
    dsimp only
    rw [position_eq hposition, getLast?_take_climb inner, if_neg hlevel, hfurther]
    -- Saturating one step after the other comes to the same as saturating once.
    unfold Count.add Count.mul Count.saturate
    dsimp only
    generalize inner.count * further.index = climbed
    omega

/-- If every clone is among those that its repeater makes, they add something. -/
theorem exists_adds (hloops : ∀ clone ∈ loops, clone.index < clone.count) (numbering : Numbering) :
    ∃ position climbed, numbering.Adds loops position climbed := by
  cases loops with
  | nil => exact ⟨0, 0, .outside⟩
  | cons inner outer =>
    have hinner := hloops inner List.mem_cons_self
    obtain ⟨position, hposition⟩ : ∃ position, numbering.Counts inner position := by
      cases hreverse : numbering.reverse with
      | false => exact ⟨_, .forward hreverse⟩
      | true => exact ⟨inner.count - 1 - inner.index, .reversed hreverse (by omega)⟩
    by_cases hlevel : min numbering.climb outer.length = 0
    · exact ⟨position, 0, .anew hposition hlevel⟩
    · have hlt : min numbering.climb outer.length < (inner :: outer).length :=
        Nat.lt_succ_of_le (Nat.min_le_right _ _)
      exact ⟨position, _, .continued hposition hlevel (List.getElem?_eq_getElem hlt)⟩

/-- A numbering token is rendered as its number, with zeros in front. -/
theorem exists_adds_render (hloops : ∀ clone ∈ loops, clone.index < clone.count)
    (numbering : Numbering) : ∃ position climbed, numbering.Adds loops position climbed ∧
      render ⟨options, loops⟩ (.numbering numbering) = String.ofList
        ((Nat.toDigits 10 (min (2 ^ 64 - 1) (numbering.base + position + climbed))).leftpad
          numbering.size '0') := by
  obtain ⟨position, climbed, hadds⟩ := exists_adds hloops numbering
  refine ⟨position, climbed, hadds, ?_⟩
  rw [render, number_eq hadds]
  rfl

end Scope

/-! ## Numbers over several clones -/

/-- The clones of a repeater, in order. -/
def Options.clonesOf (options : Options) (written : Repeater) : List Repeater :=
  (List.range (options.countOf (some written))).map (options.cloneAt written)

/-- Clones of the innermost repeater within those of the next one, in order. -/
def Options.clonePairs (options : Options) (inner outer : Repeater) : List (Repeater × Repeater) :=
  (options.clonesOf outer).flatMap fun further =>
    (options.clonesOf inner).map fun clone => (clone, further)

/-- Blocks of numbers, one behind the other, make up one row of numbers. -/
theorem flatMap_range_map_add (base width rows : Nat) :
    ((List.range rows).flatMap fun row =>
      (List.range width).map fun place => base + place + width * row) =
      List.range' base (rows * width) := by
  induction rows with
  | zero =>
    rw [Nat.zero_mul]
    rfl
  | succ rows ih =>
    have hlast : (List.range width).map (fun place => base + place + width * rows) =
        List.range' (base + 1 * (rows * width)) width := by
      rw [List.range'_eq_map_range]
      refine List.map_congr_left fun place _ => ?_
      ring
    rw [List.range_succ, List.flatMap_append, ih, List.flatMap_singleton, hlast,
      List.range'_append, Nat.succ_mul]

namespace Scope

/-- A numbering that climbs by one counts on over the clones of the two innermost repeaters. -/
theorem map_render_climb (inner outer : Repeater) (loops : List Repeater) (size base : Nat)
    (hroom : base + options.countOf (some outer) * options.countOf (some inner) ≤ 2 ^ 64) :
    (options.clonePairs inner outer).map (fun pair =>
      render ⟨options, pair.1 :: pair.2 :: loops⟩ (.numbering ⟨size, false, base, 1⟩)) =
      (List.range' base (options.countOf (some outer) * options.countOf (some inner))).map
        fun n => String.ofList ((Nat.toDigits 10 n).leftpad size '0') := by
  rw [← flatMap_range_map_add, Options.clonePairs, Options.clonesOf, Options.clonesOf,
    List.map_flatMap, List.map_flatMap, List.flatMap_map]
  refine List.flatMap_congr fun row hrow => ?_
  rw [List.map_map, List.map_map, List.map_map]
  refine List.map_congr_left fun place hplace => ?_
  have hadds : Numbering.Adds ⟨size, false, base, 1⟩
      (options.cloneAt inner place :: options.cloneAt outer row :: loops) place
      ((options.cloneAt inner place).count * (options.cloneAt outer row).index) :=
    .continued (.forward rfl) (by simp) (by simp)
  -- The last number of all is below the bound, so none of them reaches it.
  have hlast := Nat.mul_le_mul_right (options.countOf (some inner)) (List.mem_range.1 hrow)
  rw [Nat.succ_mul, Nat.mul_comm row] at hlast
  have hplace := List.mem_range.1 hplace
  have hbound : base + place + options.countOf (some inner) * row ≤ Count.greatest := by
    show _ ≤ 2 ^ 64 - 1
    omega
  rw [Function.comp_apply, Function.comp_apply, render, number_eq hadds]
  exact congrArg (fun n => String.ofList ((Nat.toDigits 10 n).leftpad size '0'))
    (Nat.min_eq_right hbound)

/-- Over the clones of the innermost repeater, a reversed numbering takes the numbers of the plain
one from behind. -/
theorem map_render_reverse (inner : Repeater) (loops : List Repeater) (numbering : Numbering) :
    (options.clonesOf inner).map (fun clone =>
      render ⟨options, clone :: loops⟩ (.numbering { numbering with reverse := true })) =
      ((options.clonesOf inner).map fun clone =>
        render ⟨options, clone :: loops⟩ (.numbering { numbering with reverse := false })).reverse
    := by
  unfold Options.clonesOf
  refine List.ext_getElem (by simp) fun index hindex _ => ?_
  simp only [List.getElem_map, List.getElem_reverse, List.length_map, List.length_range,
    List.getElem_range, render]
  -- What comes after the clone is what comes before its mirror image.
  have hmirror : options.countOf (some inner) - (index + 1) =
      options.countOf (some inner) - 1 - index := by
    omega
  unfold number Options.cloneAt
  simp only [if_true, hmirror]
  rfl

end Scope

namespace Statement

open Node (listingAll)

variable {statements : List Statement}

/-! ## Digits in nodes -/

/-- The node has these digits wherever the numbering stands in the name or in the text of the
element, between what the tokens before it and those behind it are rendered as. Behind the text
there may be supplied text. -/
structure Copy.Holds (options : Options) (numbering : Numbering) (digits : String) (copy : Copy)
    (node : Node) : Prop where
  name : ∀ before token after, copy.head.name = some (before ++ token :: after) →
    token.kind = .numbering numbering →
    node.name = some (Scope.renderName ⟨options, copy.loops⟩ before ++ digits ++
      Scope.renderName ⟨options, copy.loops⟩ after)
  text : ∀ before token after, copy.head.value = some (before ++ token :: after) →
    token.kind = .numbering numbering → ∃ supplied,
    node.text? = some (Scope.renderName ⟨options, copy.loops⟩ before ++ digits ++
      Scope.renderName ⟨options, copy.loops⟩ after ++ supplied)

/-- A token has its own part of a name. -/
theorem renderName_append_cons (scope : Scope) (before : List Token) (token : Token)
    (after : List Token) : scope.renderName (before ++ token :: after) =
      scope.renderName before ++ scope.render token.kind ++ scope.renderName after := by
  induction before with
  | nil => exact congrArg (· ++ scope.renderName after) String.empty_append.symm
  | cons first before ih =>
    have hfirst (tokens : List Token) : scope.renderName (first :: tokens) =
        scope.render first.kind ++ scope.renderName tokens := rfl
    rw [List.cons_append, hfirst, hfirst, ih]
    simp only [String.append_assoc]

/-- Supplying text leaves the name as it is. -/
theorem name_eq_of_supplied {plain node : Node} (h : plain.Supplied options node) :
    node.name = plain.name := by
  induction h with
  | nothing => rfl
  | text index _ ih => exact ih
  | link hlink _ ih => exact ih

/-- Supplied text comes behind the text that is there. -/
theorem exists_text_eq_of_supplied {plain node : Node} (h : plain.Supplied options node)
    {text : String} (htext : plain.text? = some text) :
    ∃ supplied, node.text? = some (text ++ supplied) := by
  induction h with
  | nothing => exact ⟨"", by rw [htext, String.append_empty]⟩
  | text index _ ih =>
    obtain ⟨supplied, hsupplied⟩ := ih
    refine ⟨supplied ++ options.textAt index, ?_⟩
    rw [Node.text?_appendText, hsupplied, Option.getD_some, String.append_assoc]
  | link hlink _ ih => exact ih

/-- A node has the digits that numberings are rendered as for its copy. -/
theorem Copy.Renders.holds {copy : Copy} {node : Node} (h : copy.Renders options node)
    (numbering : Numbering) : copy.Holds options numbering
      (Scope.render ⟨options, copy.loops⟩ (.numbering numbering)) node := by
  refine ⟨fun before token after hname hkind => ?_, fun before token after hvalue hkind => ?_⟩
  · rw [name_eq_of_supplied h.supplied, ← hkind, ← renderName_append_cons, Scope.single, hname,
      Option.map_some]
  · refine exists_text_eq_of_supplied h.supplied ?_
    rw [← hkind, ← renderName_append_cons, ← Scope.concat_renderValue, Scope.single, hvalue]
    rfl

/-! ## The output -/

/-- What is known of the numbers in the output for a tree. -/
structure Numbered (options : Options) (statements : List Statement) : Prop where
  /-- Whatever the limit leaves of the copies, each belongs to one clone of every repeater around
  its element, and its node has the numbers that these clones make. -/
  stack : ∃ made : List (Nat × Copy), made.Sublist (indexedAll options [] 0 statements) ∧
    List.Forall₂ (fun entry node => entry.2.Renders options node ∧
        ∀ numbering position climbed, numbering.Adds entry.2.loops position climbed →
          entry.2.Holds options numbering (String.ofList
            ((Nat.toDigits 10 (min (2 ^ 64 - 1) (numbering.base + position + climbed))).leftpad
              numbering.size '0')) node)
      made (listingAll (convert options statements)) ∧
    ∀ entry ∈ made, ∃ site, (sitesAll statements)[entry.1]? = some site ∧
      entry.2.head = site.head ∧ List.Forall₂ (CloneOf options) site.around entry.2.loops ∧
      ∀ numbering, ∃ position climbed, numbering.Adds entry.2.loops position climbed ∧
        Scope.render ⟨options, entry.2.loops⟩ (.numbering numbering) = String.ofList
          ((Nat.toDigits 10 (min (2 ^ 64 - 1) (numbering.base + position + climbed))).leftpad
            numbering.size '0')
  /-- If the limit leaves room, the nodes of an element within two repeaters are one for each pair
  of clones, again for each combination of clones further out. Over the pairs, a numbering that
  climbs by one counts on, as long as the numbers are counts, and so do the digits in the nodes. -/
  continuous : clonesNeededAll options 1 statements ≤ options.repeatLimit →
    ∀ number site inner outer further, (sitesAll statements)[number]? = some site →
    site.around = inner :: outer :: further →
    List.Forall₂ (Copy.Renders options) ((options.combinations further []).flatMap fun loops =>
        (options.clonePairs inner outer).map fun pair => ⟨site.head, pair.1 :: pair.2 :: loops⟩)
      (nodesAt options statements number) ∧
    ∀ size base, base + options.countOf (some outer) * options.countOf (some inner) ≤ 2 ^ 64 →
      (∀ loops, (options.clonePairs inner outer).map (fun pair => Scope.render
        ⟨options, pair.1 :: pair.2 :: loops⟩ (.numbering ⟨size, false, base, 1⟩)) =
        (List.range' base (options.countOf (some outer) * options.countOf (some inner))).map
          fun n => String.ofList ((Nat.toDigits 10 n).leftpad size '0')) ∧
      List.Forall₂ (fun (entry : Copy × Nat) node => entry.1.Holds options ⟨size, false, base, 1⟩
          (String.ofList ((Nat.toDigits 10 (base + entry.2)).leftpad size '0')) node)
        ((options.combinations further []).flatMap fun loops =>
          (options.clonePairs inner outer).zipIdx.map fun entry =>
            (⟨site.head, entry.1.1 :: entry.1.2 :: loops⟩, entry.2))
        (nodesAt options statements number)
  /-- If the limit leaves room, the nodes of an element within a repeater are one for each clone,
  again for each combination of clones further out. Over the clones, a reversed numbering takes the
  numbers of the plain one from behind: a node has the digits that the plain one is rendered as for
  the mirror image of its clone. -/
  reversed : clonesNeededAll options 1 statements ≤ options.repeatLimit →
    ∀ number site inner further, (sitesAll statements)[number]? = some site →
    site.around = inner :: further →
    List.Forall₂ (Copy.Renders options) ((options.combinations further []).flatMap fun loops =>
        (options.clonesOf inner).map fun clone => ⟨site.head, clone :: loops⟩)
      (nodesAt options statements number) ∧
    ∀ numbering : Numbering,
      (∀ loops, (options.clonesOf inner).map (fun clone =>
          Scope.render ⟨options, clone :: loops⟩ (.numbering { numbering with reverse := true })) =
        ((options.clonesOf inner).map fun clone => Scope.render ⟨options, clone :: loops⟩
          (.numbering { numbering with reverse := false })).reverse) ∧
      List.Forall₂ (fun (entry : Copy × List Repeater) node =>
          entry.1.Holds options { numbering with reverse := true } (Scope.render
            ⟨options, entry.2⟩ (.numbering { numbering with reverse := false })) node)
        ((options.combinations further []).flatMap fun loops =>
          ((options.clonesOf inner).zip (options.clonesOf inner).reverse).map fun clones =>
            (⟨site.head, clones.1 :: loops⟩, clones.2 :: loops))
        (nodesAt options statements number)

/-- Clones of repeaters are among those that these make. -/
theorem index_lt_of_cloneOf {around clones : List Repeater}
    (h : List.Forall₂ (CloneOf options) around clones) :
    ∀ clone ∈ clones, clone.index < clone.count := by
  induction h with
  | nil => exact List.forall_mem_nil _
  | cons hclone _ ih => exact List.forall_mem_cons.2 ⟨hclone.index, ih⟩

/-- The copies of an element within a repeater, clone by clone. -/
theorem Site.copies_cons {site : Site} {inner : Repeater} {further : List Repeater}
    (haround : site.around = inner :: further) :
    site.copies options [] = (options.combinations further []).flatMap fun loops =>
      (options.clonesOf inner).map fun clone => ⟨site.head, clone :: loops⟩ := by
  rw [copies, haround, Options.combinations, List.map_flatMap]
  refine List.flatMap_congr fun loops _ => ?_
  rw [Options.rounds, Options.clonesOf, List.map_map, List.map_map]
  rfl

/-- The copies of an element within two repeaters, pair by pair. -/
theorem Site.copies_cons_cons {site : Site} {inner outer : Repeater} {further : List Repeater}
    (haround : site.around = inner :: outer :: further) :
    site.copies options [] = (options.combinations further []).flatMap fun loops =>
      (options.clonePairs inner outer).map fun pair =>
        ⟨site.head, pair.1 :: pair.2 :: loops⟩ := by
  rw [copies_cons haround, Options.combinations, List.flatMap_assoc]
  refine List.flatMap_congr fun loops _ => ?_
  rw [Options.rounds, Options.clonePairs, List.map_flatMap, List.flatMap_map, Options.clonesOf,
    Options.clonesOf, List.flatMap_map]
  refine List.flatMap_congr fun row _ => ?_
  rw [List.map_map, List.map_map, List.map_map]
  rfl

/-- Nodes that render copies hold the digits that are found for these. -/
theorem forall₂_holds {α : Type} (numbering : Numbering) (digits : α → String)
    {entries : List (Copy × α)} {nodes : List Node}
    (h : List.Forall₂ (Copy.Renders options) (entries.map Prod.fst) nodes)
    (hdigits : ∀ entry ∈ entries,
      Scope.render ⟨options, entry.1.loops⟩ (.numbering numbering) = digits entry.2) :
    List.Forall₂ (fun entry node => entry.1.Holds options numbering (digits entry.2) node) entries
      nodes := by
  rw [List.forall₂_map_left_iff] at h
  refine ((List.forall₂_and_left entries nodes).2 ⟨hdigits, h⟩).imp fun entry node hentry => ?_
  rw [← hentry.1]
  exact hentry.2.holds numbering

/-- Where a numbering that climbs by one counts on, it has counted the pairs before. -/
theorem render_of_mem_zipIdx {inner outer : Repeater} {pair : Repeater × Repeater} {place : Nat}
    (hmem : (pair, place) ∈ (options.clonePairs inner outer).zipIdx) (loops : List Repeater)
    {size base : Nat}
    (hroom : base + options.countOf (some outer) * options.countOf (some inner) ≤ 2 ^ 64) :
    Scope.render ⟨options, pair.1 :: pair.2 :: loops⟩ (.numbering ⟨size, false, base, 1⟩) =
      String.ofList ((Nat.toDigits 10 (base + place)).leftpad size '0') := by
  have hpair := List.mk_mem_zipIdx_iff_getElem?.1 hmem
  -- The entry of the row at this place is the number, once for the pair and once for the range.
  have hrow := congrArg (·[place]?) (Scope.map_render_climb inner outer loops size base hroom)
  simp only [List.getElem?_map, hpair, Option.map_some] at hrow
  obtain ⟨n, hn, hdigits⟩ := Option.map_eq_some_iff.1 hrow.symm
  obtain ⟨hplace, hn⟩ := List.getElem?_eq_some_iff.1 hn
  rw [List.getElem_range', Nat.one_mul] at hn
  rw [← hdigits, hn]

/-- A reversed numbering is rendered for a clone as the plain one is for its mirror image. -/
theorem render_of_mem_zip_reverse {inner clone mirror : Repeater}
    (hmem : (clone, mirror) ∈ (options.clonesOf inner).zip (options.clonesOf inner).reverse)
    (loops : List Repeater) (numbering : Numbering) :
    Scope.render ⟨options, clone :: loops⟩ (.numbering { numbering with reverse := true }) =
      Scope.render ⟨options, mirror :: loops⟩ (.numbering { numbering with reverse := false }) := by
  obtain ⟨index, hindex⟩ := List.getElem?_of_mem hmem
  obtain ⟨hclone, hmirror⟩ := List.getElem?_zip_eq_some.1 hindex
  have hrow := congrArg (·[index]?) (@Scope.map_render_reverse options inner loops numbering)
  simp only [← List.map_reverse, List.getElem?_map, hclone, hmirror, Option.map_some] at hrow
  exact Option.some.inj hrow

/-- Numbering is exact and continuous, for every tree and all options. -/
theorem numbered (options : Options) (statements : List Statement) :
    Numbered options statements := by
  have hnodes (hfits : clonesNeededAll options 1 statements ≤ options.repeatLimit) {number : Nat}
      {site : Site} (hsite : (sitesAll statements)[number]? = some site) :
      List.Forall₂ (Copy.Renders options) (site.copies options [])
        (nodesAt options statements number) := by
    have hrenders := forall₂_renders_nodesAt hfits number
    rw [copiesAt, hsite] at hrenders
    exact hrenders
  refine ⟨?_, fun hfits number site inner outer further hsite haround => ?_,
    fun hfits number site inner further hsite haround => ?_⟩
  · obtain ⟨found, haccounts⟩ := exists_accounts_convert options statements
    have hsublist := haccounts.sublist
    rw [← map_snd_indexedAll statements [] 0] at hsublist
    obtain ⟨made, hmade, rfl⟩ := List.sublist_map_iff.1 hsublist
    refine ⟨made, hmade, ?_, fun entry hmem => ?_⟩
    · refine (List.forall₂_map_left_iff.1 haccounts.renders).imp fun entry node hrenders => ?_
      refine ⟨hrenders, fun numbering position climbed hadds => ?_⟩
      have hholds := hrenders.holds numbering
      rwa [Scope.render, Scope.number_eq hadds] at hholds
    · obtain ⟨site, hsite, hhead, hclones⟩ := exists_site_of_mem_indexedAll (hmade.subset hmem)
      exact ⟨site, hsite, hhead, hclones, Scope.exists_adds_render (index_lt_of_cloneOf hclones)⟩
  -- Pair by pair, the nodes render the copies, so they hold what is rendered for the pairs.
  · have hrenders := Site.copies_cons_cons haround ▸ hnodes hfits hsite
    refine ⟨hrenders, fun size base hroom =>
      ⟨fun loops => Scope.map_render_climb inner outer loops size base hroom, ?_⟩⟩
    refine forall₂_holds ⟨size, false, base, 1⟩
      (fun place => String.ofList ((Nat.toDigits 10 (base + place)).leftpad size '0')) ?_
      fun entry hmem => ?_
    · rw [← List.zipIdx_map_fst 0 (options.clonePairs inner outer)] at hrenders
      simpa only [List.map_flatMap, List.map_map, Function.comp_def] using hrenders
    · obtain ⟨loops, -, hentry⟩ := List.mem_flatMap.1 hmem
      obtain ⟨⟨pair, place⟩, hpair, rfl⟩ := List.mem_map.1 hentry
      exact render_of_mem_zipIdx hpair loops hroom
  · have hrenders := Site.copies_cons haround ▸ hnodes hfits hsite
    refine ⟨hrenders, fun numbering =>
      ⟨fun loops => Scope.map_render_reverse inner loops numbering, ?_⟩⟩
    refine forall₂_holds { numbering with reverse := true }
      (fun loops => Scope.render ⟨options, loops⟩ (.numbering { numbering with reverse := false }))
      ?_ fun entry hmem => ?_
    · rw [← List.map_fst_zip (options.clonesOf inner).length_reverse.ge] at hrenders
      simpa only [List.map_flatMap, List.map_map, Function.comp_def] using hrenders
    · obtain ⟨loops, -, hentry⟩ := List.mem_flatMap.1 hmem
      obtain ⟨⟨clone, mirror⟩, hclone, rfl⟩ := List.mem_map.1 hentry
      exact render_of_mem_zip_reverse hclone loops numbering

/-- In `ul*2>li{$$@^9/$@-}*3`, the items are counted on from list to list, and within each list from
behind. -/
theorem numbered_nested : ∃ statements : List Statement, statements =
      [.element { name := some [⟨.literal "ul", 0, 2⟩], repeater := some ⟨2, 0, false⟩ }
        [.element
          { name := some [⟨.literal "li", 5, 7⟩]
            value := some [⟨.numbering ⟨2, false, 9, 1⟩, 8, 13⟩, ⟨.literal "/", 13, 14⟩,
              ⟨.numbering ⟨1, true, 1, 0⟩, 14, 17⟩]
            repeater := some ⟨3, 0, false⟩ } []]] ∧
    Numbered {} statements ∧ (nodesAt {} statements 1).map Node.text? =
      [some "09/3", some "10/2", some "11/1", some "12/3", some "13/2", some "14/1"] :=
  ⟨_, rfl, numbered {} _, by decide +kernel⟩

end Statement

end Shorthand
