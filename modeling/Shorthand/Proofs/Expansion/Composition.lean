import Shorthand.Proofs.Expansion.Placement
import Shorthand.Proofs.Expansion.Pruning
import Shorthand.Proofs.Expansion.Unrepeated
import Shorthand.Proofs.Statement.Contents
import Shorthand.Proofs.Statement.Locality.Endings
import Shorthand.Proofs.Statement.Shift
import Shorthand.Proofs.Token.Locality

/-!
# Composition

Two abbreviations in groups beside each other expand to what each of them expands to. What is read
of either does not depend on the other one, since a group is read by itself, and neither does what
is made of it, since the nodes do not show where their tokens stand, and there is room for the
clones of both.

## Main results

* `unrollAll_shiftAll`: statements are unrolled in the same way wherever their tokens stand;
* `parse_groups`: what two groups beside each other are parsed as;
* `convert_groups`, `expand_groups`: what they are converted and expanded to.
-/

namespace Shorthand

variable {options : Options} {offset : Nat} {scope : Scope}

/-! ## Nodes of tokens in another place -/

namespace Statement

theorem unwrap_shiftAll (tokens : List Token) :
    unwrap (Token.shiftAll offset tokens) =
      ((unwrap tokens).1, Token.shiftAll offset (unwrap tokens).2) := by
  cases tokens with
  | nil => rfl
  | cons first inner =>
    rw [Token.shiftAll, List.map_cons, unwrap, unwrap, Token.shift_kind]
    split
    next => rw [dropFinal_shift]
    next => rw [dropFinal_shift]
    next => rfl

theorem hasPlaceholder_shiftAll (tokens : List Token) :
    hasPlaceholder (Token.shiftAll offset tokens) = hasPlaceholder tokens := by
  rw [hasPlaceholder, hasPlaceholder, List.any_map]
  rfl

theorem Element.claimsText_shift (head : Element) :
    (head.shift offset).claimsText = head.claimsText := by
  simp [claimsText, shift, Attribute.shift, Option.any_map, List.any_map, Function.comp_def,
    hasPlaceholder_shiftAll]

theorem isImplicit_shift (statement : Statement) :
    (statement.shift offset).isImplicit = statement.isImplicit := by
  cases statement with
  | element head children => rw [shift]; rfl
  | group repeater children => rw [shift]; rfl

mutual

theorem bodyClaimsText_shift : ∀ statement : Statement,
    bodyClaimsText (statement.shift offset) = bodyClaimsText statement
  | .element head children => by
    rw [shift, bodyClaimsText, bodyClaimsText, head.claimsText_shift,
      anyClaimsText_shiftAll children]
  | .group repeater children => by
    rw [shift, bodyClaimsText, bodyClaimsText, anyClaimsText_shiftAll children]

theorem anyClaimsText_shiftAll : ∀ statements : List Statement,
    anyClaimsText (shiftAll offset statements) = anyClaimsText statements
  | [] => by rw [shiftAll]
  | statement :: statements => by
    rw [shiftAll, anyClaimsText, anyClaimsText, isImplicit_shift statement,
      bodyClaimsText_shift statement, anyClaimsText_shiftAll statements]

end

end Statement

namespace Scope

open Token (shiftAll)

theorem renderName_shiftAll (tokens : List Token) :
    scope.renderName (shiftAll offset tokens) = scope.renderName tokens := by
  rw [renderName, renderName, List.foldr_map]
  rfl

theorem map_renderName_shiftAll (name : Option (List Token)) :
    (name.map (shiftAll offset)).map scope.renderName = name.map scope.renderName := by
  rw [Option.map_map]
  exact congrArg (name.map ·) (funext renderName_shiftAll)

theorem renderValue_shiftAll (tokens : List Token) :
    scope.renderValue (shiftAll offset tokens) = scope.renderValue tokens := by
  rw [renderValue, renderValue, List.foldl_map]
  rfl

theorem renderAttribute_shift (attr : Statement.Attribute) :
    scope.renderAttribute (attr.shift offset) = scope.renderAttribute attr := by
  obtain ⟨name, value, expression⟩ := attr
  cases value with
  | none =>
    simp only [renderAttribute, Statement.Attribute.shift, map_renderName_shiftAll,
      Option.map_none]
  | some tokens =>
    simp only [renderAttribute, Statement.Attribute.shift, map_renderName_shiftAll,
      Option.map_some, Statement.unwrap_shiftAll, renderValue_shiftAll]
    rfl

theorem nodes_shift (head : Statement.Element) (clone : Option Repeater) (below : List Node) :
    scope.nodes (head.shift offset) clone below = scope.nodes head clone below := by
  have hvalue : (head.value.map (shiftAll offset)).map scope.renderValue =
      head.value.map scope.renderValue := by
    rw [Option.map_map]
    exact congrArg (head.value.map ·) (funext renderValue_shiftAll)
  have hattributes : (head.attributes.map (Statement.Attribute.shift offset)).map
      scope.renderAttribute = head.attributes.map scope.renderAttribute := by
    rw [List.map_map]
    exact congrArg (head.attributes.map ·) (funext renderAttribute_shift)
  simp only [nodes, Statement.Element.shift, map_renderName_shiftAll, hvalue, hattributes]

end Scope

namespace Statement

mutual

theorem unroll_shift : ∀ (statement : Statement) (scope : Scope) (made : Nat),
    unroll scope made (statement.shift offset) = unroll scope made statement
  | .element head children, scope, made => by
    have hrepeater : (head.shift offset).repeater = head.repeater := rfl
    simp only [shift, unroll, hrepeater, head.claimsText_shift, anyClaimsText_shiftAll children,
      Scope.nodes_shift, unrollAll_shiftAll children]
  | .group repeater children, scope, made => by
    simp only [shift, unroll, anyClaimsText_shiftAll children, unrollAll_shiftAll children]

/-- Statements are unrolled in the same way wherever their tokens stand. -/
theorem unrollAll_shiftAll : ∀ (statements : List Statement) (scope : Scope) (made : Nat),
    unrollAll scope made (shiftAll offset statements) = unrollAll scope made statements
  | [], scope, made => by rw [shiftAll]
  | statement :: statements, scope, made => by
    simp only [shiftAll, unrollAll, unroll_shift statement, unrollAll_shiftAll statements]

end

end Statement

/-! ## Groups in a source -/

namespace Statement

open Token (Progress)

variable {jsx : Bool} {a b : String} {first second : List Statement}

/-- A source that can be parsed and leaves nothing open, in the brackets of a group. Wherever these
lexemes stand in another source, they are read as a group of what is parsed. -/
theorem exists_group_of_endsBare {source : String} {statements : List Statement}
    (hescape : '\\' ∉ source.toList) (hbare : Progress.EndsBare source.toList)
    (hparse : parse jsx source = .ok statements) : ∃ lexemes items,
      ofOutline (Item.outline 0 items) = statements ∧
      (∀ read more, Progress.Run ⟨read, '(' :: (source.toList ++ ')' :: more), {}⟩ lexemes
        ⟨read ++ '(' :: (source.toList ++ [')']), more, {}⟩) ∧
      ∀ start behind rest last link later, readRepeater behind = (none, behind) →
        Link.Follows link behind rest → Reads jsx rest later last →
          Reads jsx (Token.place start lexemes ++ behind)
            (.group (Item.shiftAll (start + 1) items) none link :: later) last := by
  obtain ⟨lexemes, last, hrun, hend, hcontext⟩ := hbare
  have htokens : Token.tokenize source = .ok (Token.place 0 lexemes) :=
    Token.tokenize_eq_ok_iff_exists_run.2 ⟨lexemes, last, hrun, hend, rfl⟩
  rw [parse, htokens] at hparse
  obtain ⟨items, hreads, hstatements⟩ := ofTokens_eq_ok_iff.1 hparse
  refine ⟨_, items, hstatements.symm, hrun.group hescape hend hcontext,
    fun start behind rest last link later hrepeater hlink hlater => ?_⟩
  -- Behind the opening bracket stand the tokens of the source by itself, moved.
  have hplace := Token.place_add 0 (start + 1) lexemes
  rw [Nat.zero_add] at hplace
  have hsettled : Settled (Token.place (start + 1) lexemes) := by
    obtain ⟨contexts, hchain, hlast⟩ := hrun.exists_chained (.inl rfl) (start + 1)
    exact ⟨contexts, _, hchain, by rw [hlast, hcontext], by rw [hlast, hcontext]⟩
  have hinside := hreads.shift (start + 1)
  rw [← hplace] at hinside
  rw [Token.place, Token.place_append, List.cons_append, List.append_assoc]
  exact .group rfl (hinside.append_closing hsettled rfl behind) rfl hrepeater hlink hlater

/-- Two groups beside each other are parsed as groups of what either is parsed as by itself. -/
theorem parse_groups (ha : '\\' ∉ a.toList) (hb : '\\' ∉ b.toList)
    (hbare : Progress.EndsBare a.toList) (hbare' : Progress.EndsBare b.toList)
    (hparse : parse jsx a = .ok first) (hparse' : parse jsx b = .ok second) :
    ∃ offset offset', parse jsx ("(" ++ a ++ ")+(" ++ b ++ ")") =
      .ok [.group none (shiftAll offset first), .group none (shiftAll offset' second)] := by
  obtain ⟨group, items, rfl, hrun, hreads⟩ := exists_group_of_endsBare ha hbare hparse
  obtain ⟨group', items', rfl, hrun', hreads'⟩ := exists_group_of_endsBare hb hbare' hparse'
  have hsource : ("(" ++ a ++ ")+(" ++ b ++ ")").toList =
      '(' :: (a.toList ++ ')' :: '+' :: '(' :: (b.toList ++ [')'])) := by
    simp
  obtain ⟨mark, offset, htokens, hmark⟩ : ∃ (mark : Token) (offset : Nat),
      Token.tokenize ("(" ++ a ++ ")+(" ++ b ++ ")") =
        .ok (Token.place 0 group ++ mark :: Token.place offset group') ∧
      mark.kind = .operator .sibling := by
    have hbeside := Progress.step_of_bare
      (Token.readGlyph?_operator .sibling ('(' :: (b.toList ++ [')']))) (by decide) (by decide)
      ([] ++ '(' :: (a.toList ++ [')']))
    have hall := (hrun [] _).append (.cons hbeside (hrun' _ []))
    have htokens := Token.tokenize_eq_ok_iff_exists_run.2 ⟨_, _, hsource ▸ hall, rfl, rfl⟩
    rw [Token.place_append] at htokens
    exact ⟨_, _, htokens, rfl⟩
  have hlast := hreads' offset [] [] [] .beside [] rfl (.nothing (by simp)) (.nil [])
  rw [List.append_nil] at hlast
  have hrepeater : readRepeater (mark :: Token.place offset group') = (none, _) :=
    readRepeater_of_ne (by simp [hmark])
  have hall := hreads 0 _ _ [] .beside _ hrepeater (.sibling hmark) hlast
  refine ⟨0 + 1, offset + 1, ?_⟩
  rw [parse, htokens]
  dsimp only
  rw [hall.ofTokens_eq, Item.outline_of_beside 0 (by simp [Item.link]), ofOutline_beside,
    List.map_cons, List.map_cons, List.map_nil, Item.statement, Item.statement,
    Item.outline_shift, Item.outline_shift, ofOutline_shift, ofOutline_shift]

end Statement

/-! ## Groups in an expansion -/

namespace Statement

/-- Without supplied text, statements are unrolled to the same nodes whatever has been made before,
as long as there is room for their clones. -/
theorem unrollAll_eq_of_room (htext : options.text = none) {statements : List Statement}
    {made : Nat} (hroom : made + clonesNeededAll options 1 statements ≤ options.repeatLimit) :
    (unrollAll { options } made statements).1 = (unrollAll { options } 0 statements).1 := by
  have htrails := @trails_unrollAll options options.maxRepeat options.maxRepeat htext statements []
    made 0 (Nat.sub_le_sub_left (Nat.zero_le made) _)
  have hfirst : 0 + clonesNeededAll options 1 statements ≤ options.repeatLimit := by omega
  exact (htrails.same hroom hfirst).1

/-- If there is room for the clones of both, two groups beside each other are converted to the nodes
of the first one, followed by those of the second one. -/
theorem convert_groups (htext : options.text = none) {first second : List Statement}
    (hfits : clonesNeededAll options 1 first + clonesNeededAll options 1 second ≤
      options.repeatLimit) (offset offset' : Nat) :
    convert options [.group none (shiftAll offset first), .group none (shiftAll offset' second)] =
      convert options first ++ convert options second := by
  -- The clones of the first group are made when the second one begins, and leave room for its own.
  have hmade : (unrollAll { options } 0 first).2 = 0 + clonesNeededAll options 1 first :=
    made_unrollAll (by omega)
  have hsecond : (unrollAll { options } (unrollAll { options } 0 first).2 second).1 =
      (unrollAll { options } 0 second).1 := unrollAll_eq_of_room htext (by omega)
  rw [convert_eq_unrollAll htext, convert_eq_unrollAll htext, convert_eq_unrollAll htext, ← hsecond]
  simp [unrollAll, unroll_group_none, unrollAll_shiftAll]

end Statement

/-- Two abbreviations without backslashes, either of which leaves nothing open, expand in groups
beside each other to the nodes of the first one, followed by those of the second one. -/
theorem expand_groups (htext : options.text = none) {a b : String}
    (ha : '\\' ∉ a.toList) (hb : '\\' ∉ b.toList)
    (hbare : Token.Progress.EndsBare a.toList) (hbare' : Token.Progress.EndsBare b.toList)
    {first second : List Statement} (hparse : Statement.parse options.jsx a = .ok first)
    (hparse' : Statement.parse options.jsx b = .ok second)
    (hfits : Statement.clonesNeededAll options 1 first +
      Statement.clonesNeededAll options 1 second ≤ options.repeatLimit) :
    ∃ nodes nodes', expand options a = .ok nodes ∧ expand options b = .ok nodes' ∧
      expand options ("(" ++ a ++ ")+(" ++ b ++ ")") = .ok (nodes ++ nodes') := by
  obtain ⟨offset, offset', hgroups⟩ := Statement.parse_groups ha hb hbare hbare' hparse hparse'
  refine ⟨convert options first, convert options second, ?_, ?_, ?_⟩
  · rw [expand, hparse]
    rfl
  · rw [expand, hparse']
    rfl
  · rw [expand, hgroups, Except.map, Statement.convert_groups htext hfits]

/-- A list with climbs behind it, and paragraphs with numbers. Neither do the climbs lead out of the
group, nor do the numbers go on from the list. Four clones are needed, and four may be made. -/
theorem expand_groups_climb :
    Token.Progress.EndsBare "ul>li*2^^".toList ∧ Token.Progress.EndsBare "p\x7b$\x7d*2".toList ∧
    ∃ first second nodes nodes', Statement.parse false "ul>li*2^^" = .ok first ∧
      Statement.parse false "p\x7b$\x7d*2" = .ok second ∧
      Statement.clonesNeededAll { maxRepeat := some 4 } 1 first = 2 ∧
      Statement.clonesNeededAll { maxRepeat := some 4 } 1 second = 2 ∧
      expand { maxRepeat := some 4 } "ul>li*2^^" = .ok nodes ∧
      expand { maxRepeat := some 4 } "p\x7b$\x7d*2" = .ok nodes' ∧
      expand { maxRepeat := some 4 } "(ul>li*2^^)+(p\x7b$\x7d*2)" = .ok (nodes ++ nodes') ∧
      nodes = [⟨some "ul", none, [], none, false,
        [⟨some "li", none, [], some ⟨2, 0, false⟩, false, []⟩,
          ⟨some "li", none, [], some ⟨2, 1, false⟩, false, []⟩]⟩] ∧
      nodes' = [⟨some "p", some [.text "1"], [], some ⟨2, 0, false⟩, false, []⟩,
        ⟨some "p", some [.text "2"], [], some ⟨2, 1, false⟩, false, []⟩] := by
  have hlist : "ul>li*2^^".toList = ['u', 'l', '>', 'l', 'i', '*', '2', '^', '^'] := rfl
  have htext : "p\x7b$\x7d*2".toList = ['p', '\x7b', '$', '\x7d', '*', '2'] := rfl
  have hlistbare : Token.Progress.EndsBare "ul>li*2^^".toList := by
    rw [hlist]
    exact ⟨_, _, .cons (.intro rfl) (.cons (.intro rfl) (.cons (.intro rfl) (.cons (.intro rfl)
      (.cons (.intro rfl) (.cons (.intro rfl) (.nil _)))))), rfl, rfl⟩
  have htextbare : Token.Progress.EndsBare "p\x7b$\x7d*2".toList := by
    rw [htext]
    exact ⟨_, _, .cons (.intro rfl) (.cons (.intro rfl) (.cons (.intro rfl) (.cons (.intro rfl)
      (.cons (.intro rfl) (.nil _))))), rfl, rfl⟩
  have hneeds {source : String} {needed : Nat}
      (h : (Statement.parse false source).map
        (Statement.clonesNeededAll { maxRepeat := some 4 } 1) = .ok needed) :
      ∃ statements, Statement.parse false source = .ok statements ∧
        Statement.clonesNeededAll { maxRepeat := some 4 } 1 statements = needed := by
    cases hparse : Statement.parse false source with
    | error error =>
      rw [hparse] at h
      cases h
    | ok statements =>
      rw [hparse] at h
      exact ⟨statements, rfl, Except.ok.inj h⟩
  obtain ⟨first, hparse, hfirst⟩ := @hneeds "ul>li*2^^" 2 (by decide +kernel)
  obtain ⟨second, hparse', hsecond⟩ := @hneeds "p\x7b$\x7d*2" 2 (by decide +kernel)
  have hfits : Statement.clonesNeededAll { maxRepeat := some 4 } 1 first +
      Statement.clonesNeededAll { maxRepeat := some 4 } 1 second ≤
        Options.repeatLimit { maxRepeat := some 4 } := by
    rw [hfirst, hsecond]
    decide
  obtain ⟨nodes, nodes', hnodes, hnodes', hboth⟩ := expand_groups rfl (by decide) (by decide)
    hlistbare htextbare hparse hparse' hfits
  exact ⟨hlistbare, htextbare, first, second, nodes, nodes', hparse, hparse', hfirst, hsecond,
    hnodes, hnodes', hboth, Except.ok.inj (hnodes.symm.trans (by decide +kernel)),
    Except.ok.inj (hnodes'.symm.trans (by decide +kernel))⟩

end Shorthand
