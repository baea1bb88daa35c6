import Shorthand.Proofs.Statement.Locality.Elements
import Shorthand.Proofs.Statement.Reading

/-!
# Tokens in another place

The readers of values, attributes, elements and statements look at the kinds of tokens and at
nothing else. What they read of tokens that stand in another place of a source is what they read of
the tokens before, with the tokens in it moved along.

## Main definitions

* `Token.shift`, `Element.shift`, `Item.shift`, `Statement.shift`: a token, an element, an item and
  a statement moved by a number of bytes.

## Main results

* `readElement?_shift`: an element is read of tokens that have been moved as it is before;
* `Reads.shift`: so are the items of a level;
* `Item.outline_shift`, `ofOutline_shift`: the statements that moved items denote are those that the
  items denote, moved.
-/

namespace Shorthand

/-- The token, so many bytes further back in a source. -/
def Token.shift (offset : Nat) (token : Token) : Token :=
  { token with start := token.start + offset, stop := token.stop + offset }

/-- The tokens, so many bytes further back in a source. -/
abbrev Token.shiftAll (offset : Nat) (tokens : List Token) : List Token :=
  tokens.map (Token.shift offset)

@[simp]
theorem Token.shift_kind (offset : Nat) (token : Token) : (token.shift offset).kind = token.kind :=
  rfl

/-- Lexemes that are placed further back are the tokens that they are, moved. -/
theorem Token.place_add (start offset : Nat) (lexemes : List Lexeme) :
    place (start + offset) lexemes = shiftAll offset (place start lexemes) := by
  induction lexemes generalizing start with
  | nil => rfl
  | cons lexeme lexemes ih =>
    rw [place, place, shiftAll, List.map_cons, Token.shift, Nat.add_right_comm, ih]

namespace Statement

open Token (shiftAll)

variable {offset : Nat} {brackets jsx present : Bool} {tokens value name rest : List Token}
  {token : Token} {element head : Element}

/-! ## Values -/

theorem readThroughQuote?_shift {mark : QuoteMark}
    (h : readThroughQuote? mark tokens = some (value, rest)) :
    readThroughQuote? mark (shiftAll offset tokens) =
      some (shiftAll offset value, shiftAll offset rest) := by
  induction tokens generalizing value with
  | nil => cases h
  | cons token tokens ih =>
    rw [readThroughQuote?] at h
    rw [shiftAll, List.map_cons, readThroughQuote?, Token.shift_kind]
    split at h
    next hmark =>
      cases h
      rw [if_pos hmark]
      rfl
    next hmark =>
      simp only [Option.map_eq_some_iff, Prod.exists, Prod.mk.injEq] at h
      obtain ⟨inner, behind, h, rfl, rfl⟩ := h
      rw [if_neg hmark, ih h]
      rfl

theorem readQuoted?_shift {found : Option (List Token × List Token)}
    (h : readQuoted? tokens = .ok found) : readQuoted? (shiftAll offset tokens) =
      .ok (found.map (Prod.map (shiftAll offset) (shiftAll offset))) := by
  unfold readQuoted? at h
  split at h
  next => cases h; rfl
  next token tokens =>
    rw [shiftAll, List.map_cons, readQuoted?, Token.shift_kind]
    split at h
    next mark hmark =>
      split at h
      next hquote =>
        cases h
        rw [readThroughQuote?_shift hquote]
        rfl
      next => cases h
    next => cases h; rfl

theorem readUnquoted_shift (brackets : Bool) (depths : Depths) (tokens : List Token) :
    readUnquoted brackets depths (shiftAll offset tokens) =
      (shiftAll offset (readUnquoted brackets depths tokens).1,
        shiftAll offset (readUnquoted brackets depths tokens).2) := by
  induction tokens generalizing depths with
  | nil => rfl
  | cons token tokens ih =>
    rw [shiftAll, List.map_cons, readUnquoted, readUnquoted, Token.shift_kind]
    split
    next depths' => rw [ih]; rfl
    next => rfl

theorem readUnquoted?_shift (brackets : Bool) (tokens : List Token) :
    readUnquoted? brackets (shiftAll offset tokens) =
      (readUnquoted? brackets tokens).map (Prod.map (shiftAll offset) (shiftAll offset)) := by
  unfold readUnquoted?
  rw [readUnquoted_shift]
  dsimp only
  rw [List.isEmpty_map]
  split
  next => rfl
  next => rfl

theorem readValue?_shift {found : Option (List Token × List Token)}
    (h : readValue? tokens = .ok found) : readValue? (shiftAll offset tokens) =
      .ok (found.map (Prod.map (shiftAll offset) (shiftAll offset))) := by
  unfold readValue? at h ⊢
  split at h
  next => cases h
  next hquoted =>
    cases h
    rw [readQuoted?_shift hquoted]
    rfl
  next hquoted =>
    cases h
    rw [readQuoted?_shift hquoted, readUnquoted?_shift]
    rfl

theorem readThroughBrace_shift (depth : Nat) (tokens : List Token) :
    readThroughBrace depth (shiftAll offset tokens) =
      (shiftAll offset (readThroughBrace depth tokens).1,
        shiftAll offset (readThroughBrace depth tokens).2) := by
  fun_induction readThroughBrace depth tokens with
  | case1 => rfl
  | case2 token tokens hkind => simp [readThroughBrace, hkind]
  | case3 token tokens depth hkind body more hread ih =>
    rw [hread] at ih
    simp [readThroughBrace, hkind, ih]
  | case4 depth token tokens hkind body more hread ih =>
    rw [hread] at ih
    simp [readThroughBrace, hkind, ih]
  | case5 token tokens depth body more hread hlast hcloses hopens ih =>
    rw [hread] at ih
    rw [shiftAll, List.map_cons, readThroughBrace.eq_def]
    dsimp only
    rw [Token.shift_kind]
    -- The token is no brace, which only the last equation of the reader is about.
    split
    next hkind => exact (hlast hkind rfl).elim
    next hkind => exact (hcloses _ hkind rfl).elim
    next hkind => exact (hopens hkind).elim
    next => rw [ih]; rfl

theorem dropFinal_shift (kind : Token.Kind) (tokens : List Token) :
    dropFinal kind (shiftAll offset tokens) = shiftAll offset (dropFinal kind tokens) := by
  have hlast : (shiftAll offset tokens).getLast?.any (·.kind == kind) =
      tokens.getLast?.any (·.kind == kind) := by
    rw [List.getLast?_map, Option.any_map]
    rfl
  unfold dropFinal
  rw [hlast]
  split
  next => rw [← List.map_dropLast]
  next => rfl

theorem readText?_shift (offset : Nat) (tokens : List Token) :
    readText? (shiftAll offset tokens) =
      (readText? tokens).map (Prod.map (shiftAll offset) (shiftAll offset)) := by
  unfold readText?
  split
  next start stop more heq =>
    cases tokens with
    | nil => cases heq
    | cons token tokens =>
      obtain ⟨hkind, rfl⟩ := List.cons_eq_cons.1 heq
      obtain ⟨kind, start, stop⟩ := token
      obtain rfl : kind = .bracket .expression true := congrArg Token.kind hkind
      dsimp only
      rw [readThroughBrace_shift, dropFinal_shift]
      rfl
  next hother =>
    split
    next start stop more => exact (hother _ _ _ rfl).elim
    next => rfl

/-! ## Attributes -/

/-- The attribute with its tokens moved. -/
def Attribute.shift (offset : Nat) (attr : Attribute) : Attribute :=
  { attr with name := attr.name.map (shiftAll offset), value := attr.value.map (shiftAll offset) }

theorem readAssigned?_shift {value : Option (List Token)}
    (h : readAssigned? tokens = .ok (value, rest)) : readAssigned? (shiftAll offset tokens) =
      .ok (value.map (shiftAll offset), shiftAll offset rest) := by
  unfold readAssigned? at h
  split at h
  next start stop tokens =>
    rw [shiftAll, List.map_cons]
    show readAssigned? (⟨.operator .equal, _, _⟩ :: _) = _
    rw [readAssigned?]
    split at h
    next => cases h
    next hvalue =>
      cases h
      rw [readValue?_shift hvalue]
      rfl
    next hvalue =>
      cases h
      rw [readValue?_shift hvalue]
      rfl
  next hother =>
    cases h
    apply readAssigned?_of_ne
    intro token hmem
    rw [List.head?_map, Option.mem_def, Option.map_eq_some_iff] at hmem
    obtain ⟨token, hmem, rfl⟩ := hmem
    exact forall_head_kind_ne hother token hmem

theorem readAttribute?_shift {found : Option (Attribute × List Token)}
    (h : readAttribute? tokens = .ok found) : readAttribute? (shiftAll offset tokens) =
      .ok (found.map (Prod.map (Attribute.shift offset) (shiftAll offset))) := by
  unfold readAttribute? at h ⊢
  split at h
  next => cases h
  next hquoted =>
    cases h
    rw [readQuoted?_shift hquoted]
    rfl
  next hquoted =>
    rw [readQuoted?_shift hquoted, readUnquoted?_shift]
    dsimp only [Option.map_none]
    split at h
    next hname =>
      cases h
      rw [hname]
      rfl
    next name behind hname =>
      obtain ⟨⟨value, rest⟩, hassigned, heq⟩ := Except.map_eq_ok_iff.1 h
      cases heq
      rw [hname]
      dsimp only [Option.map_some, Prod.map]
      rw [readAssigned?_shift hassigned]
      rfl

theorem readAttributes_shift {attributes : List Attribute}
    (h : readAttributes tokens = .ok (attributes, rest)) : readAttributes (shiftAll offset tokens) =
      .ok (attributes.map (Attribute.shift offset), shiftAll offset rest) := by
  fun_induction readAttributes tokens generalizing attributes rest with
  | case1 => cases h; rw [shiftAll, List.map_nil, readAttributes]; rfl
  | case2 => cases h
  | case3 token tokens attr next hread hlt ih =>
    obtain ⟨result, hnext, heq⟩ := Except.map_eq_ok_iff.1 h
    cases heq
    rw [readAttributes_of_readAttribute? (readAttribute?_shift hread), ih hnext]
    rfl
  | case4 token tokens hread hkind =>
    cases h
    exact readAttributes_closing hkind
  | case5 token tokens hread text hkind ih =>
    have hblank : (token.shift offset).kind = .blank text := hkind
    rw [shiftAll, List.map_cons, readAttributes_blank hblank]
    exact ih h
  | case6 => cases h
  | case7 => cases h

theorem readShort_shift (jsx : Bool) (name : String) (mark : Token) (tokens : List Token) :
    readShort jsx name (mark.shift offset) (shiftAll offset tokens) =
      Prod.map (Attribute.shift offset) (shiftAll offset) (readShort jsx name mark tokens) := by
  have htext : (if jsx then readText? (shiftAll offset tokens) else none) =
      (if jsx then readText? tokens else none).map
        (Prod.map (shiftAll offset) (shiftAll offset)) := by
    cases jsx with
    | false => rfl
    | true => exact readText?_shift offset tokens
  unfold readShort
  dsimp only
  rw [htext, readUnquoted?_shift]
  cases (if jsx then readText? tokens else none) with
  | some found => rfl
  | none =>
    cases readUnquoted? false tokens with
    | some found => rfl
    | none => rfl

/-! ## Elements -/

/-- The element with its tokens moved. -/
def Element.shift (offset : Nat) (head : Element) : Element :=
  { head with
    name := head.name.map (shiftAll offset)
    attributes := head.attributes.map (Attribute.shift offset)
    value := head.value.map (shiftAll offset) }

/-- The part with its tokens moved. -/
def Part.shift (offset : Nat) : Part → Part
  | .repeater written => .repeater written
  | .text inner => .text (shiftAll offset inner)
  | .attributes all => .attributes (all.map (Attribute.shift offset))
  | .close => .close

theorem readDotted_shift (tokens : List Token) :
    readDotted (shiftAll offset tokens) =
      (shiftAll offset (readDotted tokens).1, shiftAll offset (readDotted tokens).2) := by
  fun_induction readDotted tokens with
  | case1 dot part tokens hpath path rest hread ih =>
    rw [hread] at ih
    have hpath' : (dot.shift offset).kind = .operator .className ∧
        isCapitalized (part.shift offset) = true := hpath
    simp only [shiftAll, List.map_cons, readDotted]
    rw [if_pos hpath', ih]
  | case2 dot part tokens hpath =>
    have hpath' : ¬((dot.shift offset).kind = .operator .className ∧
        isCapitalized (part.shift offset) = true) := hpath
    simp only [shiftAll, List.map_cons, readDotted]
    rw [if_neg hpath']
    rfl
  | case3 tokens hshort =>
    rcases tokens with _ | ⟨dot, _ | ⟨part, tokens⟩⟩
    · rfl
    · rfl
    · exact (hshort dot part tokens rfl).elim

theorem readPath_shift (tokens : List Token) :
    readPath (shiftAll offset tokens) =
      (shiftAll offset (readPath tokens).1, shiftAll offset (readPath tokens).2) := by
  cases tokens with
  | nil => rfl
  | cons token tokens =>
    have hcapital : isCapitalized (token.shift offset) = isCapitalized token := rfl
    rw [shiftAll, List.map_cons, readPath, readPath, hcapital]
    split
    next => rw [readDotted_shift]; rfl
    next => rfl

theorem readName_shift (jsx : Bool) (tokens : List Token) :
    readName jsx (shiftAll offset tokens) =
      (shiftAll offset (readName jsx tokens).1, shiftAll offset (readName jsx tokens).2) := by
  have hpart : isNamePart ∘ Token.shift offset = isNamePart := rfl
  cases jsx with
  | false => simp [readName, List.takeWhile_map, List.dropWhile_map, hpart]
  | true => simp [readName, readPath_shift, List.takeWhile_map, List.dropWhile_map, hpart]

theorem readRepeater_shift (offset : Nat) (tokens : List Token) :
    readRepeater (shiftAll offset tokens) =
      ((readRepeater tokens).1, shiftAll offset (readRepeater tokens).2) := by
  cases tokens with
  | nil => rfl
  | cons token tokens =>
    obtain ⟨kind, start, stop⟩ := token
    cases kind <;> rfl

theorem Element.add_shift (element : Element) (part : Part) :
    (element.shift offset).add (part.shift offset) = (element.add part).shift offset := by
  cases part with
  | attributes attributes => simp [Element.add, Element.shift, Part.shift]
  | _ => rfl

theorem Element.close_shift (element : Element) (tokens : List Token) :
    (element.shift offset).close (shiftAll offset tokens) =
      Prod.map (Element.shift offset) (shiftAll offset) (element.close tokens) := by
  have hclose : (element.shift offset).add .close = (element.add .close).shift offset :=
    element.add_shift .close
  have hrepeater : ((element.add .close).shift offset).repeater = (element.add .close).repeater :=
    rfl
  unfold Element.close
  dsimp only
  rw [hclose, hrepeater, readRepeater_shift]
  split
  next => rfl
  next => rfl

theorem readPart?_shift (offset : Nat) {found : Option (Part × List Token)}
    (h : readPart? jsx present element tokens = .ok found) :
    readPart? jsx present (element.shift offset) (shiftAll offset tokens) =
      .ok (found.map (Prod.map (Part.shift offset) (shiftAll offset))) := by
  have hvalue : (element.shift offset).value.isNone = element.value.isNone := Option.isNone_map
  have hrepeater : (element.shift offset).repeater = element.repeater := rfl
  unfold readPart? at h
  split at h
  next => cases h; rfl
  next token tokens =>
    rw [shiftAll, List.map_cons, readPart?, Token.shift_kind]
    dsimp only
    -- A part is told by the kind of a token and by what there is of the element, both unmoved.
    rw [hvalue, hrepeater]
    split at h
    next repeater hkind =>
      cases h
      split
      next => rfl
      next => rfl
    next hkind =>
      cases h
      split
      next =>
        have htext := readText?_shift offset (token :: tokens)
        rw [shiftAll, List.map_cons] at htext
        rw [htext]
        cases readText? (token :: tokens) with
        | none => rfl
        | some => rfl
      next => rfl
    next hkind =>
      cases h
      rw [readShort_shift]
      rfl
    next hkind =>
      cases h
      rw [readShort_shift]
      rfl
    next hkind =>
      obtain ⟨⟨attributes, rest⟩, hset, heq⟩ := Except.map_eq_ok_iff.1 h
      cases heq
      rw [readAttributes_shift hset]
      rfl
    next hkind =>
      split at h
      next hpresent =>
        cases h
        rw [if_pos hpresent]
        rfl
      next => cases h
    next => cases h; rfl

theorem readParts?_shift {found : Option (Element × List Token)}
    (h : readParts? jsx present element tokens = .ok found) :
    readParts? jsx present (element.shift offset) (shiftAll offset tokens) =
      .ok (found.map (Prod.map (Element.shift offset) (shiftAll offset))) := by
  fun_induction readParts? jsx present element tokens with
  | case1 => cases h
  | case2 present element tokens hpart =>
    cases h
    have hpart' := readPart?_shift offset hpart
    cases present with
    | true => exact readParts?_of_none hpart'
    | false => exact readParts?_eq_none_iff.2 ⟨rfl, hpart'⟩
  | case3 present element tokens next hpart =>
    cases h
    rw [readParts?_of_close (readPart?_shift offset hpart), Element.close_shift]
    rfl
  | case4 present element tokens part next hclose hpart _ ih =>
    have hclose' : part.shift offset ≠ .close := by
      cases part with
      | close => exact absurd rfl hclose
      | _ => simp [Part.shift]
    rw [readParts?_of_readPart? (readPart?_shift offset hpart) hclose', Element.add_shift]
    exact ih h

/-- An element is read of tokens that have been moved as it is before. -/
theorem readElement?_shift (h : readElement? jsx tokens = .ok (some (head, rest))) :
    readElement? jsx (shiftAll offset tokens) =
      .ok (some (head.shift offset, shiftAll offset rest)) := by
  unfold readElement? at h ⊢
  rw [readName_shift]
  dsimp only at h ⊢
  rw [List.isEmpty_map]
  split at h
  next hempty =>
    rw [if_pos hempty]
    exact readParts?_shift h
  next hempty =>
    rw [if_neg hempty]
    exact readParts?_shift h

/-! ## Statements -/

mutual

/-- The item with its tokens moved. -/
def Item.shift (offset : Nat) : Item → Item
  | .element head link => .element (head.shift offset) link
  | .group inside repeater link => .group (Item.shiftAll offset inside) repeater link

/-- The items with their tokens moved. -/
def Item.shiftAll (offset : Nat) : List Item → List Item
  | [] => []
  | item :: items => item.shift offset :: Item.shiftAll offset items

end

theorem Link.Follows.shift {link : Link} (h : link.Follows tokens rest) :
    link.Follows (Token.shiftAll offset tokens) (Token.shiftAll offset rest) := by
  -- What the kind of the first token decides is decided alike behind the move.
  have hhead {p : Token → Prop} {tokens : List Token}
      (hp : ∀ token, p token → p (token.shift offset)) (h : ∀ token ∈ tokens.head?, p token) :
      ∀ token ∈ (Token.shiftAll offset tokens).head?, p token := by
    intro moved hmem
    rw [List.head?_map, Option.mem_def, Option.map_eq_some_iff] at hmem
    obtain ⟨token, hmem, rfl⟩ := hmem
    exact hp token (h token hmem)
  cases h with
  | child hmark => exact .child hmark
  | sibling hmark => exact .sibling hmark
  | nothing hnone => exact .nothing (hhead (fun _ h => h) hnone)
  | @climb marks rest hne hmarks hrest =>
    have hclimb : Link.Follows (.climb (Token.shiftAll offset marks).length)
        (Token.shiftAll offset marks ++ Token.shiftAll offset rest) (Token.shiftAll offset rest) :=
      .climb (by simpa using hne) (by simpa using hmarks) (hhead (fun _ h => h) hrest)
    rwa [List.length_map, ← List.map_append] at hclimb

/-- The items of a level are read of tokens that have been moved as they are before. -/
theorem Reads.shift (offset : Nat) {items : List Item} (h : Reads jsx tokens items rest) :
    Reads jsx (Token.shiftAll offset tokens) (Item.shiftAll offset items)
      (Token.shiftAll offset rest) := by
  induction h with
  | nil tokens =>
    rw [Item.shiftAll]
    exact .nil _
  | element hhead hlink _ ih =>
    rw [Item.shiftAll, Item.shift]
    exact .element (readElement?_shift hhead) hlink.shift ih
  | @group _ _ _ repeated _ _ _ _ _ _ _ hopening _ hclosing hrepeater hlink _ ihinside ihmore =>
    have hrepeater' := readRepeater_shift offset repeated
    rw [hrepeater] at hrepeater'
    rw [Item.shiftAll, Item.shift]
    exact .group hopening ihinside hclosing hrepeater' hlink.shift ihmore

/-! ## Trees -/

mutual

/-- The statement with its tokens moved. -/
def shift (offset : Nat) : Statement → Statement
  | .element head children => .element (head.shift offset) (shiftAll offset children)
  | .group repeater children => .group repeater (shiftAll offset children)

/-- The statements with their tokens moved. -/
def shiftAll (offset : Nat) : List Statement → List Statement
  | [] => []
  | statement :: statements => shift offset statement :: shiftAll offset statements

end

theorem shiftAll_append (statements more : List Statement) :
    shiftAll offset (statements ++ more) = shiftAll offset statements ++ shiftAll offset more := by
  induction statements with
  | nil => rw [shiftAll, List.nil_append, List.nil_append]
  | cons statement statements ih =>
    rw [List.cons_append, shiftAll, shiftAll, ih, List.cons_append]

theorem adopt_shift (statement : Statement) (more : List Statement) :
    (statement.shift offset).adopt (shiftAll offset more) =
      (statement.adopt more).shift offset := by
  cases statement with
  | element head children => rw [shift, adopt, adopt, shift, shiftAll_append]
  | group repeater children => rw [shift, adopt, adopt, shift, shiftAll_append]

mutual

/-- The branch with the tokens of its statements moved. -/
def branchShift (offset : Nat) : Outline.Branch Statement → Outline.Branch Statement
  | .node statement below => .node (statement.shift offset) (branchesShift offset below)

/-- The branches with the tokens of their statements moved. -/
def branchesShift (offset : Nat) : List (Outline.Branch Statement) → List (Outline.Branch Statement)
  | [] => []
  | branch :: branches => branchShift offset branch :: branchesShift offset branches

end

theorem branchesShift_eq_map (branches : List (Outline.Branch Statement)) :
    branchesShift offset branches = branches.map (branchShift offset) := by
  induction branches with
  | nil => rw [branchesShift, List.map_nil]
  | cons branch branches ih => rw [branchesShift, ih, List.map_cons]

mutual

theorem ofBranch_shift : ∀ branch : Outline.Branch Statement,
    ofBranch (branchShift offset branch) = (ofBranch branch).shift offset
  | .node statement below => by
    rw [branchShift, ofBranch, ofBranch, ofBranches_shift below, adopt_shift]

theorem ofBranches_shift : ∀ branches : List (Outline.Branch Statement),
    ofBranches (branchesShift offset branches) = shiftAll offset (ofBranches branches)
  | [] => by rw [branchesShift, ofBranches, shiftAll]
  | branch :: branches => by
    rw [branchesShift, ofBranches, ofBranches, ofBranch_shift branch, ofBranches_shift branches,
      shiftAll]

end

/-- Moving the tokens of statements leaves the forest that their outline denotes. -/
theorem forest_shift (items : List (Nat × Statement)) :
    Outline.forest (items.map (Prod.map id (shift offset))) =
      branchesShift offset (Outline.forest items) := by
  have hgrow (items : List (Nat × Statement)) :
      (items.map (Prod.map id (shift offset))).foldr Outline.grow [] =
        (items.foldr Outline.grow []).map (Prod.map id (branchShift offset)) := by
    induction items with
    | nil => rfl
    | cons item items ih =>
      rw [List.map_cons, List.foldr_cons, List.foldr_cons, ih]
      -- How deep the branches stand says which of them lie below the statement.
      have hdeeper : (fun later : Nat × Outline.Branch Statement => decide (item.1 < later.1)) ∘
          Prod.map id (branchShift offset) = fun later => decide (item.1 < later.1) := rfl
      simp [Outline.grow, List.takeWhile_map, List.dropWhile_map, hdeeper, branchShift,
        branchesShift_eq_map]
  rw [Outline.forest, Outline.forest, hgrow, branchesShift_eq_map, List.map_map, List.map_map]
  rfl

theorem ofOutline_shift (items : List (Nat × Statement)) :
    ofOutline (items.map (Prod.map id (shift offset))) = shiftAll offset (ofOutline items) := by
  rw [ofOutline, forest_shift, ofBranches_shift, ofOutline]

theorem Item.link_shift (item : Item) : (item.shift offset).link = item.link := by
  cases item with
  | element head link => rw [Item.shift]; rfl
  | group inside repeater link => rw [Item.shift]; rfl

mutual

theorem Item.statement_shift : ∀ item : Item,
    (item.shift offset).statement = item.statement.shift offset
  | .element head link => by
    rw [Item.shift, Item.statement, Item.statement, Statement.shift, Statement.shiftAll]
  | .group inside repeater link => by
    rw [Item.shift, Item.statement, Item.statement, Statement.shift, Item.outline_shift 0 inside,
      ofOutline_shift]

/-- Moving the tokens of items moves those of the statements in their outline. -/
theorem Item.outline_shift (depth : Nat) : ∀ items : List Item,
    Item.outline depth (Item.shiftAll offset items) =
      (Item.outline depth items).map (Prod.map id (Statement.shift offset))
  | [] => by
    rw [Item.shiftAll, Item.outline]
    rfl
  | item :: items => by
    rw [Item.shiftAll, Item.outline, Item.outline, Item.link_shift, Item.statement_shift item,
      Item.outline_shift _ items]
    rfl

end

end Statement

end Shorthand
