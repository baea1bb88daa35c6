import Mathlib.Data.List.Basic
import Shorthand.Proofs.Statement.OpenStatements

/-!
# Reading statements

Tokens are statements if and only if they spell the items of a level, and the statements are the
tree that these items denote.

## Main results

* `readLink_eq_iff`: the link that is read is the one whose operators follow;
* `Reads.readAll_eq`: reading on over the items of a level adds them to it;
* `exists_reads_of_readAll`: whatever is read consists of items;
* `ofTokens_eq_ok_iff`: the statements of tokens are the tree that is computed from their items;
* `ofTokens_eq_ok_iff_denotes`: the statements of tokens are the tree that their items denote.
-/

namespace Shorthand.Statement

variable {jsx : Bool} {level : Level} {outer : List Level} {tokens : List Token}

/-! ## Links -/

/-- The link that is read is one whose operators follow. -/
theorem readLink_follows (tokens : List Token) :
    (readLink tokens).1.Follows tokens (readLink tokens).2 := by
  unfold readLink
  split
  next => exact .nothing (by simp)
  next token tokens =>
    split
    next hchild => exact .child hchild
    next hchild =>
      split
      next hsibling => exact .sibling hsibling
      next hsibling =>
        split
        next hclimb =>
          have hmarks : ∀ mark ∈ token :: tokens.takeWhile (·.kind == .operator .climb),
              mark.kind = .operator .climb := by
            intro mark hmem
            rcases List.mem_cons.1 hmem with rfl | hmem
            · exact hclimb
            · simpa using List.mem_takeWhile_imp hmem
          have hrest : ∀ token ∈ (tokens.dropWhile (·.kind == .operator .climb)).head?,
              token.kind ≠ .operator .climb := by
            intro token hmem
            have := List.head?_dropWhile_not (·.kind == .operator .climb) tokens
            rw [Option.mem_def.1 hmem] at this
            simpa using this
          have hfollows := Link.Follows.climb (List.cons_ne_nil _ _) hmarks hrest
          rwa [List.cons_append, List.takeWhile_append_dropWhile] at hfollows
        next hclimb => exact .nothing (by simpa using ⟨hchild, hsibling, hclimb⟩)

/-- The link that is read is the one whose operators follow. -/
theorem readLink_eq_iff {link : Link} {rest : List Token} :
    readLink tokens = (link, rest) ↔ link.Follows tokens rest := by
  constructor
  · intro h
    have hfollows := readLink_follows tokens
    rwa [h] at hfollows
  · intro h
    cases h with
    | child hmark => simp [readLink, hmark]
    | sibling hmark => simp [readLink, hmark]
    | nothing hnone =>
      cases tokens with
      | nil => rfl
      | cons token tokens =>
        obtain ⟨hchild, hsibling, hclimb⟩ := hnone token rfl
        simp [readLink, hchild, hsibling, hclimb]
    -- All marks in a row belong to the link, so they are those that are taken off the tokens.
    | @climb marks rest hne hmarks hrest =>
      cases marks with
      | nil => exact absurd rfl hne
      | cons mark marks =>
        obtain ⟨hmark, hmarks⟩ := List.forall_mem_cons.1 hmarks
        have hall : ∀ mark ∈ marks, (mark.kind == .operator .climb) = true := by simpa using hmarks
        have hstop : rest.takeWhile (·.kind == .operator .climb) = [] ∧
            rest.dropWhile (·.kind == .operator .climb) = rest := by
          cases rest with
          | nil => simp
          | cons token rest => simp [hrest token rfl]
        simp [readLink, hmark, List.takeWhile_append_of_pos hall,
          List.dropWhile_append_of_pos hall, hstop]

/-! ## One step of reading -/

/-- No element begins with a round bracket. -/
theorem readElement?_group {token : Token} {opening : Bool}
    (h : token.kind = .bracket .group opening) :
    readElement? jsx (token :: tokens) = .ok none := by
  -- Without a name, an element begins with a part, and a round bracket begins none.
  have hname : readName jsx (token :: tokens) = ([], token :: tokens) := by
    cases jsx <;> simp [readName, readPath, isCapitalized, isNamePart, h]
  have hpart : readPart? jsx false {} (token :: tokens) = .ok none := by
    simp [readPart?, h]
  rw [readElement?, hname]
  simp only [List.isEmpty_nil, ↓reduceIte]
  rw [readParts?]
  split <;> simp_all

/-- An element adds an item to the level. -/
theorem readAll_of_readElement? {head : Element} {rest : List Token}
    (h : readElement? jsx tokens = .ok (some (head, rest))) :
    readAll jsx level outer tokens =
      readAll jsx (level.add (.element head []) (readLink rest).1) outer (readLink rest).2 := by
  cases tokens with
  | nil => simpa using length_lt_of_readElement? h
  | cons token tokens =>
    conv_lhs => rw [readAll.eq_def]
    dsimp only
    split
    next hfault => simp [h] at hfault
    next hread =>
      rw [h, Except.ok.injEq, Option.some.injEq, Prod.mk.injEq] at hread
      rw [hread.1, hread.2]
    next hnone => simp [h] at hnone

/-- An opening bracket begins a new level inside the one that is read. -/
theorem readAll_opening {token : Token} (h : token.kind = .bracket .group true) :
    readAll jsx level outer (token :: tokens) = readAll jsx {} (level :: outer) tokens := by
  conv_lhs => rw [readAll.eq_def]
  dsimp only
  split
  next hfault => simp [readElement?_group h] at hfault
  next hread => simp [readElement?_group h] at hread
  next => rw [if_pos h]

/-- A closing bracket ends a level, which becomes a group of the level around it. -/
theorem readAll_closing {token : Token} {enclosing : Level}
    (h : token.kind = .bracket .group false) :
    readAll jsx level (enclosing :: outer) (token :: tokens) =
      readAll jsx (enclosing.add (.group (readRepeater tokens).1 level.statements)
          (readLink (readRepeater tokens).2).1) outer (readLink (readRepeater tokens).2).2 := by
  conv_lhs => rw [readAll.eq_def]
  dsimp only
  split
  next hfault => simp [readElement?_group h] at hfault
  next hread => simp [readElement?_group h] at hread
  next => simp [h]

/-! ## Items one after the other -/

/-- Reading on over the items of a level adds them to what has been read of it. -/
theorem Reads.readAll_eq {items : List Item} {rest : List Token} (h : Reads jsx tokens items rest)
    (level : Level) (outer : List Level) :
    readAll jsx level outer tokens = readAll jsx (level.append items) outer rest := by
  induction h generalizing level outer with
  | nil => rfl
  | element hhead hlink hmore ih =>
    rw [readAll_of_readElement? hhead, readLink_eq_iff.2 hlink, ih, Level.append_cons,
      Item.statement]
    rfl
  | group hopening hinside hclosing hrepeater hlink hmore ihinside ihmore =>
    rw [readAll_opening hopening, ihinside, readAll_closing hclosing, hrepeater,
      readLink_eq_iff.2 hlink, ihmore, Level.append_cons, Item.statement, Level.statements_append]
    rfl

/-- What follows items is no longer than their tokens. -/
theorem Reads.length_le {items : List Item} {rest : List Token} (h : Reads jsx tokens items rest) :
    rest.length ≤ tokens.length := by
  induction h with
  | nil => exact Nat.le_refl _
  | @element _ behind rest _ _ _ _ hhead hlink _ ih =>
    have hlt := length_lt_of_readElement? hhead
    have hle := length_readLink_le behind
    rw [readLink_eq_iff.2 hlink] at hle
    dsimp only at hle
    omega
  | @group _ _ _ repeated behind rest _ _ _ _ _ _ _ _ hrepeater hlink _ ihinside ihmore =>
    have hle := length_readLink_le behind
    rw [readLink_eq_iff.2 hlink] at hle
    have hrepeated := length_readRepeater_le repeated
    rw [hrepeater] at hrepeated
    simp only [List.length_cons] at ihinside hle hrepeated ⊢
    omega

/-! ## Everything read consists of items -/

/-- The reading of a level ends before `tokens`: the abbreviation ends there, or the level is a
group that is closed there and the reading of the level around it goes on. -/
def Ends (jsx : Bool) (level : Level) (statements : List Statement) (tokens : List Token) :
    List Level → Prop
  | [] => tokens = [] ∧ statements = level.statements
  | enclosing :: outer => ∃ closing behind, tokens = closing :: behind ∧
      closing.kind = .bracket .group false ∧
      readAll jsx (enclosing.add (.group (readRepeater behind).1 level.statements)
        (readLink (readRepeater behind).2).1) outer (readLink (readRepeater behind).2).2 =
          .ok statements

/-- If the reading of tokens succeeds, they begin with items of the level, behind which it ends. -/
theorem exists_reads_of_readAll {statements : List Statement}
    (h : readAll jsx level outer tokens = .ok statements) :
    ∃ items rest, Reads jsx tokens items rest ∧
      Ends jsx (level.append items) statements rest outer := by
  -- A group takes two readings of shorter lists of tokens: of its inside, and of what follows it.
  induction hlength : tokens.length using Nat.strong_induction_on generalizing level outer tokens
    with
  | _ length ih =>
    subst hlength
    rw [readAll.eq_def] at h
    split at h
    next =>
      split at h
      next =>
        cases h
        exact ⟨[], [], .nil _, rfl, rfl⟩
      next => cases h
    next token tokens =>
      split at h
      next => cases h
      -- An element, and the items behind its link.
      next head rest hhead =>
        have hlt := Nat.lt_of_le_of_lt (length_readLink_le rest) (length_lt_of_readElement? hhead)
        obtain ⟨items, last, hreads, hends⟩ := ih _ hlt h rfl
        exact ⟨.element head (readLink rest).1 :: items, last,
          .element hhead (readLink_follows rest) hreads, by
            rw [Level.append_cons, Item.statement]
            exact hends⟩
      next hnone =>
        split at h
        -- A group: its inside is read up to the bracket where the level of the group ends.
        next hopening =>
          obtain ⟨inside, rest, hinside, closing, behind, rfl, hclosing, hmore⟩ :=
            ih _ (Nat.lt_succ_self _) h rfl
          have hlt : (readLink (readRepeater behind).2).2.length < (token :: tokens).length := by
            have := hinside.length_le
            have := length_readRepeater_le behind
            have := length_readLink_le (readRepeater behind).2
            simp only [List.length_cons] at *
            omega
          obtain ⟨items, last, hreads, hends⟩ := ih _ hlt hmore rfl
          refine ⟨.group inside (readRepeater behind).1
              (readLink (readRepeater behind).2).1 :: items, last,
            .group hopening hinside hclosing rfl (readLink_follows _) hreads, ?_⟩
          rw [Level.append_cons, Item.statement, ← Level.statements_append]
          exact hends
        next =>
          split at h
          -- The bracket that closes the level, if there is one around it.
          next hclosing =>
            split at h
            next => cases h
            next enclosing outer =>
              exact ⟨[], _, .nil _, token, tokens, rfl, hclosing, h⟩
          next =>
            split at h
            next => cases h
            next => cases h

/-- The tree of the items that tokens spell is what they are read as. -/
theorem Reads.ofTokens_eq {items : List Item} (h : Reads jsx tokens items []) :
    ofTokens jsx tokens = .ok (ofOutline (Item.outline 0 items)) := by
  rw [ofTokens, h.readAll_eq, readAll, ← Level.statements_append]
  rfl

/-- Tokens are read as statements if and only if they spell items of which these are the tree. -/
theorem ofTokens_eq_ok_iff {statements : List Statement} :
    ofTokens jsx tokens = .ok statements ↔
      ∃ items, Reads jsx tokens items [] ∧ statements = ofOutline (Item.outline 0 items) := by
  constructor
  · intro h
    cases hread : readAll jsx {} [] tokens with
    | error => simp [ofTokens, hread, Except.mapError] at h
    | ok read =>
      simp only [ofTokens, hread, Except.mapError, Except.ok.injEq] at h
      obtain ⟨items, rest, hreads, rfl, hstatements⟩ := exists_reads_of_readAll hread
      exact ⟨items, hreads, by rw [← h, hstatements, Level.statements_append]⟩
  · rintro ⟨items, hreads, rfl⟩
    exact hreads.ofTokens_eq

/-- Tokens are read as statements if and only if they spell items that denote these: on each level,
the abbreviation or the inside of a group, the statements stand in the order in which they are
written, and as deep as the operators between them say. -/
theorem ofTokens_eq_ok_iff_denotes (jsx : Bool) (tokens : List Token)
    (statements : List Statement) :
    ofTokens jsx tokens = .ok statements ↔
      ∃ items, Reads jsx tokens items [] ∧ Denotes items statements := by
  rw [ofTokens_eq_ok_iff]
  exact exists_congr fun items => and_congr_right fun _ => denotes_iff.symm

/-- What is chained below a group comes behind what stands between its brackets, and two climbs lead
from there to the level below the first element. -/
theorem ofTokens_eq_ok_iff_denotes_climb : ∃ items,
    Reads false [⟨.literal "a", 0, 1⟩, ⟨.operator .child, 1, 2⟩, ⟨.literal "b", 2, 3⟩,
      ⟨.operator .child, 3, 4⟩, ⟨.bracket .group true, 4, 5⟩, ⟨.literal "c", 5, 6⟩,
      ⟨.operator .child, 6, 7⟩, ⟨.literal "d", 7, 8⟩, ⟨.bracket .group false, 8, 9⟩,
      ⟨.repeater ⟨2, 0, false⟩, 9, 11⟩, ⟨.operator .child, 11, 12⟩, ⟨.literal "e", 12, 13⟩,
      ⟨.operator .sibling, 13, 14⟩, ⟨.literal "f", 14, 15⟩, ⟨.operator .climb, 15, 16⟩,
      ⟨.operator .climb, 16, 17⟩, ⟨.literal "g", 17, 18⟩] items [] ∧
    Denotes items [.element { name := some [⟨.literal "a", 0, 1⟩] } [
      .element { name := some [⟨.literal "b", 2, 3⟩] } [
        .group (some ⟨2, 0, false⟩) [
          .element { name := some [⟨.literal "c", 5, 6⟩] } [
            .element { name := some [⟨.literal "d", 7, 8⟩] } []],
          .element { name := some [⟨.literal "e", 12, 13⟩] } [],
          .element { name := some [⟨.literal "f", 14, 15⟩] } []]],
      .element { name := some [⟨.literal "g", 17, 18⟩] } []]] :=
  (ofTokens_eq_ok_iff_denotes false _ _).1 (by decide +kernel)

end Shorthand.Statement
