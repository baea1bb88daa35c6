import Shorthand.Proofs.Statement.Locality.Elements
import Shorthand.Proofs.Statement.Nesting

/-!
# Reading up to the end of a group

A text or an attribute set that is not closed ends with the tokens, so what it is read as depends on
where they end. If the tokens leave neither open, they are read before the end of a group as they
are by themselves.

## Main definitions

* `Settled`: tokens behind which no text and no attribute set is open.

## Main results

* `readElement?_append_closing`: an element is read in the same way if a group is closed behind the
  tokens;
* `Reads.append_closing`: so are the items of a level.
-/

namespace Shorthand.Statement

open Token (Chained endOf chained_append)

variable {contexts : Nat → Context} {start : Nat} {brackets jsx present : Bool} {element : Element}
  {tokens taken value rest : List Token} {closing token : Token}

/-! ## Settled tokens -/

/-- The tokens stand one behind the other, and behind the last one no attribute set and no text is
open. -/
def Settled (tokens : List Token) : Prop :=
  ∃ contexts start, Chained contexts start tokens ∧
    (contexts (endOf start tokens)).sets = 0 ∧ (contexts (endOf start tokens)).braces = 0

/-- What settled tokens end with is settled. -/
theorem Settled.of_suffix (h : Settled tokens) (hsuffix : rest <:+ tokens) : Settled rest := by
  obtain ⟨taken, rfl⟩ := hsuffix
  obtain ⟨contexts, start, hchain, hend⟩ := h
  rw [Token.endOf_append] at hend
  exact ⟨contexts, _, (chained_append.1 hchain).2, hend⟩

section Continues

variable {α : Type} {reader next : List Token → α}

theorem Continues.suffix (h : Continues brackets reader tokens next rest) : rest <:+ tokens := by
  obtain ⟨taken, rfl, -⟩ := h
  exact List.suffix_append taken rest

/-- What is read before further tokens does not depend on those behind them. -/
theorem Continues.append (h : Continues brackets reader tokens next rest) (hne : rest ≠ [])
    (behind : List Token) : reader (tokens ++ behind) = next (rest ++ behind) := by
  obtain ⟨taken, rfl, htaken⟩ := h
  cases rest with
  | nil => exact absurd rfl hne
  | cons token rest =>
    rw [List.append_assoc]
    exact htaken _ (.same token rest _)

end Continues

/-- What holds of the first of the tokens, and of the bracket behind them, holds of the first of
them all. -/
theorem forall_head_append {p : Token → Prop} (h : ∀ token ∈ tokens.head?, p token)
    (hclosing : p closing) (behind : List Token) :
    ∀ token ∈ (tokens ++ closing :: behind).head?, p token := by
  cases tokens with
  | nil => simpa using hclosing
  | cons token tokens => simpa using h

/-! ## Values and texts -/

/-- A value without brackets that the tokens end in ends before the end of a group. -/
theorem readUnquoted_append_closing (hclosing : closing.kind = .bracket .group false)
    {depths : Depths} (hdepth : depths .expression = 0)
    (hread : readUnquoted false depths tokens = (value, [])) (behind : List Token) :
    readUnquoted false depths (tokens ++ closing :: behind) = (value, closing :: behind) := by
  induction tokens generalizing value with
  | nil =>
    cases hread
    exact readUnquoted_of_none (by simp [hclosing, unquotedAfter?, hdepth])
  | cons token tokens ih =>
    cases hafter : unquotedAfter? false depths token.kind with
    | none =>
      rw [readUnquoted_of_none hafter] at hread
      cases hread
    | some after =>
      -- Brackets end the value, so none is ever open in it.
      obtain rfl : after = depths := by
        revert hafter
        cases token.kind <;> simp +contextual [unquotedAfter?, hdepth]
      rcases hinner : readUnquoted false after tokens with ⟨inner, last⟩
      rw [readUnquoted_of_some hafter, hinner] at hread
      cases hread
      rw [List.cons_append, readUnquoted_of_some hafter, ih hinner]

theorem readUnquoted?_append_closing (hclosing : closing.kind = .bracket .group false)
    (h : readUnquoted? false tokens = some (value, rest)) (behind : List Token) :
    readUnquoted? false (tokens ++ closing :: behind) =
      some (value, rest ++ closing :: behind) := by
  cases rest with
  | cons token rest => exact (continues_readUnquoted? h).append (List.cons_ne_nil _ _) _
  | nil =>
    rcases hread : readUnquoted false (fun _ => 0) tokens with ⟨inner, last⟩
    simp only [readUnquoted?, hread] at h ⊢
    split at h
    next => cases h
    next hne =>
      cases h
      rw [readUnquoted_append_closing hclosing rfl hread]
      exact if_neg hne

/-- A text that leaves no brace open ends with its closing brace. -/
theorem readThroughBrace_append_of_braces (hchain : Chained contexts start tokens)
    (hquote : (contexts start).quote = none) (hopen : (contexts start).braces ≠ 0)
    (hend : (contexts (endOf start tokens)).braces = 0)
    (hread : readThroughBrace 0 tokens = (value, [])) (behind : List Token) :
    readThroughBrace 0 (tokens ++ behind) = (value, behind) := by
  induction tokens generalizing start value with
  | nil => exact absurd hend hopen
  | cons token tokens ih =>
    obtain ⟨rfl, hemits, hchain⟩ := hchain
    rcases hemits.closes_or_keepsNesting hquote hopen with hclosing | hkeeps
    · have hlast (tokens : List Token) :
          readThroughBrace 0 (token :: tokens) = ([token], tokens) := by
        simp [readThroughBrace, hclosing]
      rw [hlast] at hread
      cases hread
      exact hlast behind
    -- Behind every other token the brace is still open.
    · have hstop := hemits.eq_of_keepsNesting hkeeps
      rcases hinner : readThroughBrace 0 tokens with ⟨inner, last⟩
      rw [readThroughBrace_of_keepsNesting hkeeps, hinner] at hread
      cases hread
      rw [List.cons_append, readThroughBrace_of_keepsNesting hkeeps,
        ih hchain (by rw [hstop]; exact hquote) (by rw [hstop]; dsimp only; omega) hend hinner]

theorem readText?_append (hsettled : Settled tokens) (h : readText? tokens = some (value, rest))
    (behind : List Token) : readText? (tokens ++ behind) = some (value, rest ++ behind) := by
  cases rest with
  | cons token rest => exact (continues_readText? h).append (List.cons_ne_nil _ _) behind
  | nil =>
    unfold readText? at h
    split at h
    next begin stop tokens =>
      obtain ⟨contexts, start, ⟨rfl, hemits, hchain⟩, -, hbraces⟩ := hsettled
      -- The brace that opens the text is open behind it, and no quoted value is.
      have hstop : contexts stop = _ := hemits.2.2
      rcases hread : readThroughBrace 0 tokens with ⟨inner, last⟩
      rw [hread] at h
      cases h
      rw [List.cons_append, readText?, readThroughBrace_append_of_braces hchain
        (by rw [hstop]; exact hemits.1) (by rw [hstop]; exact Nat.succ_ne_zero _) hbraces hread]
      rfl
    next => cases h

theorem readText?_append_eq_none (hclosing : closing.kind = .bracket .group false)
    (h : readText? tokens = none) (behind : List Token) :
    readText? (tokens ++ closing :: behind) = none := by
  rw [readText?_eq_none_iff] at h ⊢
  exact forall_head_append h (by simp [hclosing]) behind

/-! ## Attributes -/

/-- `tokens` lead to `rest`, behind no quoted value that is open and no set that has been closed.
The tokens may end there. -/
def KeepsSets (contexts : Nat → Context) (tokens rest : List Token) : Prop :=
  ∀ start, Chained contexts start tokens → (contexts start).quote = none →
    ∃ taken, tokens = taken ++ rest ∧ (contexts (endOf start taken)).quote = none ∧
      (contexts start).sets ≤ (contexts (endOf start taken)).sets

theorem KeepsSets.trans {behind : List Token} (h : KeepsSets contexts tokens behind)
    (hmore : KeepsSets contexts behind rest) : KeepsSets contexts tokens rest := by
  intro start hchain hquote
  obtain ⟨taken, rfl, hquote, hsets⟩ := h start hchain hquote
  obtain ⟨more, rfl, hquote, hsets'⟩ := hmore _ (chained_append.1 hchain).2 hquote
  rw [← Token.endOf_append] at hquote hsets'
  exact ⟨taken ++ more, (List.append_assoc taken more rest).symm, hquote, hsets.trans hsets'⟩

theorem KeepsSets.single {op : Operator} (hkind : token.kind = .operator op) (rest : List Token) :
    KeepsSets contexts (token :: rest) rest := by
  rintro start ⟨rfl, hemits, -⟩ hquote
  rw [hkind] at hemits
  have hstop : contexts token.stop = contexts token.start := hemits.2.2.2
  exact ⟨[token], rfl, hstop ▸ hquote, hstop ▸ Nat.le_refl _⟩

theorem Quoted.keepsSets (h : Quoted value) (rest : List Token) :
    KeepsSets contexts (value ++ rest) rest := by
  intro start hchain hquote
  have hleads := h.leads (chained_append.1 hchain).1 hquote
  exact ⟨value, rfl, hleads.quote, hleads.sets ▸ Nat.le_add_right _ _⟩

theorem Unquoted.keepsSets (h : Unquoted true value rest) :
    KeepsSets contexts (value ++ rest) rest := by
  intro start hchain hquote
  obtain ⟨last, hpasses, -⟩ := h.passes
  obtain ⟨hquote, hsets, -, -⟩ := hpasses.leads (chained_append.1 hchain).1 hquote
    (Nat.add_zero _).symm (Nat.add_zero _).symm
  exact ⟨value, rfl, hquote, hsets ▸ Nat.le_add_right _ _⟩

theorem Attribute.Spelled.keepsSets {attr : Attribute} (h : attr.Spelled tokens rest) :
    KeepsSets contexts tokens rest := by
  rcases h with hvalue | hname | ⟨hname, hequal⟩ | ⟨hname, hequal, hvalue | hvalue⟩
  · exact hvalue.keepsSets rest
  · exact hname.keepsSets
  · exact hname.keepsSets.trans (.single hequal rest)
  · exact hname.keepsSets.trans ((KeepsSets.single hequal _).trans (hvalue.keepsSets rest))
  · exact hname.keepsSets.trans ((KeepsSets.single hequal _).trans hvalue.keepsSets)

/-- Tokens that leave no set open do not end inside one. -/
theorem readAttributes_append_of_sets {attributes : List Attribute}
    (hchain : Chained contexts start tokens) (hquote : (contexts start).quote = none)
    (hopen : (contexts start).sets ≠ 0) (hend : (contexts (endOf start tokens)).sets = 0)
    (h : readAttributes tokens = .ok (attributes, rest)) (behind : List Token) :
    readAttributes (tokens ++ behind) = .ok (attributes, rest ++ behind) := by
  fun_induction readAttributes tokens generalizing start attributes with
  | case1 => exact absurd hend hopen
  | case2 => cases h
  | case3 token tokens attr next hread _ ih =>
    obtain ⟨result, hnext, heq⟩ := Except.map_eq_ok_iff.1 h
    cases heq
    -- The set is still open behind the attribute, so the tokens do not end there.
    have hspelled := Attribute.spelled_of_readAttribute? hread
    obtain ⟨taken, happend, hquote, hsets⟩ := hspelled.keepsSets start hchain hquote
    rw [happend] at hchain hend
    rw [Token.endOf_append] at hend
    have hne : next ≠ [] := by
      rintro rfl
      rw [endOf] at hend
      omega
    rw [readAttributes_of_readAttribute? ((continues_readAttribute? hread).append hne behind),
      ih (chained_append.1 hchain).2 hquote (by omega) hend hnext]
    rfl
  | case4 token tokens hnone hclosing =>
    cases h
    exact readAttributes_closing hclosing
  | case5 token tokens hnone text hblank ih =>
    obtain ⟨rfl, hemits, hchain⟩ := hchain
    rw [hblank] at hemits
    have hstop : contexts token.stop = contexts token.start := hemits
    rw [List.cons_append, readAttributes_blank hblank]
    exact ih hchain (by rw [hstop, hquote]) (by rw [hstop]; exact hopen) hend h
  | case6 => cases h
  | case7 => cases h

theorem readAttributes_append {attributes : List Attribute}
    (hopening : token.kind = .bracket .attributes true) (hsettled : Settled (token :: tokens))
    (h : readAttributes tokens = .ok (attributes, rest)) (behind : List Token) :
    readAttributes (tokens ++ behind) = .ok (attributes, rest ++ behind) := by
  obtain ⟨contexts, start, ⟨rfl, hemits, hchain⟩, hsets, -⟩ := hsettled
  rw [hopening] at hemits
  have hstop : contexts token.stop = _ := hemits.2.2
  exact readAttributes_append_of_sets hchain (by rw [hstop]; exact hemits.1)
    (by rw [hstop]; exact Nat.succ_ne_zero _) hsets h behind

theorem readShort_append_closing (hsettled : Settled tokens)
    (hclosing : closing.kind = .bracket .group false) {name : String} {mark : Token}
    {attr : Attribute} (h : readShort jsx name mark tokens = (attr, rest)) (behind : List Token) :
    readShort jsx name mark (tokens ++ closing :: behind) =
      (attr, rest ++ closing :: behind) := by
  unfold readShort at h ⊢
  dsimp only at h ⊢
  split at h
  next htext =>
    cases h
    split at htext
    next hjsx => rw [if_pos hjsx, readText?_append hsettled htext]
    next => cases htext
  next hnone =>
    -- No expression begins before the end of a group, either.
    have hstill : (if jsx then readText? (tokens ++ closing :: behind) else none) = none := by
      split at hnone
      next hjsx => rw [if_pos hjsx, readText?_append_eq_none hclosing hnone]
      next hjsx => rw [if_neg hjsx]
    rw [hstill]
    split at h
    next hvalue =>
      cases h
      rw [readUnquoted?_append_closing hclosing hvalue]
    next hvalue =>
      cases h
      have hvalue' : readUnquoted? false (tokens ++ closing :: behind) = none := by
        cases tokens with
        | nil =>
          have hends : unquotedAfter? false (fun _ => 0) closing.kind = none := by
            rw [hclosing]
            rfl
          rw [List.nil_append, readUnquoted?, readUnquoted_of_none hends]
          rfl
        | cons token tokens => exact (StandsIn.same token tokens _).readUnquoted?_eq_none hvalue
      rw [hvalue']

/-! ## Elements -/

theorem readRepeater_append_closing (hclosing : closing.kind = .bracket .group false)
    {repeater : Option Repeater} (h : readRepeater tokens = (repeater, rest))
    (behind : List Token) :
    readRepeater (tokens ++ closing :: behind) = (repeater, rest ++ closing :: behind) := by
  unfold readRepeater at h
  split at h
  next => cases h; rfl
  next hother =>
    cases h
    cases tokens with
    | nil => exact readRepeater_of_ne (by simp [hclosing])
    | cons token tokens =>
      exact readRepeater_of_ne fun repeater => forall_head_kind_ne (hother repeater) token rfl

theorem close_append_closing (hclosing : closing.kind = .bracket .group false) {result : Element}
    (h : element.close tokens = (result, rest)) (behind : List Token) :
    element.close (tokens ++ closing :: behind) = (result, rest ++ closing :: behind) := by
  unfold Element.close at h ⊢
  dsimp only at h ⊢
  split at h
  next hnone =>
    rcases hread : readRepeater tokens with ⟨repeater, more⟩
    rw [hread] at h
    cases h
    rw [if_pos hnone, readRepeater_append_closing hclosing hread]
  next hsome =>
    cases h
    rw [if_neg hsome]

theorem readPart?_append_closing (hsettled : Settled tokens)
    (hclosing : closing.kind = .bracket .group false) {part : Part}
    (h : readPart? jsx present element tokens = .ok (some (part, rest))) (behind : List Token) :
    readPart? jsx present element (tokens ++ closing :: behind) =
      .ok (some (part, rest ++ closing :: behind)) := by
  unfold readPart? at h
  split at h
  next => cases h
  next token tokens =>
    have hbehind : Settled tokens := hsettled.of_suffix (List.suffix_cons token tokens)
    rw [List.cons_append, readPart?]
    split at h
    next =>
      split at h
      next hfirst =>
        cases h
        rw [if_pos hfirst]
      next => cases h
    next =>
      split at h
      next hfirst =>
        simp only [Except.ok.injEq, Option.map_eq_some_iff, Prod.exists, Prod.mk.injEq] at h
        obtain ⟨text, more, htext, rfl, rfl⟩ := h
        rw [if_pos hfirst, ← List.cons_append, readText?_append hsettled htext]
        rfl
      next => cases h
    next =>
      cases h
      rw [readShort_append_closing hbehind hclosing rfl]
    next =>
      cases h
      rw [readShort_append_closing hbehind hclosing rfl]
    next hkind =>
      obtain ⟨result, hread, heq⟩ := Except.map_eq_ok_iff.1 h
      cases heq
      rw [readAttributes_append hkind hsettled hread]
      rfl
    next =>
      split at h
      next hpresent =>
        cases h
        rw [if_pos hpresent]
      next => cases h
    next => cases h

theorem readParts?_append_closing (hsettled : Settled tokens)
    (hclosing : closing.kind = .bracket .group false) {result : Element}
    (h : readParts? jsx present element tokens = .ok (some (result, rest)))
    (behind : List Token) :
    readParts? jsx present element (tokens ++ closing :: behind) =
      .ok (some (result, rest ++ closing :: behind)) := by
  fun_induction readParts? jsx present element tokens with
  | case1 => cases h
  | case2 present element tokens hpart =>
    split at h
    next hpresent =>
      cases h
      subst hpresent
      -- The element ends before the bracket, or before the token before which it ended.
      refine readParts?_of_none ?_
      cases rest with
      | nil => simp [readPart?, hclosing]
      | cons token rest => exact (StandsIn.same token rest _).readPart?_eq_none hpart
    next => cases h
  | case3 present element tokens next hpart =>
    rw [readParts?_of_close (readPart?_append_closing hsettled hclosing hpart behind),
      close_append_closing hclosing (Option.some.inj (Except.ok.inj h))]
  | case4 present element tokens part next hclose hpart _ ih =>
    rw [readParts?_of_readPart? (readPart?_append_closing hsettled hclosing hpart behind) hclose]
    exact ih (hsettled.of_suffix (continues_readPart? hpart).suffix) h

theorem readName_append_closing (hclosing : closing.kind = .bracket .group false)
    {name : List Token} (h : readName jsx tokens = (name, rest)) (behind : List Token) :
    readName jsx (tokens ++ closing :: behind) = (name, rest ++ closing :: behind) := by
  have happend := readName_append jsx tokens
  rw [h] at happend
  rw [← happend, List.append_assoc]
  refine readName_append_of_goesOn h ?_ ?_
  · exact forall_head_append (isNamePart_of_readName h) (by simp [isNamePart, hclosing]) behind
  -- The bracket is neither a dot nor a literal, so the path goes on in the tokens themselves.
  · rintro ⟨dot, part, more, heq, hdot, hcapital⟩
    rcases rest with _ | ⟨first, _ | ⟨second, rest⟩⟩
    · obtain ⟨rfl, -⟩ := List.cons_eq_cons.1 heq
      rw [hclosing] at hdot
      cases hdot
    · obtain ⟨-, hsecond⟩ := List.cons_eq_cons.1 heq
      obtain ⟨rfl, -⟩ := List.cons_eq_cons.1 hsecond
      simp [isCapitalized, hclosing] at hcapital
    · obtain ⟨rfl, hsecond⟩ := List.cons_eq_cons.1 heq
      obtain ⟨rfl, -⟩ := List.cons_eq_cons.1 hsecond
      exact ⟨first, second, rest, rfl, hdot, hcapital⟩

/-- An element is read in the same way if a group is closed behind the tokens. -/
theorem readElement?_append_closing (hsettled : Settled tokens)
    (hclosing : closing.kind = .bracket .group false) {head : Element}
    (h : readElement? jsx tokens = .ok (some (head, rest))) (behind : List Token) :
    readElement? jsx (tokens ++ closing :: behind) =
      .ok (some (head, rest ++ closing :: behind)) := by
  rcases hname : readName jsx tokens with ⟨name, more⟩
  have hsuffix : more <:+ tokens := by
    have happend := readName_append jsx tokens
    rw [hname] at happend
    exact ⟨name, happend⟩
  rw [readElement?_of_readName hname] at h
  rw [readElement?_of_readName (readName_append_closing hclosing hname behind)]
  exact readParts?_append_closing (hsettled.of_suffix hsuffix) hclosing h behind

/-! ## Items -/

theorem Link.Follows.suffix {link : Link} (h : link.Follows tokens rest) : rest <:+ tokens := by
  cases h with
  | child => exact List.suffix_cons _ _
  | sibling => exact List.suffix_cons _ _
  | nothing => exact List.suffix_rfl
  | climb => exact List.suffix_append _ _

theorem Link.Follows.append_closing {link : Link} (h : link.Follows tokens rest)
    (hclosing : closing.kind = .bracket .group false) (behind : List Token) :
    link.Follows (tokens ++ closing :: behind) (rest ++ closing :: behind) := by
  cases h with
  | child hmark => exact .child hmark
  | sibling hmark => exact .sibling hmark
  | nothing hnone => exact .nothing (forall_head_append hnone (by simp [hclosing]) behind)
  | climb hne hmarks hrest =>
    rw [List.append_assoc]
    exact .climb hne hmarks (forall_head_append hrest (by simp [hclosing]) behind)

theorem Reads.suffix {items : List Item} (h : Reads jsx tokens items rest) : rest <:+ tokens := by
  induction h with
  | nil => exact List.suffix_rfl
  | element hhead hlink _ ih =>
    exact ih.trans (hlink.suffix.trans (continues_readElement? hhead).suffix)
  | @group opening closing _ _ _ _ _ _ _ _ _ _ _ _ hrepeater hlink _ ihinside ihmore =>
    have hrepeated := hlink.suffix.trans (continues_readRepeater hrepeater).suffix
    have hclosed := hrepeated.trans (List.suffix_cons closing _)
    exact ihmore.trans (hclosed.trans (ihinside.trans (List.suffix_cons opening _)))

/-- The items of a level are read in the same way if a group is closed behind the tokens. -/
theorem Reads.append_closing {items : List Item} (h : Reads jsx tokens items rest)
    (hsettled : Settled tokens) (hclosing : closing.kind = .bracket .group false)
    (behind : List Token) :
    Reads jsx (tokens ++ closing :: behind) items (rest ++ closing :: behind) := by
  induction h with
  | nil => exact .nil _
  | element hhead hlink _ ih =>
    have hsuffix := hlink.suffix.trans (continues_readElement? hhead).suffix
    exact .element (readElement?_append_closing hsettled hclosing hhead behind)
      (hlink.append_closing hclosing behind) (ih (hsettled.of_suffix hsuffix))
  | @group opening closed _ _ _ _ _ _ _ _ _ hopening hinside hclosed hrepeater hlink _ ihinside
      ihmore =>
    have hrepeated := hlink.suffix.trans (continues_readRepeater hrepeater).suffix
    have hsuffix := (hrepeated.trans (List.suffix_cons closed _)).trans
      (hinside.suffix.trans (List.suffix_cons opening _))
    exact .group hopening (ihinside (hsettled.of_suffix (List.suffix_cons _ _))) hclosed
      (readRepeater_append_closing hclosing hrepeater behind)
      (hlink.append_closing hclosing behind) (ihmore (hsettled.of_suffix hsuffix))

end Shorthand.Statement
