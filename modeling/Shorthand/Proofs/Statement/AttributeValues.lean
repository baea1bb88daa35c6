import Shorthand.Proofs.Statement.Contents
import Shorthand.Proofs.Statement.Locality.Endings
import Shorthand.Proofs.Token.Delimiters

/-!
# Where the values of attributes stand

The value of an attribute is a run of tokens that stand one behind the other in the source. So what
the lexer makes sure of for all tokens of a source can be said of the tokens of a value. In
particular braces in a value do not nest: up to the brace that closes them, they enclose nothing but
content.

## Main definitions

* `HoldsValues`: the values of attributes are runs of tokens.

## Main results

* `holdsValues_of_readElement?`: the values of an element are runs of its tokens;
* `exists_holdsValues_of_parse`: the values in a tree are runs of the tokens of its source;
* `exists_inner_of_parse`: behind an opening brace, a value is content up to the closing one.
-/

namespace Shorthand.Statement

variable {jsx present : Bool} {element head : Element} {attributes more : List Attribute}
  {tokens value rest behind : List Token} {attr : Attribute}

/-- The values of the attributes are runs of the tokens. -/
def HoldsValues (tokens : List Token) (attributes : List Attribute) : Prop :=
  ∀ attr ∈ attributes, ∀ value ∈ attr.value, value <:+: tokens

theorem holdsValues_nil (tokens : List Token) : HoldsValues tokens [] :=
  List.forall_mem_nil _

theorem holdsValues_singleton (h : ∀ value ∈ attr.value, value <:+: tokens) :
    HoldsValues tokens [attr] :=
  List.forall_mem_singleton.2 h

theorem HoldsValues.append (h : HoldsValues tokens attributes) (hmore : HoldsValues tokens more) :
    HoldsValues tokens (attributes ++ more) :=
  List.forall_mem_append.2 ⟨h, hmore⟩

/-- What stands in the tokens behind others stands in all of them. -/
theorem HoldsValues.of_suffix (h : HoldsValues rest attributes) (hsuffix : rest <:+ tokens) :
    HoldsValues tokens attributes :=
  fun attr hattr value hvalue => (h attr hattr value hvalue).trans hsuffix.isInfix

/-! ## Attributes -/

theorem infix_of_spelled (h : attr.Spelled tokens rest) :
    ∀ value ∈ attr.value, value <:+: tokens := by
  intro value hvalue
  cases h with
  | quoted =>
    obtain rfl := Option.some.inj hvalue
    exact (List.prefix_append _ _).isInfix
  | name => cases hvalue
  | equal => cases hvalue
  | @value name stored rest equal =>
    obtain rfl : stored = value := Option.some.inj hvalue
    exact ⟨name ++ [equal], rest, by simp⟩

theorem suffix_of_spelled (h : attr.Spelled tokens rest) : rest <:+ tokens := by
  cases h with
  | quoted => exact List.suffix_append _ _
  | name => exact List.suffix_append _ _
  | equal => exact (List.suffix_cons _ _).trans (List.suffix_append _ _)
  | value =>
    exact (List.suffix_append _ _).trans ((List.suffix_cons _ _).trans (List.suffix_append _ _))

/-- The values in a set stand in its tokens. -/
theorem holdsValues_of_setSpelled (h : SetSpelled tokens attributes rest) :
    HoldsValues tokens attributes := by
  induction h with
  | ended => exact holdsValues_nil _
  | closing => exact holdsValues_nil _
  | blank _ _ ih => exact ih.of_suffix (List.suffix_cons _ _)
  | attr hattr _ ih =>
    have hlater := ih.of_suffix (suffix_of_spelled hattr)
    exact (holdsValues_singleton (infix_of_spelled hattr)).append hlater

/-- A text stands in the tokens that begin with it. -/
theorem infix_of_readText? (h : readText? tokens = some (value, rest)) : value <:+: tokens := by
  unfold readText? at h
  split at h
  next opening start stop inner =>
    cases h
    -- The text goes up to the brace that closes it, which may be missing.
    have hbody : (readThroughBrace 0 inner).1 <+: inner :=
      ⟨_, readThroughBrace_append 0 inner⟩
    have hvalue := dropFinal_isPrefix (.bracket .expression false) (readThroughBrace 0 inner).1
    exact (hvalue.trans hbody).isInfix.trans (List.suffix_cons _ _).isInfix
  next => cases h

/-- The value of a short attribute stands behind its mark. -/
theorem infix_of_shortSpelled {name : String} {mark : Token}
    (h : attr.ShortSpelled jsx name mark tokens rest) :
    ∀ value ∈ attr.value, value <:+: tokens := by
  intro value hvalue
  cases h with
  | bare => cases hvalue
  | value =>
    obtain rfl := Option.some.inj hvalue
    exact (List.prefix_append _ _).isInfix
  | text hjsx htext =>
    obtain rfl := Option.some.inj hvalue
    exact infix_of_readText? htext

/-! ## Elements -/

/-- With one more part, an element has the values in the tokens of that part as well. -/
theorem holdsValues_add {part : Part} (h : part.Spelled jsx element tokens rest)
    (helement : HoldsValues behind element.attributes) (hsuffix : tokens <:+ behind) :
    HoldsValues behind (element.add part).attributes := by
  cases h with
  | repeater => exact helement
  | text => exact helement
  | close => exact helement
  | short _ hattr =>
    have hvalue := holdsValues_singleton (infix_of_shortSpelled hattr)
    exact helement.append (hvalue.of_suffix ((List.suffix_cons _ _).trans hsuffix))
  | set _ hset =>
    have hvalues := holdsValues_of_setSpelled hset
    exact helement.append (hvalues.of_suffix ((List.suffix_cons _ _).trans hsuffix))

theorem holdsValues_of_readParts?
    (h : readParts? jsx present element tokens = .ok (some (head, rest)))
    (helement : HoldsValues behind element.attributes) (hsuffix : tokens <:+ behind) :
    HoldsValues behind head.attributes := by
  fun_induction readParts? jsx present element tokens with
  | case1 => cases h
  | case2 =>
    split at h
    next =>
      cases h
      exact helement
    next => cases h
  | case3 present element tokens next hpart =>
    simp only [Except.ok.injEq, Option.some.injEq, Element.close] at h
    split at h
    next =>
      cases h
      exact helement
    next =>
      cases h
      exact helement
  | case4 present element tokens part next hclose hpart _ ih =>
    exact ih h (holdsValues_add (Part.spelled_of_readPart? hpart) helement hsuffix)
      ((continues_readPart? hpart).suffix.trans hsuffix)

/-- The values of the attributes of an element stand in its tokens. -/
theorem holdsValues_of_readElement? (h : readElement? jsx tokens = .ok (some (head, rest))) :
    HoldsValues tokens head.attributes := by
  rcases hname : readName jsx tokens with ⟨name, behind⟩
  have happend := readName_append jsx tokens
  rw [hname] at happend
  rw [readElement?_of_readName hname] at h
  -- A name alone has no attributes, so all values come with the parts.
  have hnone : (Element.ofName name).attributes = [] := by
    unfold Element.ofName
    split
    next => rfl
    next => rfl
  exact holdsValues_of_readParts? h (hnone ▸ holdsValues_nil tokens) ⟨name, happend⟩

/-! ## Sources -/

/-- The values in the items of a level stand in its tokens. -/
theorem holdsValues_of_reads {items : List Item} (h : Reads jsx tokens items rest) :
    ∀ head ∈ Item.headsAll items, HoldsValues tokens head.attributes := by
  induction h with
  | nil =>
    rw [Item.headsAll]
    exact List.forall_mem_nil _
  | element hhead hlink _ ih =>
    rw [Item.headsAll, Item.heads, List.singleton_append]
    have hsuffix := hlink.suffix.trans (continues_readElement? hhead).suffix
    exact List.forall_mem_cons.2 ⟨holdsValues_of_readElement? hhead, fun head hmem =>
      (ih head hmem).of_suffix hsuffix⟩
  | @group opening closing tokens repeated behind rest last inside items repeater link hopening
      hinside hclosing hrepeater hlink _ ihinside ihmore =>
    rw [Item.headsAll, Item.heads]
    -- What stands behind the group stands behind its closing bracket.
    have hrepeated := hlink.suffix.trans (continues_readRepeater hrepeater).suffix
    have hclosed := (hrepeated.trans (List.suffix_cons closing _)).trans hinside.suffix
    refine List.forall_mem_append.2 ⟨fun head hmem => ?_, fun head hmem => ?_⟩
    · exact (ihinside head hmem).of_suffix (List.suffix_cons opening tokens)
    · exact (ihmore head hmem).of_suffix (hclosed.trans (List.suffix_cons opening tokens))

variable {source : String} {statements : List Statement}

/-- The values in the tree of a source stand in its tokens. -/
theorem exists_holdsValues_of_parse (h : parse jsx source = .ok statements) :
    ∃ tokens, Token.tokenize source = .ok tokens ∧
      ∀ head ∈ elementsAll statements, HoldsValues tokens head.attributes := by
  obtain ⟨tokens, items, htokens, hreads, helements, -⟩ := exists_reads_of_parse h
  rw [helements]
  exact ⟨tokens, htokens, holdsValues_of_reads hreads⟩

/-- Behind an opening brace, a value in the tree of a source is content up to the first brace that
closes it, or up to its end. -/
theorem exists_inner_of_parse (h : parse jsx source = .ok statements)
    (hhead : head ∈ elementsAll statements) (hattr : attr ∈ head.attributes)
    (hvalue : value ∈ attr.value) {before inside : List Token} {opening : Token}
    (hsplit : value = before ++ opening :: inside)
    (hopening : opening.kind = .bracket .expression true) :
    ∃ inner rest, inside = inner ++ rest ∧ (∀ token ∈ inner, token.kind.isInner = true) ∧
      ∀ closing ∈ rest.head?, closing.kind = .bracket .expression false := by
  obtain ⟨tokens, htokens, hholds⟩ := exists_holdsValues_of_parse h
  obtain ⟨first, last, rfl⟩ := hholds head hhead attr hattr value hvalue
  have hwhole : first ++ value ++ last = first ++ before ++ opening :: (inside ++ last) := by
    simp [hsplit]
  obtain ⟨inner, rest, hinside, hinner, hclosing⟩ :=
    Token.exists_inside_braces (hwhole ▸ htokens) hopening
  -- The brace that closes stands in the value or behind it.
  rcases List.append_eq_append_iff.1 hinside with ⟨more, rfl, rfl⟩ | ⟨more, rfl, rfl⟩
  · exact ⟨inside, [], (List.append_nil _).symm,
      fun token hmem => hinner token (List.mem_append_left more hmem), by simp⟩
  · refine ⟨inner, more, rfl, hinner, fun closing hmem => hclosing closing ?_⟩
    obtain ⟨behind, rfl⟩ := List.head?_eq_some_iff.1 hmem
    rfl

end Shorthand.Statement
