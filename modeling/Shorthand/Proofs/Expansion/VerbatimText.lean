import Shorthand.Proofs.Expansion.Listing
import Shorthand.Proofs.Expansion.Values
import Shorthand.Proofs.Statement.BracedText
import Shorthand.Proofs.Token.PlainText
import Shorthand.Proofs.Writing.Attributes

/-!
# Text that is kept

A text between braces and a value between quotation marks are meant to come out as they are, if
nothing in them has a meaning of its own. Two separate pieces of code see to that: one splits the
text into tokens, the other writes the tokens back. All that gets lost on the way is how the counts
are written that are split off at the beginning of the text.

## Main results

* `Scope.toList_concat_renderValue`: tokens that are fixed are rendered as their characters;
* `exists_expand_braced`, `exists_expand_quoted`: the nodes of a text between braces and of a value
  between quotation marks;
* `expand_verbatim_iff`: just the regular texts come out as they are;
* `not_expand_verbatim`: a count with zeros in front.
-/

namespace Shorthand

open Literal (Plain Stops)
open Token (Kind Yields)

variable {tokens : List Token} {text : String}

/-! ## Rendering -/

namespace Scope

variable (scope : Scope)

/-- What is fixed is rendered as it is written, whatever it is resolved against. -/
theorem render_of_isFixed {kind : Kind} (h : kind.isFixed = true) :
    scope.render kind = kind.text := by
  cases kind with
  | literal => rfl
  | blank => rfl
  | repeater => rfl
  | _ => cases h

/-- Tokens that are fixed are rendered as their characters. -/
theorem toList_concat_renderValue (hfixed : ∀ kind ∈ tokens.map Token.kind, kind.isFixed = true) :
    (Value.concat (scope.renderValue tokens)).toList = Kind.chars (tokens.map Token.kind) := by
  rw [concat_renderValue]
  induction tokens with
  | nil => rfl
  | cons token tokens ih =>
    rw [List.map_cons] at hfixed
    obtain ⟨htoken, hfixed⟩ := List.forall_mem_cons.1 hfixed
    rw [renderName, List.foldr_cons, String.toList_append, render_of_isFixed scope htoken]
    exact congrArg (_ ++ ·) (ih hfixed)

end Scope

/-- An element without a repeater becomes one node. -/
theorem convert_element {head : Statement.Element} (hrepeater : head.repeater = none) :
    convert {} [.element head []] = [Scope.single ⟨{}, []⟩ head none] := by
  have hnodes : Scope.nodes ⟨{}, []⟩ head none [] = [Scope.single ⟨{}, []⟩ head none] := by
    -- With nothing below it, it does not matter whether the node can hold anything.
    rw [Scope.nodes_eq]
    split
    next => rfl
    next => rfl
  rw [Statement.convert_eq_unrollAll rfl]
  simp [Statement.unrollAll, Statement.unroll, Statement.repeated, hrepeater, hnodes]

/-- An abbreviation that is read as one element without a repeater expands to one node. -/
theorem expand_of_readElement? {abbreviation : String} {head : Statement.Element}
    (htokens : Token.tokenize abbreviation = .ok tokens)
    (hread : Statement.readElement? false tokens = .ok (some (head, [])))
    (hrepeater : head.repeater = none) :
    expand {} abbreviation = .ok [Scope.single ⟨{}, []⟩ head none] := by
  have hparse : Statement.parse false abbreviation = .ok [.element head []] := by
    rw [Statement.parse, htokens]
    exact Statement.ofTokens_of_readElement? hread
  rw [expand, hparse, Except.map, convert_element hrepeater]

/-! ## Text between braces -/

/-- The tokens of a text between braces. -/
theorem exists_tokenize_braced (htext : ∀ c ∈ text.toList, c ∉ ['$', '\\', '{', '}']) :
    ∃ tokens inner, Token.tokenize ("p\x7b" ++ text ++ "\x7d") = .ok tokens ∧
      tokens.map Token.kind = .literal "p" :: .bracket .expression true ::
        (inner ++ [.bracket .expression false]) ∧
      (∀ kind ∈ inner, kind.isFixed = true) ∧ Kept text.toList (Kind.chars inner) := by
  have hname : Plain {} ['p'] ['p'] ('{' :: (text.toList ++ ['}'])) :=
    Plain.keep (Literal.stops_cons rfl) (by decide) rfl rfl
  have hopening : Stops {} ('{' :: (text.toList ++ ['}'])) := Literal.stops_cons rfl
  have hclosing : Stops { braces := 1 } ['}'] := Literal.stops_cons rfl
  have hinside : ∀ c ∈ text.toList, Literal.Inside { braces := 1 } c := fun c hmem =>
    Literal.inside_braces (htext c hmem)
  obtain ⟨inner, hinner, hfixed, hkept⟩ :=
    Token.exists_yields_kept hinside hclosing (fun _ hc => Option.some.inj hc ▸ rfl)
      fun _ hc => Option.some.inj hc ▸ rfl
  have hyields := (Token.yields_literal hname rfl (by decide) (by decide) rfl).cons
    ((Token.yields_bracket .expression true hopening).cons
      (hinner.append (Token.yields_bracket .expression false hclosing)))
  rw [List.singleton_append, ← Token.toList_braced] at hyields
  obtain ⟨tokens, htokens, hkinds⟩ := hyields.exists_tokenize
  exact ⟨tokens, inner, htokens, hkinds, hfixed, hkept⟩

/-- A name with a text between braces becomes a node with what is kept of that text. -/
theorem exists_expand_braced (htext : ∀ c ∈ text.toList, c ∉ ['$', '\\', '{', '}']) :
    ∃ node shown, expand {} ("p\x7b" ++ text ++ "\x7d") = .ok [node] ∧ node.name = some "p" ∧
      node.children = [] ∧ node.text? = some shown ∧ Kept text.toList shown.toList := by
  obtain ⟨tokens, kinds, htokens, hkinds, hfixed, hkept⟩ := exists_tokenize_braced htext
  obtain ⟨name, more, rfl, hname, hmore⟩ := List.map_eq_cons_iff.1 hkinds
  obtain ⟨opening, inner, closing, rfl, hopening, rfl, hclosing⟩ := Writing.exists_enclosed hmore
  -- Nothing that is fixed is a bracket, so the text ends at the brace behind it.
  have hbraced : Statement.Braced opening inner closing :=
    ⟨hopening, fun token hmem _ _ =>
      Kind.ne_of_isFixed (hfixed token.kind (List.mem_map_of_mem hmem)) rfl, hclosing⟩
  have hread : Statement.readElement? false (name :: opening :: (inner ++ [closing])) =
      .ok (some ({ name := some [name], value := some inner }, [])) := by
    rw [Statement.readElement?_of_literal hname (by simp [Statement.isNamePart, hopening]),
      Statement.readParts?_of_readPart? (hbraced.readPart? rfl) (by simp)]
    exact Statement.readParts?_of_none rfl
  refine ⟨_, _, expand_of_readElement? htokens hread rfl, ?_, rfl, rfl, ?_⟩
  · simp [Scope.single, Scope.renderName, Scope.render, hname]
  · rwa [Scope.toList_concat_renderValue _ hfixed]

/-! ## Values between quotation marks -/

/-- An abbreviation with a value between quotation marks, as characters. -/
theorem toList_quoted (text : String) : ("a[b=\"" ++ text ++ "\"]").toList =
    'a' :: '[' :: 'b' :: '=' :: '"' :: (text.toList ++ ['"', ']']) := by
  simp

/-- The tokens of a value between quotation marks. -/
theorem exists_tokenize_quoted (htext : ∀ c ∈ text.toList, c ∉ ['$', '\\', '"']) :
    ∃ tokens inner, Token.tokenize ("a[b=\"" ++ text ++ "\"]") = .ok tokens ∧
      tokens.map Token.kind = .literal "a" :: .bracket .attributes true :: .literal "b" ::
        .operator .equal :: .quote .double ::
        (inner ++ [.quote .double, .bracket .attributes false]) ∧
      (∀ kind ∈ inner, kind.isFixed = true) ∧ Kept text.toList (Kind.chars inner) := by
  have hname : Plain {} ['a'] ['a'] ('[' :: 'b' :: '=' :: '"' :: (text.toList ++ ['"', ']'])) :=
    Plain.keep (Literal.stops_cons rfl) (by decide) rfl rfl
  have hopening : Stops {} ('[' :: 'b' :: '=' :: '"' :: (text.toList ++ ['"', ']'])) :=
    Literal.stops_cons rfl
  -- Behind the bracket the set is open, and between the marks the value as well.
  have hattr : Plain { sets := 1 } ['b'] ['b'] ('=' :: '"' :: (text.toList ++ ['"', ']'])) :=
    Plain.keep (Literal.stops_cons rfl) (by decide) rfl rfl
  have hequal : Stops { sets := 1 } ('=' :: '"' :: (text.toList ++ ['"', ']'])) :=
    Literal.stops_cons rfl
  have hmark : Stops { sets := 1 } ('"' :: (text.toList ++ ['"', ']'])) := Literal.stops_cons rfl
  have hend : Stops { sets := 1, quote := some .double } ['"', ']'] := Literal.stops_cons rfl
  have hclosing : Stops { sets := 1 } [']'] := Literal.stops_cons rfl
  have hinside : ∀ c ∈ text.toList, Literal.Inside { sets := 1, quote := some .double } c :=
    fun c hmem => Literal.inside_quotes (htext c hmem)
  obtain ⟨inner, hinner, hfixed, hkept⟩ :=
    Token.exists_yields_kept hinside hend (fun _ hc => Option.some.inj hc ▸ rfl)
      fun _ hc => Option.some.inj hc ▸ rfl
  have hvalue := (Token.yields_quote .double hmark).cons (hinner.append
    ((Token.yields_quote .double hend).cons (Token.yields_bracket .attributes false hclosing)))
  have hassigned := (Token.yields_literal hattr rfl (by decide) (by decide) rfl).cons
    ((Token.yields_operator .equal hequal).cons hvalue)
  have hyields := (Token.yields_literal hname rfl (by decide) (by decide) rfl).cons
    ((Token.yields_bracket .attributes true hopening).cons hassigned)
  rw [List.singleton_append, ← toList_quoted] at hyields
  obtain ⟨tokens, htokens, hkinds⟩ := hyields.exists_tokenize
  exact ⟨tokens, inner, htokens, hkinds, hfixed, hkept⟩

/-- The element of tokens with a value between quotation marks. -/
theorem exists_readElement?_quoted {kinds : List Kind}
    (hkinds : tokens.map Token.kind = .literal "a" :: .bracket .attributes true :: .literal "b" ::
      .operator .equal :: .quote .double :: (kinds ++ [.quote .double, .bracket .attributes false]))
    (hfixed : ∀ kind ∈ kinds, kind.isFixed = true) :
    ∃ name label value inner, Statement.readElement? false tokens =
        .ok (some ({ name := some [name], attributes :=
          [{ name := some [label], value := some value }] }, [])) ∧
      label.kind = .literal "b" ∧ Statement.unwrap value = (.doubleQuote, inner) ∧
      inner.map Token.kind = kinds := by
  obtain ⟨name, more, rfl, hname, hmore⟩ := List.map_eq_cons_iff.1 hkinds
  obtain ⟨opening, more, rfl, hopening, hmore⟩ := List.map_eq_cons_iff.1 hmore
  obtain ⟨label, more, rfl, hlabel, hmore⟩ := List.map_eq_cons_iff.1 hmore
  obtain ⟨equal, more, rfl, hequal, hmore⟩ := List.map_eq_cons_iff.1 hmore
  obtain ⟨mark, more, rfl, hmark, hmore⟩ := List.map_eq_cons_iff.1 hmore
  obtain ⟨inner, ends, rfl, rfl, hends⟩ := List.map_eq_append_iff.1 hmore
  obtain ⟨last, more, rfl, hlast, hmore⟩ := List.map_eq_cons_iff.1 hends
  obtain ⟨closing, rfl, hclosing⟩ := List.map_eq_singleton_iff.1 hmore
  -- Nothing that is fixed is a quotation mark, so the value ends at the mark behind it.
  have hplain : ∀ token ∈ inner, token.kind ≠ .quote .double := fun token hmem =>
    Kind.ne_of_isFixed (hfixed token.kind (List.mem_map_of_mem hmem)) rfl
  have hvalue : Statement.readValue? (mark :: (inner ++ [last, closing])) =
      .ok (some (mark :: (inner ++ [last]), [closing])) := by
    rw [Statement.readValue?, Statement.readQuoted?_eq_some hmark hplain hlast]
  have hset := Statement.readAttributes_of_readAttribute?
    (Statement.readAttribute?_value hlabel hequal hvalue)
  rw [Statement.readAttributes_closing hclosing] at hset
  refine ⟨name, label, mark :: (inner ++ [last]), inner, ?_, hlabel, ?_, rfl⟩
  · rw [Statement.readElement?_of_literal hname (by simp [Statement.isNamePart, hopening]),
      Statement.readParts?_of_readPart? (Statement.readPart?_attributes hopening hset) (by simp)]
    exact Statement.readParts?_of_none rfl
  · rw [Statement.unwrap, hmark]
    dsimp only
    rw [Statement.dropFinal_append_of_kind hlast]
    rfl

/-- An attribute with a value between quotation marks becomes one with what is kept of that value.
-/
theorem exists_expand_quoted (htext : ∀ c ∈ text.toList, c ∉ ['$', '\\', '"']) :
    ∃ node attr shown, expand {} ("a[b=\"" ++ text ++ "\"]") = .ok [node] ∧
      node.children = [] ∧ node.attribute? "b" = some attr ∧ attr.text? = some shown ∧
      Kept text.toList shown.toList := by
  obtain ⟨tokens, kinds, htokens, hkinds, hfixed, hkept⟩ := exists_tokenize_quoted htext
  obtain ⟨name, label, value, inner, hread, hlabel, hunwrap, rfl⟩ :=
    exists_readElement?_quoted hkinds hfixed
  let attr : Statement.Attribute := { name := some [label], value := some value }
  have hname : (Scope.renderAttribute ⟨{}, []⟩ attr).name = some "b" := by
    have hwritten : Scope.renderName ⟨{}, []⟩ [label] = "b" := by
      simp [Scope.renderName, Scope.render, hlabel]
    -- There are no marks around this name that would be taken off.
    rw [Scope.renderAttribute]
    simp only [attr, Option.map_some, Option.getD_some, hwritten]
    rfl
  refine ⟨_, Scope.renderAttribute ⟨{}, []⟩ attr,
    Value.concat (Scope.renderValue ⟨{}, []⟩ inner), expand_of_readElement? htokens hread rfl, rfl,
    List.find?_cons_of_pos (beq_iff_eq.2 hname), ?_, ?_⟩
  · simp [Node.Attribute.text?, Scope.renderAttribute, attr, hunwrap]
  · rwa [Scope.toList_concat_renderValue _ hfixed]

/-! ## What is shown -/

/-- A text between braces without dollar signs, backslashes and braces becomes one node with a text,
and a value between quotation marks without dollar signs, backslashes and such marks becomes one
attribute with a value. Up to the spelling of counts these are what was written, and they are
exactly that if and only if the counts at the beginning are in their normal form. -/
theorem expand_verbatim_iff (text : String) :
    ((∀ c ∈ text.toList, c ∉ ['$', '\\', '{', '}']) →
      ∃ node shown, expand {} ("p\x7b" ++ text ++ "\x7d") = .ok [node] ∧ node.name = some "p" ∧
        node.children = [] ∧ node.text? = some shown ∧ Kept text.toList shown.toList ∧
        (shown = text ↔ Regular text.toList)) ∧
    ((∀ c ∈ text.toList, c ∉ ['$', '\\', '"']) →
      ∃ node attr shown, expand {} ("a[b=\"" ++ text ++ "\"]") = .ok [node] ∧
        node.children = [] ∧ node.attribute? "b" = some attr ∧ attr.text? = some shown ∧
        Kept text.toList shown.toList ∧ (shown = text ↔ Regular text.toList)) := by
  have hiff {shown : String} (hkept : Kept text.toList shown.toList) :
      shown = text ↔ Regular text.toList :=
    String.toList_inj.symm.trans hkept.eq_iff
  constructor
  · intro htext
    obtain ⟨node, shown, hexpand, hname, hchildren, hshown, hkept⟩ := exists_expand_braced htext
    exact ⟨node, shown, hexpand, hname, hchildren, hshown, hkept, hiff hkept⟩
  · intro htext
    obtain ⟨node, attr, shown, hexpand, hchildren, hattr, hshown, hkept⟩ :=
      exists_expand_quoted htext
    exact ⟨node, attr, shown, hexpand, hchildren, hattr, hshown, hkept, hiff hkept⟩

/-- Where the counts are in their normal form, and behind other characters, stars come out as they
are. -/
theorem expand_verbatim_regular :
    (∃ node, expand {} ("p\x7b" ++ " *12 a*007" ++ "\x7d") = .ok [node] ∧
      node.text? = some " *12 a*007") ∧
    (∃ node attr, expand {} ("a[b=\"" ++ " *12 a*007" ++ "\"]") = .ok [node] ∧
      node.attribute? "b" = some attr ∧ attr.text? = some " *12 a*007") := by
  have hregular : Regular " *12 a*007".toList :=
    .blank rfl (.repeater (.inr ⟨12, by decide, by decide⟩) (.blank rfl (.rest rfl (by decide) _)))
  constructor
  · obtain ⟨node, shown, hexpand, -, -, hshown, -, hiff⟩ :=
      (expand_verbatim_iff " *12 a*007").1 (by simp)
    rw [hiff.2 hregular] at hshown
    exact ⟨node, hexpand, hshown⟩
  · obtain ⟨node, attr, shown, hexpand, -, hattr, hshown, -, hiff⟩ :=
      (expand_verbatim_iff " *12 a*007").2 (by simp)
    rw [hiff.2 hregular] at hshown
    exact ⟨node, attr, hexpand, hattr, hshown⟩

/-- In `p{*007}` and in `a[b="*007"]`, the zeros in front of the count are lost. -/
theorem not_expand_verbatim :
    (∀ c ∈ "*007".toList, c ∉ ['$', '\\', '{', '}', '"']) ∧
    (expand {} ("p\x7b" ++ "*007" ++ "\x7d")).map (List.map Node.text?) = .ok [some "*7"] ∧
    (expand {} ("a[b=\"" ++ "*007" ++ "\"]")).map
      (List.map fun node => (node.attribute? "b").bind Node.Attribute.text?) = .ok [some "*7"] := by
  refine ⟨by simp, ?_, ?_⟩
  · decide +kernel
  · decide +kernel

end Shorthand
