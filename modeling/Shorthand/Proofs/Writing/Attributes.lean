import Shorthand.Proofs.Expansion.Rendered
import Shorthand.Proofs.Statement.Attributes
import Shorthand.Proofs.Writing.Tokens

/-!
# Reading written attributes

The tokens of a written attribute are read as an attribute that is rendered as the one that was
written, whatever it is resolved against.

## Main definitions

* `ReadsValue`: tokens that are read as a value of a certain style.

## Main results

* `renderValue_eq`: the tokens of a written text are rendered as that text;
* `readsValue_of_kinds`: the tokens of a written value are read as a value of its style;
* `Node.Attribute.Writable.readAttribute?`: the tokens of a written attribute are read as it;
* `readAttributes_of_kinds`: the tokens of written attributes are read as them.
-/

namespace Shorthand

open Statement (EndsAttribute MarkedName readAttribute? readAttributes readValue? unwrap)
open Token (Kind)

namespace Writing

variable {tokens rest : List Token} {text : String}

/-! ## Texts -/

/-- The tokens of a text are literals. -/
theorem kind_of_mem {token : Token} (h : tokens.map Token.kind = textKinds text)
    (hmem : token ∈ tokens) : token.kind = .literal text := by
  have hkind : token.kind ∈ textKinds text := h ▸ List.mem_map_of_mem hmem
  unfold textKinds at hkind
  split at hkind
  next => simp at hkind
  next => simpa using hkind

/-- Tokens with a first and a last kind have a first and a last token, and others between them. -/
theorem exists_enclosed {first last : Kind} {kinds : List Kind}
    (h : tokens.map Token.kind = first :: (kinds ++ [last])) :
    ∃ opening inner closing, tokens = opening :: (inner ++ [closing]) ∧ opening.kind = first ∧
      inner.map Token.kind = kinds ∧ closing.kind = last := by
  obtain ⟨opening, more, rfl, hopening, hmore⟩ := List.map_eq_cons_iff.1 h
  obtain ⟨inner, ends, rfl, hinner, hends⟩ := List.map_eq_append_iff.1 hmore
  obtain ⟨closing, hclosing, hlast⟩ := List.map_eq_singleton_iff.1 hends
  exact ⟨opening, inner, closing, by rw [hclosing], hopening, hinner, hlast⟩

/-- The tokens of a written text are rendered as that text. -/
theorem renderValue_eq (scope : Scope) {value : List Value} (hvalue : Value.IsText value)
    (h : tokens.map Token.kind = textKinds (Value.concat value)) :
    scope.renderValue tokens = value := by
  rcases hvalue with rfl | ⟨text, hne, rfl⟩
  · have hnil : tokens = [] := List.map_eq_nil_iff.1 h
    rw [hnil]
    rfl
  · have hkinds : textKinds (Value.concat [.text text]) = [.literal text] := by
      simp [textKinds, Value.concat, Value.toText, hne]
    obtain ⟨token, rfl, hkind⟩ := List.map_eq_singleton_iff.1 (h.trans hkinds)
    simp [Scope.renderValue, Scope.entry, Scope.render, hkind, Value.push, hne]

/-! ## Values -/

/-- Before `rest`, the tokens are read as a value, from which its style and its text can be told. -/
structure ReadsValue (tokens rest : List Token) (style : Node.Attribute.Style) (text : String) :
    Prop where
  read : readValue? (tokens ++ rest) = .ok (some (tokens, rest))
  style : (unwrap tokens).1 = style
  text : (unwrap tokens).2.map Token.kind = textKinds text

/-- The tokens of a text in quotation marks are read as a quoted value. -/
theorem readsValue_quoted {mark : QuoteMark}
    (h : tokens.map Token.kind = .quote mark :: (textKinds text ++ [.quote mark])) :
    ReadsValue tokens rest mark.style text := by
  obtain ⟨opening, inner, closing, rfl, hopening, hinner, hclosing⟩ := exists_enclosed h
  have hvalue : ∀ token ∈ inner, token.kind ≠ .quote mark := by
    intro token hmem
    simp [kind_of_mem hinner hmem]
  have hread := Statement.readQuoted?_eq_some hopening hvalue hclosing rest
  refine ⟨?_, ?_, ?_⟩
  · rw [readValue?, List.cons_append, List.append_assoc, List.singleton_append, hread]
  · rw [unwrap, hopening]
  · rw [unwrap, hopening]
    dsimp only
    rw [Statement.dropFinal_append_of_kind hclosing, hinner]

/-- The tokens of a text in braces are read as an unquoted value. -/
theorem readsValue_braced
    (h : tokens.map Token.kind =
      .bracket .expression true :: (textKinds text ++ [.bracket .expression false]))
    (hends : EndsAttribute rest) : ReadsValue tokens rest .expression text := by
  obtain ⟨opening, inner, closing, rfl, hopening, hinner, hclosing⟩ := exists_enclosed h
  have hread := Statement.readUnquoted?_braced hopening (fun _ hmem => kind_of_mem hinner hmem)
    hclosing hends
  refine ⟨?_, ?_, ?_⟩
  · rw [readValue?, List.cons_append, List.append_assoc, List.singleton_append,
      Statement.readQuoted?_eq_none (by simp [hopening]), hread]
  · rw [unwrap, hopening]
  · rw [unwrap, hopening]
    dsimp only
    rw [Statement.dropFinal_append_of_kind hclosing, hinner]

/-- The token of a bare text is read as an unquoted value. -/
theorem readsValue_bare (hne : text ≠ "") (h : tokens.map Token.kind = textKinds text)
    (hends : EndsAttribute rest) : ReadsValue tokens rest .raw text := by
  have hkinds : textKinds text = [.literal text] := by simp [textKinds, hne]
  obtain ⟨token, rfl, hkind⟩ := List.map_eq_singleton_iff.1 (h.trans hkinds)
  have hread := Statement.readUnquoted?_literal hkind hends
  refine ⟨?_, ?_, ?_⟩
  · rw [readValue?, List.singleton_append, Statement.readQuoted?_eq_none (by simp [hkind])]
    exact congrArg Except.ok hread
  · rw [unwrap, hkind]
  · rw [unwrap, hkind]
    exact h

/-- The tokens of a written value are read as a value, from which its style and its text can be
told. -/
theorem readsValue_of_kinds (style : Node.Attribute.Style) (hraw : style = .raw → text ≠ "")
    (h : tokens.map Token.kind = style.openingKinds ++ (textKinds text ++ style.closingKinds))
    (hends : EndsAttribute rest) : ReadsValue tokens rest style text := by
  cases style with
  | raw =>
    rw [Node.Attribute.Style.openingKinds, Node.Attribute.Style.closingKinds, List.append_nil] at h
    exact readsValue_bare (hraw rfl) h hends
  | singleQuote => exact readsValue_quoted h
  | doubleQuote => exact readsValue_quoted h
  | expression => exact readsValue_braced h hends

end Writing

/-! ## Attributes -/

namespace Node.Attribute

open Writing

/-- The mark before a name can be told from it. -/
theorem ofChars_leading (attr : Node.Attribute) {cs : List Char} (h : cs.head? ≠ some '!') :
    MarkedName.ofChars (attr.leading ++ cs) =
      { name := if cs.getLast? == some '.' then cs.dropLast else cs
        boolean := cs.getLast? == some '.'
        implied := attr.implied } := by
  by_cases hmark : attr.implied = true
  · simp [MarkedName.ofChars, leading, hmark]
  · simp [MarkedName.ofChars, leading, hmark, h]

/-- The marks of a name can be told from it. -/
theorem Writable.ofChars_marked {attr : Node.Attribute} {name : String} (hw : attr.Writable)
    (hname : attr.name = some name) :
    MarkedName.ofChars attr.marked = ⟨name.toList, attr.boolean, attr.implied⟩ := by
  obtain ⟨name', hname', hne, hhead, hlast⟩ := hw.name
  obtain rfl : name = name' := Option.some.inj (hname.symm.trans hname')
  -- The first mark is no part of the name, because the name does not begin with one.
  have hfirst : (name.toList ++ attr.trailing).head? ≠ some '!' := by
    rwa [List.head?_append_of_ne_nil _ (mt String.toList_eq_nil_iff.1 hne)]
  rw [marked, hname, Option.getD_some, ofChars_leading attr hfirst]
  by_cases hmark : attr.boolean = true
  · simp [trailing, hmark]
  · simp [trailing, hmark, hlast]

/-- An attribute with the name and the value of a written one is rendered as that. -/
theorem Writable.renderAttribute_eq {attr : Node.Attribute} (hw : attr.Writable) (scope : Scope)
    {token : Token} {value : Option (List Token)}
    (hname : token.kind = .literal (String.ofList attr.marked))
    (hvalue : (value.map unwrap).map (fun (_, tokens) => scope.renderValue tokens) = attr.value)
    (hstyle : ((value.map unwrap).map Prod.fst).getD .raw = attr.style) :
    scope.renderAttribute { name := some [token], value } = attr := by
  obtain ⟨name, hsome, hne, -, -⟩ := hw.name
  have hrender : scope.renderName [token] = String.ofList attr.marked := by
    simp [Scope.renderName, Scope.render, hname]
  have hmarks := hw.ofChars_marked hsome
  have hfilled : name.toList.isEmpty = false := by simpa using hne
  rw [Scope.renderAttribute]
  simp only [Option.map_some, Option.getD_some, hrender, String.toList_ofList, hmarks, hvalue,
    hfilled, String.ofList_toList, ← hsome, Bool.false_eq_true, ↓reduceIte]
  rw [hstyle]

/-- The tokens of a written attribute are read as an attribute that is rendered as it. -/
theorem Writable.readAttribute? {attr : Node.Attribute} (hw : attr.Writable)
    {tokens rest : List Token} (h : tokens.map Token.kind = attr.kinds)
    (hends : EndsAttribute rest) (hequal : ∀ next ∈ rest.head?, next.kind ≠ .operator .equal) :
    ∃ read, Statement.readAttribute? (tokens ++ rest) = .ok (some (read, rest)) ∧
      ∀ scope : Scope, scope.renderAttribute read = attr := by
  obtain ⟨token, more, rfl, hname, hmore⟩ := List.map_eq_cons_iff.1 h
  cases hvalue : attr.value with
  | none =>
    rw [hvalue] at hmore
    obtain rfl := List.map_eq_nil_iff.1 hmore
    refine ⟨_, Statement.readAttribute?_name hname hends hequal, fun scope => ?_⟩
    exact hw.renderAttribute_eq scope hname hvalue.symm (hw.style hvalue).symm
  | some value =>
    rw [hvalue] at hmore
    obtain ⟨equal, tokens, rfl, hsign, htokens⟩ := List.map_eq_cons_iff.1 hmore
    -- Without marks around it, an empty value would not be there at all.
    have hraw : attr.style = .raw → Value.concat value ≠ "" := by
      intro hstyle
      have hne := hw.raw hstyle
      rcases hw.value value hvalue with rfl | ⟨text, hne', rfl⟩
      · exact absurd hvalue hne
      · simpa [Value.concat, Value.toText] using hne'
    obtain ⟨hread, hstyle, htext⟩ := readsValue_of_kinds attr.style hraw htokens hends
    refine ⟨_, Statement.readAttribute?_value hname hsign hread, fun scope => ?_⟩
    refine hw.renderAttribute_eq scope hname ?_ ?_
    · rw [hvalue, ← renderValue_eq scope (hw.value value hvalue) htext]
      rfl
    · exact hstyle

end Node.Attribute

namespace Writing

/-- The tokens of written attributes, up to the bracket that closes their set, are read as
attributes that are rendered as them. -/
theorem readAttributes_of_kinds {attributes : List Node.Attribute}
    (hw : ∀ attr ∈ attributes, attr.Writable) {tokens : List Token} {closing : Token}
    (h : tokens.map Token.kind = attributesKinds attributes)
    (hclosing : closing.kind = .bracket .attributes false) (rest : List Token) :
    ∃ read, readAttributes (tokens ++ closing :: rest) = .ok (read, rest) ∧
      ∀ scope : Scope, read.map scope.renderAttribute = attributes := by
  induction attributes generalizing tokens with
  | nil =>
    obtain rfl := List.map_eq_nil_iff.1 h
    exact ⟨[], Statement.readAttributes_closing hclosing, fun _ => rfl⟩
  | cons attr attributes ih =>
    obtain ⟨hattr, hmore⟩ := List.forall_mem_cons.1 hw
    cases attributes with
    -- The last attribute ends before the bracket, each other one before a space.
    | nil =>
      have hends : EndsAttribute (closing :: rest) := ⟨closing, rest, rfl, .inl hclosing⟩
      obtain ⟨read, hread, hrender⟩ := hattr.readAttribute? h hends (by simp [hclosing])
      refine ⟨[read], ?_, fun scope => ?_⟩
      · rw [Statement.readAttributes_of_readAttribute? hread,
          Statement.readAttributes_closing hclosing]
        rfl
      · rw [List.map_singleton, hrender]
    | cons next attributes =>
      obtain ⟨first, others, rfl, hfirst, hothers⟩ := List.map_eq_append_iff.1 h
      obtain ⟨space, others, rfl, hspace, hothers⟩ := List.map_eq_cons_iff.1 hothers
      have hends : EndsAttribute (space :: (others ++ closing :: rest)) :=
        ⟨space, _, rfl, .inr (.inl ⟨" ", hspace⟩)⟩
      obtain ⟨read, hread, hrender⟩ := hattr.readAttribute? hfirst hends (by simp [hspace])
      obtain ⟨reads, hreads, hrenders⟩ := ih hmore hothers
      refine ⟨read :: reads, ?_, fun scope => ?_⟩
      · rw [List.append_assoc, List.cons_append, Statement.readAttributes_of_readAttribute? hread,
          Statement.readAttributes_blank hspace, hreads]
        rfl
      · rw [List.map_cons, hrender, hrenders]

end Writing

end Shorthand
