import Shorthand.Proofs.Expansion.Unrepeated
import Shorthand.Proofs.Statement.Parts
import Shorthand.Proofs.Statement.Reading
import Shorthand.Proofs.Writing.Attributes

/-!
# Reading written nodes

A written forest expands to the forest itself. Each node is written as a group of its own, whose
only root is the element of the node; the group leaves nothing behind but that element.

## Main definitions

* `ReadsAs`: tokens that are read as a group that stands for a node.

## Main results

* `Node.Writable.readsAs`: the tokens of a written node are read as that node;
* `expand_write`: a written forest expands to itself.
-/

namespace Shorthand

open Statement Writing
open Token (Kind)

/-! ## Elements -/

namespace Writing

variable {tokens rest : List Token}

/-- The tokens of a written set are parts that add attributes which are rendered as those
written. -/
theorem readParts?_set (jsx : Bool) (element : Element) (rest : List Token)
    {attributes : List Node.Attribute} (hw : ∀ attr ∈ attributes, attr.Writable)
    (h : tokens.map Token.kind = setKinds attributes) :
    ∃ read, readParts? jsx true element (tokens ++ rest) =
        readParts? jsx true { element with attributes := element.attributes ++ read } rest ∧
      ∀ scope : Scope, read.map scope.renderAttribute = attributes := by
  unfold setKinds at h
  split at h
  next hempty =>
    obtain rfl := List.map_eq_nil_iff.1 h
    refine ⟨[], ?_, fun scope => ?_⟩
    · rw [List.append_nil, List.nil_append]
    · rw [List.isEmpty_iff.1 hempty, List.map_nil]
  next =>
    obtain ⟨opening, inner, closing, rfl, hopening, hinner, hclosing⟩ := exists_enclosed h
    obtain ⟨read, hread, hrender⟩ := readAttributes_of_kinds hw hinner hclosing rest
    refine ⟨read, ?_, hrender⟩
    rw [List.cons_append, List.append_assoc, List.singleton_append,
      readParts?_of_readPart? (readPart?_attributes hopening hread) (by simp)]
    rfl

/-- The tokens of a written text are a part that gives the element a value which is rendered as that
text. -/
theorem readParts?_text (jsx : Bool) (element : Element) (hnone : element.value = none)
    (rest : List Token) {value : Option (List Value)}
    (hvalue : ∀ text, value = some text → Value.IsText text)
    (h : tokens.map Token.kind = valueKinds value) :
    ∃ read, readParts? jsx true element (tokens ++ rest) =
        readParts? jsx true { element with value := read } rest ∧
      ∀ scope : Scope, read.map scope.renderValue = value := by
  cases value with
  | none =>
    obtain rfl := List.map_eq_nil_iff.1 h
    refine ⟨none, ?_, fun scope => rfl⟩
    rw [List.nil_append, ← hnone]
  | some text =>
    obtain ⟨opening, inner, closing, rfl, hopening, hinner, hclosing⟩ := exists_enclosed h
    refine ⟨some inner, ?_, fun scope => ?_⟩
    · have hplain : ∀ token ∈ inner, ∀ bracket opening, token.kind ≠ .bracket bracket opening := by
        intro token hmem
        simp [kind_of_mem hinner hmem]
      have hbraced : Braced opening inner closing := ⟨hopening, hplain, hclosing⟩
      rw [List.cons_append, List.append_assoc, List.singleton_append,
        readParts?_of_readPart? (hbraced.readPart? hnone) (by simp)]
      rfl
    · rw [Option.map_some, renderValue_eq scope (hvalue text rfl) hinner]

/-- The token of the mark of an element that closes itself is its last part. -/
theorem readParts?_mark (jsx : Bool) {element : Element} (hnone : element.repeater = none)
    (hopen : element.selfClosing = false) (hends : EndsElement rest) {selfClosing : Bool}
    (h : tokens.map Token.kind = closeKinds selfClosing) :
    readParts? jsx true element (tokens ++ rest) =
      .ok (some ({ element with selfClosing }, rest)) := by
  unfold closeKinds at h
  split at h
  next hclose =>
    obtain ⟨token, rfl, hkind⟩ := List.map_eq_singleton_iff.1 h
    rw [List.singleton_append, readParts?_of_close (readPart?_close hkind), Element.close]
    simp [Element.add, hnone, hends.readRepeater, hclose]
  next hclose =>
    obtain rfl := List.map_eq_nil_iff.1 h
    rw [List.nil_append, readParts?_of_none hends.readPart?, Bool.eq_false_iff.2 hclose, ← hopen]

/-- The name of an element ends before these tokens: no part of a name and no dot comes next. -/
def EndsName (tokens : List Token) : Prop :=
  ∀ token ∈ tokens.head?, isNamePart token = false ∧ token.kind ≠ .operator .className

/-- Brackets and slashes end a name. -/
theorem endsName_cons {token : Token}
    (h : (∃ bracket opening, token.kind = .bracket bracket opening) ∨
      token.kind = .operator .close ∨ token.kind = .operator .child) :
    EndsName (token :: tokens) := by
  intro first hfirst
  obtain rfl : token = first := Option.some.inj hfirst
  obtain ⟨bracket, opening, hkind⟩ | hkind | hkind := h
  · simp [isNamePart, hkind]
  · simp [isNamePart, hkind]
  · simp [isNamePart, hkind]

/-- The name of a written element ends before its attributes, its text, its mark, or what follows
it. -/
theorem endsName_parts {node : Node} {set text mark : List Token}
    (hset : set.map Token.kind = setKinds node.attributes)
    (htext : text.map Token.kind = valueKinds node.value)
    (hmark : mark.map Token.kind = closeKinds node.selfClosing) (hends : EndsElement rest) :
    EndsName (set ++ (text ++ (mark ++ rest))) := by
  -- The first of the three that has tokens comes next, else what follows the element.
  cases set with
  | cons token set =>
    unfold setKinds at hset
    split at hset
    next => simp at hset
    next => exact endsName_cons (.inl ⟨_, _, (List.cons.inj hset).1⟩)
  | nil =>
    cases text with
    | cons token text =>
      cases hvalue : node.value with
      | none => simp [hvalue, valueKinds] at htext
      | some value =>
        rw [hvalue] at htext
        exact endsName_cons (.inl ⟨_, _, (List.cons.inj htext).1⟩)
    | nil =>
      cases mark with
      | cons token mark =>
        unfold closeKinds at hmark
        split at hmark
        next => exact endsName_cons (.inr (.inl (List.cons.inj hmark).1))
        next => simp at hmark
      | nil =>
        obtain ⟨token, more, rfl, hkind | hkind⟩ := hends
        · exact endsName_cons (.inr (.inr hkind))
        · exact endsName_cons (.inl ⟨_, _, hkind⟩)

/-- The tokens of a written element are read as an element that stands for the node, with whatever
stands below it. -/
theorem readElement?_of_kinds (jsx : Bool) {node : Node} {name : Token} {written : String}
    (hwritten : node.name = some written) (hname : name.kind = .literal written)
    (hvalue : ∀ value, node.value = some value → Value.IsText value)
    (hattributes : ∀ attr ∈ node.attributes, attr.Writable)
    {set text mark : List Token} (hset : set.map Token.kind = setKinds node.attributes)
    (htext : text.map Token.kind = valueKinds node.value)
    (hmark : mark.map Token.kind = closeKinds node.selfClosing) (hends : EndsElement rest) :
    ∃ head, readElement? jsx (name :: (set ++ (text ++ (mark ++ rest)))) = .ok (some (head, rest)) ∧
      RendersAs head node := by
  -- Attributes and text are added to the element one after the other, the mark is the last part.
  obtain ⟨attributes, hread, hrender⟩ := readParts?_set jsx { name := some [name] }
    (text ++ (mark ++ rest)) hattributes hset
  obtain ⟨value, hread', hrender'⟩ := readParts?_text jsx
    { name := some [name], attributes := [] ++ attributes } rfl (mark ++ rest) hvalue htext
  refine ⟨{ name := some [name], attributes, value, selfClosing := node.selfClosing }, ?_,
    ⟨rfl, rfl, fun scope => ?_, hrender', hrender⟩⟩
  · rw [readElement?_of_literal hname (endsName_parts hset htext hmark hends), hread, hread',
      readParts?_mark jsx rfl rfl hends hmark]
    rfl
  · simp [Scope.renderName, Scope.render, hname, hwritten]

/-! ## Groups -/

/-- A level ends before these tokens: they are none, or a closing bracket comes next. -/
def EndsLevel (tokens : List Token) : Prop :=
  ∀ token ∈ tokens.head?, token.kind = .bracket .group false

theorem EndsLevel.readRepeater (h : EndsLevel tokens) : readRepeater tokens = (none, tokens) := by
  cases tokens with
  | nil => rfl
  | cons token tokens => exact readRepeater_of_ne (by simp [h token rfl])

theorem EndsLevel.follows (h : EndsLevel tokens) : Link.beside.Follows tokens tokens :=
  .nothing fun token hmem => by simp [h token hmem]

/-- Wherever they stand, the tokens are read as a group without a repeater that stands for the
node. -/
def ReadsAs (jsx : Bool) (tokens : List Token) (node : Node) : Prop :=
  ∀ {rest behind last : List Token} {link : Link} {items : List Item},
    readRepeater rest = (none, rest) → link.Follows rest behind → Reads jsx behind items last →
      ∃ inside, Reads jsx (tokens ++ rest) (.group inside none link :: items) last ∧
        StandsFor (.group none (ofOutline (Item.outline 0 inside))) [node]

/-- The tokens of written nodes are read as groups beside each other, if those of each node are read
as that node. -/
theorem exists_reads_of_forall {jsx : Bool} {nodes : List Node}
    (h : ∀ node ∈ nodes, ∀ tokens, tokens.map Token.kind = nodeKinds node → ReadsAs jsx tokens node)
    (htokens : tokens.map Token.kind = nodesKinds nodes) (hends : EndsLevel rest) :
    ∃ items, Reads jsx (tokens ++ rest) items rest ∧ (∀ item ∈ items, item.link = .beside) ∧
      Expands (items.map Item.statement) nodes := by
  induction nodes generalizing tokens with
  | nil =>
    rw [nodesKinds] at htokens
    obtain rfl := List.map_eq_nil_iff.1 htokens
    exact ⟨[], .nil rest, by simp, .nil⟩
  | cons node nodes ih =>
    obtain ⟨hnode, hmore⟩ := List.forall_mem_cons.1 h
    cases nodes with
    | nil =>
      rw [nodesKinds] at htokens
      obtain ⟨inside, hreads, hstands⟩ :=
        hnode tokens htokens hends.readRepeater hends.follows (.nil rest)
      refine ⟨[.group inside none .beside], hreads, by simp [Item.link], ?_⟩
      rw [List.map_singleton, Item.statement]
      exact .cons hstands .nil
    | cons next nodes =>
      rw [nodesKinds] at htokens
      obtain ⟨first, others, rfl, hfirst, hothers⟩ := List.map_eq_append_iff.1 htokens
      obtain ⟨plus, others, rfl, hplus, hothers⟩ := List.map_eq_cons_iff.1 hothers
      obtain ⟨items, hreads, hlinks, hexpands⟩ := ih hmore hothers
      obtain ⟨inside, hreads', hstands⟩ := hnode first hfirst
        (readRepeater_of_ne (by simp [hplus])) (.sibling hplus) hreads
      refine ⟨.group inside none .beside :: items, ?_, ?_, ?_⟩
      · rw [List.append_assoc, List.cons_append]
        exact hreads'
      · exact List.forall_mem_cons.2 ⟨rfl, hlinks⟩
      · rw [List.map_cons, Item.statement]
        exact .cons hstands hexpands

/-- A written element ends before the nodes below it and before the end of its group. -/
theorem endsElement_below {children : List Node} {closing : Token}
    (htokens : tokens.map Token.kind = belowKinds children)
    (hclosing : closing.kind = .bracket .group false) (rest : List Token) :
    EndsElement (tokens ++ closing :: rest) := by
  unfold belowKinds at htokens
  split at htokens
  next =>
    obtain rfl := List.map_eq_nil_iff.1 htokens
    exact ⟨closing, rest, rfl, .inr hclosing⟩
  next =>
    obtain ⟨mark, others, rfl, hmark, -⟩ := List.map_eq_cons_iff.1 htokens
    exact ⟨mark, _, rfl, .inl hmark⟩

/-- The tokens below a written element are read as statements one level deeper, which stand for the
children of the node. -/
theorem exists_reads_below {jsx : Bool} {children : List Node}
    (h : ∀ child ∈ children, ∀ tokens, tokens.map Token.kind = nodeKinds child →
      ReadsAs jsx tokens child)
    (htokens : tokens.map Token.kind = belowKinds children) (head : Element) {closing : Token}
    (hclosing : closing.kind = .bracket .group false) (rest : List Token) :
    ∃ link items behind statements, link.Follows (tokens ++ closing :: rest) behind ∧
      Reads jsx behind items (closing :: rest) ∧ Expands statements children ∧
      ofOutline (Item.outline 0 (.element head link :: items)) = [.element head statements] := by
  have hends : EndsLevel (closing :: rest) := by simpa [EndsLevel] using hclosing
  unfold belowKinds at htokens
  split at htokens
  next hempty =>
    obtain rfl := List.map_eq_nil_iff.1 htokens
    rw [List.isEmpty_iff.1 hempty]
    refine ⟨.beside, [], _, [], hends.follows, .nil _, .nil, ?_⟩
    rw [Item.outline, Item.outline, Item.statement]
    exact ofOutline_below head []
  next =>
    obtain ⟨mark, others, rfl, hmark, hothers⟩ := List.map_eq_cons_iff.1 htokens
    obtain ⟨items, hreads, hlinks, hexpands⟩ := exists_reads_of_forall h hothers hends
    refine ⟨.below, items, _, items.map Item.statement, .child hmark, hreads, hexpands, ?_⟩
    rw [Item.outline, Item.statement, Item.link, Link.next, Item.outline_of_beside _ hlinks]
    exact ofOutline_below head _

end Writing

/-- The tokens of a written node are read as that node. -/
theorem Node.Writable.readsAs {node : Node} (hw : node.Writable) (jsx : Bool) (tokens : List Token)
    (h : tokens.map Token.kind = nodeKinds node) : ReadsAs jsx tokens node := by
  -- The children are groups inside the group of the node, at depth one below its element.
  induction hw generalizing tokens with
  | @intro node hname hnone hvalue hattributes hleaf hchildren ih =>
    intro rest behind last link items hrepeater hlink hmore
    obtain ⟨written, hwritten, -⟩ := hname
    rw [nodeKinds_eq, hwritten] at h
    obtain ⟨opening, tokens, rfl, hopening, h⟩ := List.map_eq_cons_iff.1 h
    obtain ⟨name, tokens, rfl, hname, h⟩ := List.map_eq_cons_iff.1 h
    obtain ⟨set, tokens, rfl, hset, h⟩ := List.map_eq_append_iff.1 h
    obtain ⟨text, tokens, rfl, htext, h⟩ := List.map_eq_append_iff.1 h
    obtain ⟨mark, tokens, rfl, hmark, h⟩ := List.map_eq_append_iff.1 h
    obtain ⟨below, tokens, rfl, hbelow, h⟩ := List.map_eq_append_iff.1 h
    obtain ⟨closing, rfl, hclosing⟩ := List.map_eq_singleton_iff.1 h
    -- The element of the node comes first in the group, and its children are all below it.
    have hends := endsElement_below hbelow hclosing rest
    obtain ⟨head, hread, hrenders⟩ :=
      readElement?_of_kinds jsx hwritten hname hvalue hattributes hset htext hmark hends
    obtain ⟨link', inside, behind', statements, hlink', hinside, hexpands, houtline⟩ :=
      exists_reads_below ih hbelow head hclosing rest
    refine ⟨.element head link' :: inside, ?_, ?_⟩
    · simp only [List.cons_append, List.append_assoc, List.nil_append]
      exact .group hopening (.element hread hlink' hinside) hclosing hrepeater hlink hmore
    · rw [houtline]
      have hnode : StandsFor (.element head statements) [node] :=
        standsFor_element hrenders hwritten hnone hleaf hexpands
      have hgroup := Expands.cons hnode .nil
      exact standsFor_group hgroup

/-- Writing a forest of nodes and expanding the abbreviation gives the forest back, if no text is
supplied. -/
theorem expand_write (options : Options) (htext : options.text = none) (forest : List Node)
    (hw : ∀ node ∈ forest, node.Writable) : expand options (write forest) = .ok forest := by
  obtain ⟨tokens, htokens, hkinds⟩ := exists_tokenize_write hw
  have hends : EndsLevel [] := by simp [EndsLevel]
  obtain ⟨items, hreads, hlinks, hexpands⟩ :=
    exists_reads_of_forall (fun node hmem => (hw node hmem).readsAs options.jsx) hkinds hends
  rw [List.append_nil] at hreads
  rw [expand, parse, htokens]
  dsimp only
  rw [hreads.ofTokens_eq, Item.outline_of_beside 0 hlinks, ofOutline_beside]
  exact congrArg Except.ok (hexpands.convert_eq htext)

/-- A node with a quotation mark in an attribute and a brace and a dollar sign in its text, and a
child that closes itself. -/
theorem expand_write_nested :
    expand {} "(\\p[!\\b.=\x27\\i\\t\\\x27\\s\x27]\x7b\\a\\\x7b\\$\x7d>(\\b\\r/))" =
      .ok [⟨some "p", some [.text "a\x7b$"], [⟨some "b", some [.text "it\x27s"], .singleQuote, true,
        true⟩], none, false, [⟨some "br", none, [], none, true, []⟩]⟩] := by
  have hchild : Node.Writable ⟨some "br", none, [], none, true, []⟩ :=
    .intro ⟨"br", rfl, by decide⟩ rfl (by simp) (by simp) (fun _ => rfl) (by simp)
  have hattr :
      Node.Attribute.Writable ⟨some "b", some [.text "it\x27s"], .singleQuote, true, true⟩ :=
    { name := ⟨"b", rfl, by decide, by decide, by decide⟩
      value := by
        rintro _ ⟨⟩
        exact .inr ⟨_, by decide, rfl⟩
      style := by simp
      raw := by simp }
  have hnode : Node.Writable ⟨some "p", some [.text "a\x7b$"], [⟨some "b", some [.text "it\x27s"],
      .singleQuote, true, true⟩], none, false, [⟨some "br", none, [], none, true, []⟩]⟩ := by
    refine .intro ⟨"p", rfl, by decide⟩ rfl ?_ (by simpa using hattr) (by simp)
      (by simpa using hchild)
    rintro _ ⟨⟩
    exact .inr ⟨_, by decide, rfl⟩
  refine Eq.trans (congrArg (expand {}) ?_) (expand_write {} rfl [_] (by simpa using hnode))
  decide +kernel

end Shorthand
