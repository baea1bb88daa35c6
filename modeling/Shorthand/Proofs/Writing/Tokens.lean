import Shorthand.Proofs.Token.Yields
import Shorthand.Proofs.Writing.Written

/-!
# Tokens of written nodes

What kinds of tokens a written forest has, and that reading it yields them. A written name or text
is one literal, because backslashes keep every character of it plain, whatever is open around it.

## Main definitions

* `nodeKinds`: the kinds of the tokens of a written node.

## Main results

* `Node.Attribute.Writable.yields`: what a written attribute yields;
* `Node.Writable.yields`: what a written node yields;
* `yields_ofNodes`: what a written forest yields.
-/

namespace Shorthand

open Literal (Plain Stops)
open Token (Kind Yields)

/-! ## Kinds -/

namespace Writing

/-- The token of an escaped text, if the text is not empty. -/
def textKinds (text : String) : List Kind :=
  if text.isEmpty then [] else [.literal text]

end Writing

namespace Node.Attribute

/-- The tokens before a value that is written in this style. -/
def Style.openingKinds : Style → List Kind
  | .raw => []
  | .singleQuote => [.quote .single]
  | .doubleQuote => [.quote .double]
  | .expression => [.bracket .expression true]

/-- The tokens behind a value that is written in this style. -/
def Style.closingKinds : Style → List Kind
  | .raw => []
  | .singleQuote => [.quote .single]
  | .doubleQuote => [.quote .double]
  | .expression => [.bracket .expression false]

/-- What is open inside a value that is written in this style. -/
def Style.inside : Style → Context
  | .raw => { sets := 1 }
  | .singleQuote => { sets := 1, quote := some .single }
  | .doubleQuote => { sets := 1, quote := some .double }
  | .expression => { sets := 1, braces := 1 }

/-- The name between its marks. -/
def marked (attr : Node.Attribute) : List Char :=
  attr.leading ++ ((attr.name.getD "").toList ++ attr.trailing)

/-- The tokens of an attribute. -/
def kinds (attr : Node.Attribute) : List Kind :=
  .literal (String.ofList attr.marked) ::
    match attr.value with
    | none => []
    | some value => .operator .equal :: (attr.style.openingKinds ++
        (Writing.textKinds (Value.concat value) ++ attr.style.closingKinds))

end Node.Attribute

namespace Writing

/-- The tokens of attributes with a space between each and the next one. -/
def attributesKinds : List Node.Attribute → List Kind
  | [] => []
  | [attr] => attr.kinds
  | attr :: next :: attributes => attr.kinds ++ .blank " " :: attributesKinds (next :: attributes)

/-- The tokens of the set of the attributes of an element. -/
def setKinds (attributes : List Node.Attribute) : List Kind :=
  if attributes.isEmpty then []
  else .bracket .attributes true :: (attributesKinds attributes ++ [.bracket .attributes false])

/-- The tokens of the text of an element. -/
def valueKinds : Option (List Value) → List Kind
  | none => []
  | some value =>
    .bracket .expression true :: (textKinds (Value.concat value) ++ [.bracket .expression false])

/-- The token of the mark of an element that closes itself. -/
def closeKinds (selfClosing : Bool) : List Kind :=
  if selfClosing then [.operator .close] else []

mutual

/-- The tokens of a node. -/
def nodeKinds : Node → List Kind
  | ⟨name, value, attributes, _, selfClosing, children⟩ =>
    .bracket .group true :: .literal (name.getD "") :: (setKinds attributes ++ (valueKinds value ++
      (closeKinds selfClosing ++
        ((if children.isEmpty then [] else .operator .child :: nodesKinds children) ++
          [.bracket .group false]))))

/-- The tokens of nodes with a plus sign between each and the next one. -/
def nodesKinds : List Node → List Kind
  | [] => []
  | [node] => nodeKinds node
  | node :: next :: nodes => nodeKinds node ++ .operator .sibling :: nodesKinds (next :: nodes)

end

/-- The tokens of the nodes below an element. -/
def belowKinds (children : List Node) : List Kind :=
  if children.isEmpty then [] else .operator .child :: nodesKinds children

theorem nodeKinds_eq (node : Node) :
    nodeKinds node = .bracket .group true :: .literal (node.name.getD "") ::
      (setKinds node.attributes ++ (valueKinds node.value ++ (closeKinds node.selfClosing ++
        (belowKinds node.children ++ [.bracket .group false])))) := by
  obtain ⟨name, value, attributes, repeater, selfClosing, children⟩ := node
  rw [nodeKinds, belowKinds]

/-! ## Escaped texts -/

variable {context : Context} {rest : List Char}

/-- An escaped text is plain, wherever it stands. -/
theorem plain_escape (text : String) {tail value : List Char} (h : Plain context tail value rest) :
    Plain context (escape text ++ tail) (text.toList ++ value) rest :=
  h.escaped text.toList

/-- An escaped text yields at most one literal. -/
theorem yields_escape (text : String) (h : Stops context rest) :
    Yields context (escape text ++ rest) (textKinds text) context rest := by
  by_cases hempty : text = ""
  · subst hempty
    exact .nil context rest
  · have hplain := plain_escape text h
    have hhead := head?_escape_append hempty []
    rw [List.append_nil] at hplain hhead
    rw [List.append_nil] at hplain
    have hyields := Token.yields_literal hplain hhead (by decide) (by decide) (by decide)
    rw [String.ofList_toList] at hyields
    rw [textKinds, if_neg (by simpa using hempty)]
    exact hyields

end Writing

/-! ## Attributes -/

namespace Node.Attribute

open Writing

variable {rest : List Char}

/-- Inside an attribute set, the name of an attribute with its marks is plain. -/
theorem plain_marked (attr : Node.Attribute) (h : Stops { sets := 1 } rest) :
    Plain { sets := 1 } (attr.leading ++ (escape (attr.name.getD "") ++ attr.trailing))
      attr.marked rest := by
  have htrailing : Plain { sets := 1 } attr.trailing attr.trailing rest := by
    unfold trailing
    split
    next => exact h.keep (by decide) (by rfl) rfl
    next => exact h
  have hname := plain_escape (attr.name.getD "") htrailing
  unfold marked leading
  split
  next => exact hname.keep (by decide) (by rfl) rfl
  next => exact hname

/-- A written attribute begins with an exclamation mark or a backslash. -/
theorem Writable.head?_name {attr : Node.Attribute} (hw : attr.Writable) (tail : List Char) :
    (attr.leading ++ (escape (attr.name.getD "") ++ tail)).head? =
      some (if attr.implied then '!' else '\\') := by
  obtain ⟨name, hname, hne, -, -⟩ := hw.name
  have hhead := head?_escape_append hne tail
  by_cases himplied : attr.implied = true
  · simp [leading, himplied]
  · simpa [leading, himplied, hname] using hhead

/-- The name of an attribute yields one literal. -/
theorem Writable.yields_name {attr : Node.Attribute} (hw : attr.Writable)
    (h : Stops { sets := 1 } rest) :
    Yields { sets := 1 } (attr.leading ++ (escape (attr.name.getD "") ++ (attr.trailing ++ rest)))
      [.literal (String.ofList attr.marked)] { sets := 1 } rest := by
  have hplain := attr.plain_marked h
  have hhead := hw.head?_name attr.trailing
  rw [← List.append_assoc, ← List.append_assoc, List.append_assoc attr.leading]
  refine Token.yields_literal hplain hhead ?_ ?_ ?_
  · split <;> decide
  · split <;> decide
  · split <;> decide

/-- What stands before a value leads inside it. -/
theorem Style.yields_opening (style : Style) (rest : List Char) :
    Yields { sets := 1 } (style.opening ++ rest) style.openingKinds style.inside rest := by
  cases style with
  | raw => exact .nil _ rest
  | singleQuote => exact Token.yields_quote .single (Literal.stops_cons rfl)
  | doubleQuote => exact Token.yields_quote .double (Literal.stops_cons rfl)
  | expression => exact Token.yields_bracket .expression true (Literal.stops_cons rfl)

/-- What stands behind a value leads out of it again. -/
theorem Style.yields_closing (style : Style) (rest : List Char) :
    Yields style.inside (style.closing ++ rest) style.closingKinds { sets := 1 } rest := by
  cases style with
  | raw => exact .nil _ rest
  | singleQuote => exact Token.yields_quote .single (Literal.stops_cons rfl)
  | doubleQuote => exact Token.yields_quote .double (Literal.stops_cons rfl)
  | expression => exact Token.yields_bracket .expression false (Literal.stops_cons rfl)

/-- A value ends before what stands behind it. -/
theorem Style.stops_closing (style : Style) (h : Stops { sets := 1 } rest) :
    Stops style.inside (style.closing ++ rest) := by
  cases style with
  | raw => exact h
  | singleQuote => exact Literal.stops_cons rfl
  | doubleQuote => exact Literal.stops_cons rfl
  | expression => exact Literal.stops_cons rfl

/-- A written attribute yields its tokens. -/
theorem Writable.yields {attr : Node.Attribute} (hw : attr.Writable)
    (h : Stops { sets := 1 } rest) :
    Yields { sets := 1 } (attr.written ++ rest) attr.kinds { sets := 1 } rest := by
  rw [written, kinds]
  simp only [List.append_assoc]
  cases hvalue : attr.value with
  | none => exact hw.yields_name h
  | some value =>
    have hequal : Stops { sets := 1 } ('=' :: (attr.style.opening ++
        (escape (Value.concat value) ++ (attr.style.closing ++ rest)))) := Literal.stops_cons rfl
    have hyields := ((attr.style.yields_opening _).append
      ((yields_escape (Value.concat value) (attr.style.stops_closing h)).append
        (attr.style.yields_closing rest)))
    simp only [List.cons_append, List.append_assoc]
    exact (hw.yields_name hequal).cons ((Token.yields_operator .equal hequal).cons hyields)

end Node.Attribute

namespace Writing

variable {rest : List Char}

/-- Written attributes begin with the name of the first one. -/
theorem exists_ofAttributes_cons (attr : Node.Attribute) (attributes : List Node.Attribute)
    (rest : List Char) : ∃ tail, ofAttributes (attr :: attributes) ++ rest =
      attr.leading ++ (escape (attr.name.getD "") ++ tail) := by
  cases attributes with
  | nil =>
    rw [ofAttributes, Node.Attribute.written, List.append_assoc, List.append_assoc]
    exact ⟨_, rfl⟩
  | cons next attributes =>
    rw [ofAttributes, Node.Attribute.written, List.append_assoc, List.append_assoc,
      List.append_assoc]
    exact ⟨_, rfl⟩

/-- Written attributes yield their tokens, up to the bracket behind them. -/
theorem yields_ofAttributes {attributes : List Node.Attribute}
    (hw : ∀ attr ∈ attributes, attr.Writable) (h : Stops { sets := 1 } rest) :
    Yields { sets := 1 } (ofAttributes attributes ++ rest) (attributesKinds attributes)
      { sets := 1 } rest := by
  induction attributes with
  | nil => exact .nil _ rest
  | cons attr attributes ih =>
    obtain ⟨hattr, hmore⟩ := List.forall_mem_cons.1 hw
    cases attributes with
    | nil => exact hattr.yields h
    | cons next attributes =>
      obtain ⟨tail, htail⟩ := exists_ofAttributes_cons next attributes rest
      -- The space is a blank by itself: an exclamation mark or a backslash follows it.
      have hspace : (ofAttributes (next :: attributes) ++ rest).head?.any Text.isSpace = false := by
        rw [htail, (List.forall_mem_cons.1 hmore).1.head?_name]
        split <;> rfl
      rw [ofAttributes, attributesKinds, List.append_assoc, List.cons_append]
      exact (hattr.yields (Literal.stops_cons rfl)).append
        ((Token.yields_space hspace).cons (ih hmore))

/-- The written set of the attributes of an element yields its tokens. -/
theorem yields_ofSet {attributes : List Node.Attribute} (hw : ∀ attr ∈ attributes, attr.Writable)
    (rest : List Char) : Yields {} (ofSet attributes ++ rest) (setKinds attributes) {} rest := by
  unfold ofSet setKinds
  split
  next => exact .nil _ rest
  next =>
    have hclosing : Stops { sets := 1 } (']' :: rest) := Literal.stops_cons rfl
    have hopening : Stops {} ('[' :: (ofAttributes attributes ++ ']' :: rest)) :=
      Literal.stops_cons rfl
    simp only [List.cons_append, List.append_assoc, List.nil_append]
    exact (Token.yields_bracket .attributes true hopening).cons
      ((yields_ofAttributes hw hclosing).append (Token.yields_bracket .attributes false hclosing))

/-- The written text of an element yields its tokens. -/
theorem yields_ofText (value : Option (List Value)) (rest : List Char) :
    Yields {} (ofText value ++ rest) (valueKinds value) {} rest := by
  cases value with
  | none => exact .nil _ rest
  | some value =>
    have hclosing : Stops { braces := 1 } ('}' :: rest) := Literal.stops_cons rfl
    have hopening : Stops {} ('{' :: (escape (Value.concat value) ++ '}' :: rest)) :=
      Literal.stops_cons rfl
    simp only [ofText, valueKinds, List.cons_append, List.append_assoc, List.nil_append]
    exact (Token.yields_bracket .expression true hopening).cons
      ((yields_escape _ hclosing).append (Token.yields_bracket .expression false hclosing))

/-! ## Nodes -/

/-- No name goes on over the nodes below an element or the end of its group. -/
theorem stops_ofBelow (children : List Node) (rest : List Char) :
    Stops {} (ofBelow children ++ ')' :: rest) := by
  unfold ofBelow
  split
  next => exact Literal.stops_cons rfl
  next => exact Literal.stops_cons rfl

/-- No name goes on over a slash behind an element: no digit follows it. -/
theorem stops_ofClose (selfClosing : Bool) (children : List Node) (rest : List Char) :
    Stops {} (ofClose selfClosing ++ (ofBelow children ++ ')' :: rest)) := by
  unfold ofClose
  split
  next =>
    refine Literal.stops_slash ?_
    unfold ofBelow
    split <;> rfl
  next => exact stops_ofBelow children rest

/-- The name of an element ends where it should. -/
theorem stops_behind_name (node : Node) (rest : List Char) :
    Stops {} (ofSet node.attributes ++ (ofText node.value ++ (ofClose node.selfClosing ++
      (ofBelow node.children ++ ')' :: rest)))) := by
  have hclose := stops_ofClose node.selfClosing node.children rest
  have htext : Stops {} (ofText node.value ++ (ofClose node.selfClosing ++
      (ofBelow node.children ++ ')' :: rest))) := by
    cases node.value with
    | none => exact hclose
    | some value => exact Literal.stops_cons rfl
  unfold ofSet
  split
  next => exact htext
  next => exact Literal.stops_cons rfl

/-- The mark of an element that closes itself yields its token. -/
theorem yields_ofClose (selfClosing : Bool) (children : List Node) (rest : List Char) :
    Yields {} (ofClose selfClosing ++ (ofBelow children ++ ')' :: rest)) (closeKinds selfClosing) {}
      (ofBelow children ++ ')' :: rest) := by
  have hstops := stops_ofClose selfClosing children rest
  unfold ofClose closeKinds at *
  split
  next hclose =>
    rw [if_pos hclose] at hstops
    exact Token.yields_operator .close hstops
  next => exact .nil _ _

/-- Written nodes yield their tokens if each of them does. -/
theorem yields_ofNodes_of_forall {nodes : List Node}
    (h : ∀ node ∈ nodes, ∀ rest, Yields {} (ofNode node ++ rest) (nodeKinds node) {} rest)
    (rest : List Char) : Yields {} (ofNodes nodes ++ rest) (nodesKinds nodes) {} rest := by
  induction nodes with
  | nil =>
    rw [ofNodes, nodesKinds]
    exact .nil _ rest
  | cons node nodes ih =>
    obtain ⟨hnode, hmore⟩ := List.forall_mem_cons.1 h
    cases nodes with
    | nil =>
      rw [ofNodes, nodesKinds]
      exact hnode rest
    | cons next nodes =>
      rw [ofNodes, nodesKinds, List.append_assoc, List.cons_append]
      have hmark : Stops {} ('+' :: (ofNodes (next :: nodes) ++ rest)) := Literal.stops_cons rfl
      exact (hnode _).append ((Token.yields_operator .sibling hmark).cons (ih hmore))

end Writing

open Writing

/-- A written node yields its tokens. -/
theorem Node.Writable.yields {node : Node} (hw : node.Writable) (rest : List Char) :
    Yields {} (ofNode node ++ rest) (nodeKinds node) {} rest := by
  -- Each child is a group of its own, so it yields its tokens wherever it stands.
  induction hw generalizing rest with
  | @intro node hname _ _ hattributes _ _ ih =>
    have hbelow : Yields {} (ofBelow node.children ++ ')' :: rest) (belowKinds node.children) {}
        (')' :: rest) := by
      unfold ofBelow belowKinds
      split
      next => exact .nil _ _
      next =>
        have hmark : Stops {} ('>' :: (ofNodes node.children ++ ')' :: rest)) :=
          Literal.stops_cons rfl
        exact (Token.yields_operator .child hmark).cons (yields_ofNodes_of_forall ih _)
    have hclosing : Yields {} (')' :: rest) [.bracket .group false] {} rest :=
      Token.yields_bracket .group false (Literal.stops_cons rfl)
    have hparts := ((yields_ofSet hattributes _).append ((yields_ofText node.value _).append
      ((yields_ofClose node.selfClosing node.children rest).append (hbelow.append hclosing))))
    have hopening : Stops {} ('(' :: (escape (node.name.getD "") ++ (ofSet node.attributes ++
        (ofText node.value ++ (ofClose node.selfClosing ++ (ofBelow node.children ++
          ')' :: rest)))))) := Literal.stops_cons rfl
    have hnamed := yields_escape (node.name.getD "") (stops_behind_name node rest)
    obtain ⟨name, hsome, hne⟩ := hname
    rw [textKinds, if_neg (by simpa [hsome] using hne)] at hnamed
    rw [ofNode_eq, nodeKinds_eq]
    simp only [List.cons_append, List.append_assoc, List.nil_append]
    exact (Token.yields_bracket .group true hopening).cons (hnamed.cons hparts)

/-- A written forest yields its tokens. -/
theorem Writing.yields_ofNodes {forest : List Node} (hw : ∀ node ∈ forest, node.Writable)
    (rest : List Char) : Yields {} (ofNodes forest ++ rest) (nodesKinds forest) {} rest :=
  yields_ofNodes_of_forall (fun node hmem => (hw node hmem).yields) rest

/-- The tokens of a written forest. -/
theorem Writing.exists_tokenize_write {forest : List Node} (hw : ∀ node ∈ forest, node.Writable) :
    ∃ tokens, Token.tokenize (write forest) = .ok tokens ∧
      tokens.map Token.kind = nodesKinds forest := by
  have hyields := yields_ofNodes hw []
  rw [List.append_nil] at hyields
  have hwrite : (write forest).toList = ofNodes forest := String.toList_ofList
  rw [← hwrite] at hyields
  exact hyields.exists_tokenize

end Shorthand
