import Shorthand.Proofs.Statement.EarliestFault
import Shorthand.Proofs.Statement.Locality.Endings

/-!
# Dotted names and expressions as an extension

Where they are allowed, a name may be a dotted path of capitalized literals, and a short attribute
may have an expression in braces for its value. Both are told from a few tokens in a row: a dot
between two capitalized literals, and an opening brace directly behind the mark of a short
attribute. Where neither stands among the tokens, it makes no difference whether they are allowed.
This also holds of tokens that are rejected, and of capitalized names that go on with a numbering:
a path is then only its first literal, which belongs to the name in either case.

## Main definitions

* `HasDottedPath`, `HasShortExpression`: tokens with a meaning of their own where it is allowed;
* `Plain`: tokens among which there are none of these.

## Main results

* `readName_of_plain`, `readShort_of_plain`: plain tokens begin with the same name and the same
  short attribute;
* `readElement?_of_plain`: they begin with the same element, or are faulty in the same way;
* `ofTokens_of_plain`: they are the same statements, or the same error.
-/

namespace Shorthand.Statement

variable {present : Bool} {element : Element} {tokens rest : List Token} {token : Token}

/-! ## Plain tokens -/

/-- Somewhere among the tokens a dot stands between two capitalized literals. -/
def HasDottedPath (tokens : List Token) : Prop :=
  ∃ first dot second, [first, dot, second] <:+: tokens ∧ isCapitalized first = true ∧
    dot.kind = .operator .className ∧ isCapitalized second = true

/-- Somewhere among the tokens an opening brace stands directly behind the mark of a class or an
id. -/
def HasShortExpression (tokens : List Token) : Prop :=
  ∃ mark opening, [mark, opening] <:+: tokens ∧
    (mark.kind = .operator .className ∨ mark.kind = .operator .idName) ∧
    opening.kind = .bracket .expression true

/-- Nothing among the tokens has a meaning of its own where dotted names and expressions are
allowed. -/
structure Plain (tokens : List Token) : Prop where
  path : ¬HasDottedPath tokens
  expression : ¬HasShortExpression tokens

/-- What plain tokens end with is plain. -/
theorem Plain.of_suffix (h : Plain tokens) (hsuffix : rest <:+ tokens) : Plain rest where
  path := fun ⟨first, dot, second, hinfix, hpath⟩ =>
    h.path ⟨first, dot, second, hinfix.trans hsuffix.isInfix, hpath⟩
  expression := fun ⟨mark, opening, hinfix, hexpression⟩ =>
    h.expression ⟨mark, opening, hinfix.trans hsuffix.isInfix, hexpression⟩

theorem Plain.tail (h : Plain (token :: tokens)) : Plain tokens :=
  h.of_suffix (List.suffix_cons token tokens)

/-- No path goes on behind a capitalized literal. -/
theorem Plain.not_goesOn (h : Plain (token :: tokens)) (hcapital : isCapitalized token = true) :
    ¬GoesOn tokens := by
  rintro ⟨dot, part, more, rfl, hdot, hpart⟩
  exact h.path ⟨token, dot, part, ⟨[], more, rfl⟩, hcapital, hdot, hpart⟩

/-- No text begins behind the mark of a short attribute. -/
theorem Plain.readText?_eq_none (h : Plain (token :: tokens))
    (hmark : token.kind = .operator .className ∨ token.kind = .operator .idName) :
    readText? tokens = none := by
  refine readText?_eq_none_iff.2 fun opening hmem hopening => ?_
  obtain ⟨more, rfl⟩ := List.head?_eq_some_iff.1 hmem
  exact h.expression ⟨token, opening, ⟨[], more, rfl⟩, hmark, hopening⟩

/-! ## Elements -/

/-- Plain tokens begin with the same name. A path is only its first literal, which could stand in
any name. -/
theorem readName_of_plain (h : Plain tokens) : readName true tokens = readName false tokens := by
  cases tokens with
  | nil => rfl
  | cons token tokens =>
    by_cases hcapital : isCapitalized token = true
    · have hdotted := readDotted_of_not_goesOn (h.not_goesOn hcapital)
      have hpart := isNamePart_of_isCapitalized hcapital
      simp [readName, readPath, hcapital, hdotted, hpart]
    · simp [readName, readPath, hcapital]

/-- Behind its mark, plain tokens begin with the same short attribute. -/
theorem readShort_of_plain (h : Plain (token :: tokens))
    (hmark : token.kind = .operator .className ∨ token.kind = .operator .idName) (name : String) :
    readShort true name token tokens = readShort false name token tokens := by
  simp only [readShort, h.readText?_eq_none hmark, ite_self]

/-- Plain tokens go on with the same part of an element. -/
theorem readPart?_of_plain (h : Plain tokens) :
    readPart? true present element tokens = readPart? false present element tokens := by
  cases tokens with
  | nil => rfl
  | cons token tokens =>
    rw [readPart?, readPart?]
    -- Only short attributes may have a value of another kind.
    split
    next => rfl
    next => rfl
    next hmark => rw [readShort_of_plain h (.inr hmark)]
    next hmark => rw [readShort_of_plain h (.inl hmark)]
    next => rfl
    next => rfl
    next => rfl

/-- Plain tokens go on with the same parts of an element, or are faulty in the same way. -/
theorem readParts?_of_plain (h : Plain tokens) :
    readParts? true present element tokens = readParts? false present element tokens := by
  fun_induction readParts? true present element tokens with
  | case1 present element tokens fault hpart =>
    rw [readPart?_of_plain h] at hpart
    rw [readParts?_of_error hpart]
  | case2 present element tokens hpart =>
    rw [readPart?_of_plain h] at hpart
    cases present with
    | false => exact (readParts?_eq_none_iff.2 ⟨rfl, hpart⟩).symm
    | true => exact (readParts?_of_none hpart).symm
  | case3 present element tokens behind hpart =>
    rw [readPart?_of_plain h] at hpart
    rw [readParts?_of_close hpart]
  | case4 present element tokens part behind hclose hpart _ ih =>
    rw [readPart?_of_plain h] at hpart
    rw [readParts?_of_readPart? hpart hclose]
    exact ih (h.of_suffix (continues_readPart? hpart).suffix)

/-- Plain tokens begin with the same element, or are faulty in the same way. -/
theorem readElement?_of_plain (h : Plain tokens) :
    readElement? true tokens = readElement? false tokens := by
  rcases hname : readName false tokens with ⟨name, behind⟩
  have hsuffix : behind <:+ tokens := by
    have happend := readName_append false tokens
    rw [hname] at happend
    exact ⟨name, happend⟩
  rw [readElement?_of_readName hname, readElement?_of_readName ((readName_of_plain h).trans hname)]
  exact readParts?_of_plain (h.of_suffix hsuffix)

/-! ## Statements -/

/-- Plain tokens go on with the same statements, or are faulty in the same way. -/
theorem readAll_of_plain {level : Level} {outer : List Level} (h : Plain tokens) :
    readAll true level outer tokens = readAll false level outer tokens := by
  fun_induction readAll true level outer tokens with
  | case1 => simp [readAll]
  | case2 => simp [readAll]
  | case3 level outer token tokens fault hfault =>
    rw [readElement?_of_plain h] at hfault
    rw [readAll_of_error hfault]
  | case4 level outer token tokens head behind hhead linked _ ih =>
    rw [readElement?_of_plain h] at hhead
    rw [readAll_of_readElement? hhead]
    exact ih (h.of_suffix
      ((readLink_follows behind).suffix.trans (continues_readElement? hhead).suffix))
  | case5 level outer token tokens hnone hopening ih =>
    rw [readAll_opening hopening]
    exact ih h.tail
  | case6 level token tokens hnone hopening hclosing =>
    rw [readElement?_of_plain h] at hnone
    simp [readAll_of_none hnone, hclosing]
  | case7 level token tokens hnone hopening hclosing enclosing outer repeated linked ih =>
    rw [readAll_closing hclosing]
    have hrepeated : repeated.2 <:+ tokens := (continues_readRepeater rfl).suffix
    exact ih (h.tail.of_suffix ((readLink_follows repeated.2).suffix.trans hrepeated))
  | case8 level token tokens hnone hopening hclosing =>
    rw [readElement?_of_plain h] at hnone
    simp [readAll_of_none hnone, hopening, hclosing]
  | case9 level token tokens hnone hopening hclosing =>
    rw [readElement?_of_plain h] at hnone
    simp [readAll_of_none hnone, hopening, hclosing]

/-- If neither a dot stands between two capitalized literals nor an opening brace directly behind
the mark of a class or an id, the tokens form the same statements, or are rejected with the same
error, whether or not dotted names and expressions are allowed. -/
theorem ofTokens_of_plain (tokens : List Token) (hpath : ¬HasDottedPath tokens)
    (hexpression : ¬HasShortExpression tokens) :
    ofTokens true tokens = ofTokens false tokens := by
  rw [ofTokens, ofTokens, readAll_of_plain ⟨hpath, hexpression⟩]

/-- In `Foo$.Bar`, the capitalized name goes on with a numbering, so that the dot marks a class. -/
theorem ofTokens_of_plain_numbered :
    ¬HasDottedPath [⟨.literal "Foo", 0, 3⟩, ⟨.numbering ⟨1, false, 1, 0⟩, 3, 4⟩,
      ⟨.operator .className, 4, 5⟩, ⟨.literal "Bar", 5, 8⟩] ∧
    ¬HasShortExpression [⟨.literal "Foo", 0, 3⟩, ⟨.numbering ⟨1, false, 1, 0⟩, 3, 4⟩,
      ⟨.operator .className, 4, 5⟩, ⟨.literal "Bar", 5, 8⟩] ∧
    ofTokens true [⟨.literal "Foo", 0, 3⟩, ⟨.numbering ⟨1, false, 1, 0⟩, 3, 4⟩,
      ⟨.operator .className, 4, 5⟩, ⟨.literal "Bar", 5, 8⟩] =
    ofTokens false [⟨.literal "Foo", 0, 3⟩, ⟨.numbering ⟨1, false, 1, 0⟩, 3, 4⟩,
      ⟨.operator .className, 4, 5⟩, ⟨.literal "Bar", 5, 8⟩] := by
  have hpath : ¬HasDottedPath [⟨.literal "Foo", 0, 3⟩, ⟨.numbering ⟨1, false, 1, 0⟩, 3, 4⟩,
      ⟨.operator .className, 4, 5⟩, ⟨.literal "Bar", 5, 8⟩] := by
    rintro ⟨first, dot, second, hinfix, hfirst, hdot, -⟩
    simp only [List.infix_cons_iff, List.cons_prefix_cons] at hinfix
    -- Only the numbering stands before the dot.
    rcases hinfix with ⟨rfl, rfl, -⟩ | ⟨rfl, -⟩ | ⟨rfl, rfl, -⟩ | hinfix
    · simp at hdot
    · simp [isCapitalized] at hfirst
    · simp at hdot
    · simp at hinfix
  have hexpression : ¬HasShortExpression [⟨.literal "Foo", 0, 3⟩,
      ⟨.numbering ⟨1, false, 1, 0⟩, 3, 4⟩, ⟨.operator .className, 4, 5⟩,
      ⟨.literal "Bar", 5, 8⟩] := by
    rintro ⟨mark, opening, hinfix, -, hopening⟩
    have hmem := hinfix.subset (List.mem_cons_of_mem mark (List.mem_singleton_self opening))
    simp only [List.mem_cons, List.not_mem_nil, or_false] at hmem
    rcases hmem with rfl | rfl | rfl | rfl <;> simp at hopening
  exact ⟨hpath, hexpression, ofTokens_of_plain _ hpath hexpression⟩

end Shorthand.Statement
