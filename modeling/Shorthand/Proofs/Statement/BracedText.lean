import Shorthand.Proofs.Statement.Parts
import Shorthand.Proofs.Statement.Reading
import Shorthand.Proofs.Token.BalancedText
import Shorthand.Proofs.Token.Partition

/-!
# Elements with a braced text

An element whose text has balanced braces. Balanced braces are meant to stay inside the text, and
they do, unless a dollar sign stands between two of them.

## Main results

* `exists_run_braced`: the tokens of an abbreviation that is a name with a braced text;
* `readElement?_braced`: the element that such tokens begin with;
* `parse_braced_iff`: the text in braces is the text of the element if and only if no dollar sign
  in it stands between braces.
-/

namespace Shorthand

open Text (width)

namespace Token

/-! ## Tokens -/

/-- A brace behind a text is no reason for a field in it. -/
theorem not_infix_append_brace {text : List Char} (h : ¬['$', '{'] <:+: text) :
    ¬['$', '{'] <:+: text ++ ['}'] := by
  intro hinfix
  rcases List.infix_concat_iff.1 hinfix with hsuffix | hinside
  · obtain ⟨before, hbefore⟩ := hsuffix
    have hlast := congrArg List.getLast? hbefore
    simp at hlast
  · exact h hinside

/-- The lexeme of a name that is the letter p, between elements. -/
def nameLexeme : Lexeme := ⟨.literal "p", ['p'], {}⟩

/-- The lexeme of a brace that opens a text behind a name. -/
def openLexeme : Lexeme := ⟨.bracket .expression true, ['{'], {}⟩

/-- The tokens of an abbreviation that is a name with a braced text: the name, a brace, tokens that
are no brackets and cover the text up to where it ends, and another brace. -/
theorem exists_run_braced {text inside left : List Char} (hescape : '\\' ∉ text)
    (hfield : ¬['$', '{'] <:+: text)
    (hsplit : splitText 0 (text ++ ['}']) = (inside, '}' :: left)) :
    ∃ lexemes next last,
      (Progress.start ('p' :: '{' :: (text ++ ['}']))).Run (nameLexeme :: openLexeme ::
        (lexemes ++ [⟨.bracket .expression false, ['}'], next⟩])) last ∧
      last.rest = left ∧ (lexemes.map Lexeme.text).flatten = inside ∧
      ∀ lexeme ∈ lexemes, ∀ bracket opening, lexeme.kind ≠ .bracket bracket opening := by
  have hname : readNext {} none 'p' ('{' :: (text ++ ['}'])) =
      .ok (⟨.literal "p", ['p'], '{' :: (text ++ ['}'])⟩, {}) := by
    refine readNext_eq_literal (by decide) (Atom.read?_eq_none_iff.2 (by decide)) ?_
    rw [Literal.read?, Literal.run_eq_keep (by decide) (by rfl),
      Literal.run_eq_stop (by decide) (by simp [Literal.isFraction]) (by rfl)]
    rfl
  have hopen : readNext {} (some 'p') '{' (text ++ ['}']) =
      .ok (⟨.bracket .expression true, ['{'], text ++ ['}']⟩, { braces := 1 }) :=
    readNext_eq_glyph (readGlyph?_bracket .expression true _)
      (Literal.read?_eq_none_iff.2 ⟨by decide, by simp [Literal.isFraction], by rfl⟩)
  -- What is open behind the text still has a brace open, so the next one is a token of its own.
  obtain ⟨lexemes, next, hrun, hquote, hbraces, hkinds⟩ :=
    exists_run_of_splitText (show ({ braces := 1 } : Context).quote = none from rfl) (by decide)
      (by simpa using hescape) (not_infix_append_brace hfield) hsplit ['p', '{']
  have hclose : readNext next (['p', '{'] ++ inside).getLast? '}' left =
      .ok (⟨.bracket .expression false, ['}'], left⟩, next.after (.bracket .expression false)) :=
    readNext_eq_glyph (readGlyph?_bracket .expression false left)
      (Literal.read?_eq_none_iff.2 ⟨by decide, by simp [Literal.isFraction],
        by simp [Literal.endsBefore_of_braces hquote hbraces]⟩)
  have hname' : (Progress.start ('p' :: '{' :: (text ++ ['}']))).Step nameLexeme
      ⟨['p'], '{' :: (text ++ ['}']), {}⟩ := .intro hname
  have hopen' : Progress.Step ⟨['p'], '{' :: (text ++ ['}']), {}⟩ openLexeme
      ⟨['p', '{'], text ++ ['}'], { braces := 1 }⟩ := @Progress.Step.intro ['p'] _ _ _ _ _ hopen
  have hclose' : Progress.Run ⟨['p', '{'] ++ inside, '}' :: left, next⟩
      [⟨.bracket .expression false, ['}'], next⟩] ⟨['p', '{'] ++ inside ++ ['}'], left,
        next.after (.bracket .expression false)⟩ := .cons (.intro hclose) (.nil _)
  refine ⟨lexemes, next, _, .cons hname' (.cons hopen' (hrun.append hclose')), rfl, ?_, hkinds⟩
  exact (List.append_cancel_left hrun.advances.1).symm

/-- An abbreviation that is a name with a braced text, as characters. -/
theorem toList_braced (text : String) :
    ("p\x7b" ++ text ++ "\x7d").toList = 'p' :: '{' :: (text.toList ++ ['}']) := by
  simp

/-- The tokens of an abbreviation that is a name with a braced text begin with those up to where the
text ends. If it ends at its own end, these are all. -/
theorem exists_tokens_braced {text : String} {inside left : List Char}
    (hescape : '\\' ∉ text.toList) (hfield : ¬['$', '{'] <:+: text.toList)
    (hsplit : splitText 0 (text.toList ++ ['}']) = (inside, '}' :: left)) :
    ∃ opening value closing, Statement.Braced opening value closing ∧
      Covers 2 (2 + width inside) value ∧
      (left = [] → tokenize ("p\x7b" ++ text ++ "\x7d") =
        .ok (⟨.literal "p", 0, 1⟩ :: opening :: (value ++ [closing]))) ∧
      ∀ tokens, tokenize ("p\x7b" ++ text ++ "\x7d") = .ok tokens →
        ∃ more, tokens = ⟨.literal "p", 0, 1⟩ :: opening :: (value ++ closing :: more) := by
  obtain ⟨lexemes, next, last, hrun, hleft, htext, hkinds⟩ :=
    exists_run_braced hescape hfield hsplit
  -- Whatever follows the text, its own tokens are placed behind the two bytes of its beginning.
  have hplace (more : List Lexeme) :
      place 0 (nameLexeme :: openLexeme :: (lexemes ++ ⟨.bracket .expression false, ['}'], next⟩ ::
        more)) = ⟨.literal "p", 0, 1⟩ :: ⟨.bracket .expression true, 1, 2⟩ :: (place 2 lexemes ++
          ⟨.bracket .expression false, 2 + width inside, 2 + width inside + 1⟩ ::
            place (2 + width inside + 1) more) := by
    have happend := place_append 2 lexemes (⟨.bracket .expression false, ['}'], next⟩ :: more)
    rw [htext] at happend
    exact congrArg (⟨.literal "p", 0, 1⟩ :: ⟨.bracket .expression true, 1, 2⟩ :: ·) happend
  refine ⟨⟨.bracket .expression true, 1, 2⟩, place 2 lexemes,
    ⟨.bracket .expression false, 2 + width inside, 2 + width inside + 1⟩, ⟨rfl, ?_, rfl⟩, ?_, ?_,
    ?_⟩
  · intro token hmem
    have hkind : token.kind ∈ lexemes.map Lexeme.kind := by
      rw [← map_kind_place 2]
      exact List.mem_map_of_mem hmem
    obtain ⟨lexeme, hlexeme, hkind⟩ := List.mem_map.1 hkind
    rw [← hkind]
    exact hkinds lexeme hlexeme
  · rw [← htext]
    exact covers_place 2 lexemes
  · rintro rfl
    refine tokenize_eq_ok_iff_exists_run.2 ⟨_, last, ?_, hleft, (hplace []).symm⟩
    rw [toList_braced]
    exact hrun
  · intro tokens htokens
    obtain ⟨all, final, hall, hend, rfl⟩ := tokenize_eq_ok_iff_exists_run.1 htokens
    have hread := readAll_eq_ok_iff_exists_run.2 ⟨final, hall, hend⟩
    rw [toList_braced, hrun.readAll_eq] at hread
    obtain ⟨more, -, rfl⟩ := Except.map_eq_ok_iff.1 hread
    refine ⟨place (2 + width inside + 1) more, ?_⟩
    rw [← hplace more]
    simp

end Token

namespace Statement

variable {jsx : Bool}

/-! ## The element -/

/-- Tokens that begin with a name and a braced text begin with an element of that text, to which
further parts may belong. -/
theorem readElement?_braced {opening closing : Token} {value more : List Token}
    (h : Braced opening value closing) :
    readElement? jsx (⟨.literal "p", 0, 1⟩ :: opening :: (value ++ closing :: more)) =
      readParts? jsx true { name := some [⟨.literal "p", 0, 1⟩], value := some value } more := by
  rw [readElement?_of_literal rfl (by simp [isNamePart, h.opening]),
    readParts?_of_readPart? (h.readPart? rfl) (by simp)]
  rfl

/-- The first statement of an outline that begins with an element is that element, with the
statements below it. -/
theorem exists_ofOutline_cons (depth : Nat) (head : Element) (items : List (Nat × Statement)) :
    ∃ below more, ofOutline ((depth, .element head []) :: items) = .element head below :: more := by
  simp [ofOutline, Outline.forest, Outline.grow, ofBranches, ofBranch, adopt]

/-- If tokens that begin with a name are read as a single element, then that is how the reading of
an element begins. -/
theorem exists_readElement?_of_ofTokens {name : Token} {value : String} {tokens : List Token}
    {head : Element} {below : List Statement} (hname : name.kind = .literal value)
    (h : ofTokens jsx (name :: tokens) = .ok [.element head below]) :
    ∃ rest, readElement? jsx (name :: tokens) = .ok (some (head, rest)) := by
  obtain ⟨items, hreads, hstatements⟩ := ofTokens_eq_ok_iff.1 h
  cases hreads with
  | @element _ behind _ _ first link items hhead hlink hmore =>
    rw [Item.outline, Item.statement] at hstatements
    obtain ⟨below', more, hroot⟩ := exists_ofOutline_cons 0 first (Item.outline (link.next 0) items)
    obtain ⟨hhead', -⟩ := List.cons.inj (hstatements.trans hroot)
    obtain ⟨rfl, -⟩ := Statement.element.inj hhead'
    exact ⟨behind, hhead⟩
  | group hopening => simp [hname] at hopening

/-- An abbreviation is read as a single element if nothing is left behind that element. -/
theorem ofTokens_of_readElement? {tokens : List Token} {head : Element}
    (h : readElement? jsx tokens = .ok (some (head, []))) :
    ofTokens jsx tokens = .ok [.element head []] := by
  have hreads : Reads jsx tokens [.element head .beside] [] :=
    .element h (.nothing (by simp)) (.nil [])
  rw [hreads.ofTokens_eq]
  simp [Item.outline, Item.statement, ofOutline, Outline.forest, Outline.grow, ofBranches, ofBranch,
    adopt]

/-! ## The text -/

/-- A name with a braced text, in which braces are balanced and nothing is escaped and no field
begins, is an element with that text and nothing else, if and only if no dollar sign of the text
stands between braces. -/
theorem parse_braced_iff (jsx : Bool) (text : String) (hbalanced : Balanced text.toList)
    (hescape : '\\' ∉ text.toList) (hfield : ¬['$', '{'] <:+: text.toList) :
    (∃ value, parse jsx ("p\x7b" ++ text ++ "\x7d") =
        .ok [.element { name := some [⟨.literal "p", 0, 1⟩], value := some value } []] ∧
      Token.Covers 2 (2 + text.utf8ByteSize) value) ↔ DollarsOutside text.toList := by
  obtain ⟨inside, left, hsplit, hlength, hwhole⟩ :=
    splitText_of_closes hbalanced.closes (Nat.le_refl 0) []
  obtain ⟨opening, value, closing, hbraced, hcovers, hall, hbegin⟩ :=
    Token.exists_tokens_braced hescape hfield hsplit
  have happend := splitText_append 0 (text.toList ++ ['}'])
  rw [hsplit] at happend
  rw [and_iff_right rfl, hbalanced.outsideFrom_iff] at hwhole
  rw [← hwhole, Text.utf8ByteSize_eq_width]
  constructor
  -- A text that ends too early cannot get longer: no part behind it takes its place.
  · rintro ⟨value', hparse, hcovers'⟩
    rw [parse] at hparse
    split at hparse
    next tokens htokens =>
      obtain ⟨more, rfl⟩ := hbegin tokens htokens
      obtain ⟨rest, hhead⟩ := exists_readElement?_of_ofTokens rfl hparse
      rw [readElement?_braced hbraced] at hhead
      have hsame := value_eq_of_readParts? rfl hhead
      rw [Option.some.inj hsame] at hcovers'
      have hwidth := Nat.add_left_cancel (hcovers.stop_unique hcovers')
      have hprefix : inside <+: text.toList :=
        List.prefix_of_prefix_length_le ⟨_, happend⟩ (List.prefix_append _ _) hlength
      -- What is left of the text behind its end has no width.
      obtain ⟨missing, hmissing⟩ := hprefix
      rw [← hmissing, Text.width_append, Nat.left_eq_add, Text.width_eq_zero_iff] at hwidth
      rw [← hmissing, hwidth, List.append_nil]
    next => cases hparse
  -- If the text ends at its own end, nothing is left behind the brace there.
  · intro heq
    obtain ⟨rfl, hleft⟩ := List.append_inj happend heq
    have hleft : left = [] := (List.cons.inj hleft).2
    refine ⟨value, ?_, hcovers⟩
    rw [parse, hall hleft]
    refine ofTokens_of_readElement? ?_
    rw [readElement?_braced hbraced, readParts?_of_none rfl]

/-- A dollar sign behind nested braces leaves them in the text. -/
theorem parse_braced_dollar_behind :
    ∃ value, parse false ("p\x7b" ++ "a\x7bb\x7d$" ++ "\x7d") =
        .ok [.element { name := some [⟨.literal "p", 0, 1⟩], value := some value } []] ∧
      Token.Covers 2 7 value :=
  (parse_braced_iff false "a\x7bb\x7d$" (by decide) (by decide) (by decide)).2 (by decide)

/-- A dollar sign between nested braces makes the text end at the brace behind it, and the brace
that was to end the text belongs to nothing. -/
theorem parse_braced_dollar_between :
    Balanced "\x7b$\x7d".toList ∧ '\\' ∉ "\x7b$\x7d".toList ∧
      ¬['$', '{'] <:+: "\x7b$\x7d".toList ∧
      parse false ("p\x7b" ++ "\x7b$\x7d" ++ "\x7d") =
        .error (.unexpectedToken (.bracket .expression false) ⟨5, 1⟩) := by
  refine ⟨by decide, by decide, by decide, ?_⟩
  have herror : (match parse false ("p\x7b" ++ "\x7b$\x7d" ++ "\x7d") with
      | .error error => decide (error = .unexpectedToken (.bracket .expression false) ⟨5, 1⟩)
      | .ok _ => false) = true := by decide +kernel
  cases hparse : parse false ("p\x7b" ++ "\x7b$\x7d" ++ "\x7d") with
  | error error =>
    rw [hparse] at herror
    rw [of_decide_eq_true herror]
  | ok statements =>
    rw [hparse] at herror
    cases herror

end Statement

end Shorthand
