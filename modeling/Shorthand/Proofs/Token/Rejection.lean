import Shorthand.Proofs.Token.Locality
import Shorthand.Proofs.Token.Reached

/-!
# Which characters are rejected

Where something is open, every character is plain text at least, so a character can only be rejected
where nothing is open. There it is rejected if and only if no token begins with it and no name holds
it. What has been read up to a rejected character is a source that can be read, and whatever comes
behind the character changes nothing: the character is no continuation of the token before it.

Apart from that only a field can be faulty, and fields begin only where something is open.

## Main definitions

* `isBareLegal`: characters that are read where nothing is open;
* `RejectedExactly`: how the reading of a source fails, if it does.

## Main results

* `readNext_eq_error`: why a round fails;
* `Reaches.replace`: a source is read up to a rejected character whether it ends there or not;
* `rejectedExactly`: exactly the right characters are rejected.
-/

namespace Shorthand

open Text (isDigit isNameChar isQuote isSpace width)

/-- Whether the character is read where nothing is open: it belongs to a name, or a token begins
with it. -/
def isBareLegal (c : Char) : Bool :=
  isNameChar c || (Operator.ofChar? c).isSome || isQuote c || (Bracket.ofChar? c).isSome ||
    c == '$' || c == '*' || c == '\\' || isSpace c

/-- The characters of quotation marks. -/
theorem QuoteMark.ofChar?_eq_none_iff {c : Char} :
    QuoteMark.ofChar? c = none ↔ isQuote c = false := by
  unfold QuoteMark.ofChar? isQuote
  split <;> simp_all

theorem isBareLegal_eq_false_iff {c : Char} :
    isBareLegal c = false ↔ isNameChar c = false ∧ Operator.ofChar? c = none ∧
      QuoteMark.ofChar? c = none ∧ Bracket.ofChar? c = none ∧ c ≠ '$' ∧ c ≠ '*' ∧ c ≠ '\\' ∧
      isSpace c = false := by
  simp [isBareLegal, QuoteMark.ofChar?_eq_none_iff, and_assoc]

/-! ## Faulty fields -/

namespace Field

open Token (Fault)

/-- Why a field is faulty: behind the characters `read` of it no brace closes it, or a brace in its
name or placeholder, before the rest `inner` of the body, is never closed. -/
inductive Faulty (body : List Char) : Fault → Prop
  | unclosedField {read rest : List Char} (hne : read ≠ [])
      (hsplit : read ++ rest = '$' :: '{' :: body) : Faulty body (.unclosedField read rest)
  | unclosedBrace {inner : List Char} (hsuffix : inner <:+ body) :
      Faulty body (.unclosedBrace inner)

theorem mem_openedBehind {opened : List (List Char)} {c : Char} {cs inner : List Char}
    (h : inner ∈ openedBehind opened c cs) : inner = cs ∨ inner ∈ opened := by
  unfold openedBehind at h
  split at h
  next => exact List.mem_cons.1 h
  next =>
    split at h
    next => exact .inr (List.mem_of_mem_tail h)
    next => exact .inr h

/-- Balanced text is faulty only if a brace is not closed, one that was open before it or one in
it. -/
theorem exists_unclosedBrace_of_readBalanced {opened : List (List Char)} {source : List Char}
    {fault : Fault} (h : readBalanced opened source = .error fault) :
    ∃ inner, fault = .unclosedBrace inner ∧ (inner ∈ opened ∨ inner <:+ source) := by
  induction source generalizing opened with
  | nil =>
    cases opened with
    | nil => cases h
    | cons inner opened =>
      cases h
      exact ⟨inner, rfl, .inl List.mem_cons_self⟩
  | cons c cs ih =>
    rw [readBalanced_cons] at h
    split at h
    next => cases h
    next =>
      obtain ⟨inner, rfl, hinner | hsuffix⟩ := ih (Except.map_eq_error_iff.1 h)
      · rcases mem_openedBehind hinner with rfl | hmem
        · exact ⟨_, rfl, .inr (List.suffix_cons c _)⟩
        · exact ⟨inner, rfl, .inl hmem⟩
      · exact ⟨inner, rfl, .inr (hsuffix.trans (List.suffix_cons c cs))⟩

/-- A field that is not closed is faulty where it begins. -/
theorem faulty_of_close {body read rest : List Char} {field : Field} {fault : Fault}
    (hne : read ≠ []) (hsplit : read ++ rest = '$' :: '{' :: body)
    (h : close field read rest = .error fault) : Faulty body fault := by
  unfold close at h
  split at h
  next => cases h
  next => cases h; exact .unclosedField hne hsplit

theorem faulty_of_readBalanced {body source : List Char} {fault : Fault}
    (hsuffix : source <:+ body) (h : readBalanced [] source = .error fault) :
    Faulty body fault := by
  obtain ⟨inner, rfl, hinner | hinner⟩ := exists_unclosedBrace_of_readBalanced h
  · cases hinner
  · exact .unclosedBrace (hinner.trans hsuffix)

/-- Where a field cannot be read, it is faulty. -/
theorem faulty_of_read {body : List Char} {fault : Fault} (h : read body = .error fault) :
    Faulty body fault := by
  have hbody := List.takeWhile_append_dropWhile (p := isDigit) (l := body)
  unfold read at h
  dsimp only at h
  split at h
  next =>
    unfold readReference at h
    split at h
    next =>
      split at h
      next name rest hread =>
        exact faulty_of_close (by simp) (by simp [readBalanced_append hread]) h
      next other hread => cases h; exact faulty_of_readBalanced (List.suffix_refl _) hread
    next => exact faulty_of_close (by simp) rfl h
  next =>
    unfold readTabStop at h
    dsimp only at h
    split at h
    next source hrest =>
      rw [hrest] at hbody
      split at h
      next name rest hread =>
        exact faulty_of_close (by simp) (by simp [readBalanced_append hread, hbody]) h
      next other hread =>
        cases h
        refine faulty_of_readBalanced ?_ hread
        rw [← hbody]
        exact (List.suffix_cons ':' source).trans (List.suffix_append _ _)
    next => exact faulty_of_close (by simp) (by simp [hbody]) h

/-- Faults of fields have errors of their own. -/
theorem Faulty.error_eq {body : List Char} {fault : Fault} (h : Faulty body fault)
    (source : List Char) : fault.error source = .unterminatedField (fault.span source) := by
  cases h <;> rfl

end Field

namespace Token

variable {context : Context} {before : Option Char} {c : Char} {cs : List Char} {fault : Fault}

/-! ## One round -/

theorem readGlyph?_eq_none_iff : readGlyph? c cs = none ↔
    Operator.ofChar? c = none ∧ QuoteMark.ofChar? c = none ∧ Bracket.ofChar? c = none := by
  unfold readGlyph?
  cases Operator.ofChar? c <;> cases QuoteMark.ofChar? c <;> cases Bracket.ofChar? c <;> simp

/-- Plain text ends before a character that is no token of its own only where nothing is open and
the character belongs to no name. -/
theorem eq_bare_of_endsBefore (hglyph : readGlyph? c cs = none) (hdollar : c ≠ '$')
    (hspace : isSpace c = false) (hends : Literal.endsBefore context 0 c = true) :
    context = {} ∧ isNameChar c = false := by
  obtain ⟨hoperator, hquote, hbracket⟩ := readGlyph?_eq_none_iff.1 hglyph
  obtain ⟨sets, braces, quote⟩ := context
  have hclosing : c ≠ '}' := by
    rintro rfl
    cases hbracket
  have hmark (mark : QuoteMark) : mark.glyph ≠ c := by
    rintro rfl
    cases mark <;> cases hquote
  have hplain : isQuote c = false := QuoteMark.ofChar?_eq_none_iff.1 hquote
  -- Where something is open, only white space and the characters excluded above end a text.
  cases quote <;> by_cases hbraces : braces = 0 <;> by_cases hsets : sets = 0 <;>
    simp_all [Literal.endsBefore, Context.allowsOperator]

/-- A round fails at a character that is not legal where nothing is open, or at a field. -/
theorem readNext_eq_error (h : readNext context before c cs = .error fault) :
    fault = .unexpectedCharacter c cs ∧ context = {} ∧ isBareLegal c = false ∨
      context.allowsField = true ∧ c = '$' ∧ ∃ body, cs = '{' :: body ∧
        Field.Faulty body fault := by
  unfold readNext at h
  split at h
  next hfield =>
    simp only [Bool.and_eq_true, beq_iff_eq] at hfield
    obtain ⟨⟨hallowed, hdollar⟩, hbrace⟩ := hfield
    obtain ⟨body, rfl⟩ := List.head?_eq_some_iff.1 hbrace
    rw [List.tail_cons] at h
    exact .inr ⟨hallowed, hdollar, body, rfl, Field.faulty_of_read (Except.map_eq_error_iff.1 h)⟩
  next =>
    split at h
    next => cases h
    next hatom =>
      split at h
      next => cases h
      next hliteral =>
        split at h
        next => cases h
        next hglyph =>
          -- No reader takes the character, so it is in none of their classes.
          obtain ⟨hdollar, hstar, hspace⟩ := Atom.read?_eq_none_iff.1 hatom
          obtain ⟨hescape, -, hends⟩ := Literal.read?_eq_none_iff.1 hliteral
          obtain ⟨hbare, hname⟩ := eq_bare_of_endsBefore hglyph hdollar hspace hends
          obtain ⟨hoperator, hquote, hbracket⟩ := readGlyph?_eq_none_iff.1 hglyph
          exact .inl ⟨(Except.error.inj h).symm, hbare, isBareLegal_eq_false_iff.2
            ⟨hname, hoperator, hquote, hbracket, hdollar, hstar, hescape, hspace⟩⟩

/-- Where nothing is open, a round fails at each character that is not legal there. -/
theorem readNext_of_not_isBareLegal (h : isBareLegal c = false) :
    readNext {} before c cs = .error (.unexpectedCharacter c cs) := by
  obtain ⟨hname, hoperator, hquote, hbracket, hdollar, hstar, hescape, hspace⟩ :=
    isBareLegal_eq_false_iff.1 h
  have hslash : c ≠ '/' := by
    rintro rfl
    cases hoperator
  have hliteral : Literal.read? {} before (c :: cs) = none :=
    Literal.read?_eq_none_iff.2 ⟨hescape, by simp [Literal.isFraction, hslash],
      by simp [Literal.endsBefore, hname]⟩
  have hatom := @Atom.read?_eq_none_iff c cs |>.2 ⟨hdollar, hstar, hspace⟩
  have hglyph := @readGlyph?_eq_none_iff c cs |>.2 ⟨hoperator, hquote, hbracket⟩
  simp [readNext, hdollar, hatom, hliteral, hglyph]

/-! ## All rounds -/

variable {source : String} {done : List Token} {progress : Progress} {rest : List Char}

/-- A character at a point of the reading is marked where the cursor is. -/
theorem Reaches.span_eq (h : Reaches source done progress) (hrest : progress.rest = c :: rest) :
    (Fault.unexpectedCharacter c rest).span source.toList =
      ⟨progress.position, c.utf8Size⟩ := by
  have hwidth : width source.toList = progress.position + width (c :: rest) := by
    rw [h.read_append_rest, Text.width_append, hrest, Progress.position]
  rw [Fault.span, Fault.remaining, Fault.marked, hwidth, Nat.add_sub_cancel]
  simp

/-- A character that is not legal belongs to no token before it, so what has been read before it can
stand at the end of a source. -/
theorem beginsLike_nil (h : isBareLegal c = false) (cs : List Char) : BeginsLike [] (c :: cs) := by
  have hdigit : isDigit c = false := by
    have hname := (isBareLegal_eq_false_iff.1 h).1
    simp only [isNameChar, Text.isWord, Char.isAlphanum, Bool.or_eq_false_iff] at hname
    exact hname.1.1.1.1.2.2
  exact ⟨by simp, hdigit.symm, by simp⟩

theorem beginsLike_cons (h : isBareLegal c = false) (cs more : List Char) :
    BeginsLike (c :: more) (c :: cs) := by
  refine ⟨fun _ hmem => .inl hmem, rfl, fun hslash => ?_⟩
  obtain rfl : c = '/' := by simpa using hslash
  cases h

/-- Up to a point where nothing is open, another source is read in the same way if it goes on alike
from there. -/
theorem Reaches.replace (h : Reaches source done progress) (hbare : progress.context = {})
    (hne : progress.rest ≠ []) (hlike : BeginsLike rest progress.rest) :
    Reaches (String.ofList (progress.read ++ rest)) done ⟨progress.read, rest, {}⟩ := by
  obtain ⟨lexemes, hrun, rfl⟩ := h
  have hread : progress.read = (lexemes.map Lexeme.text).flatten := hrun.advances.1
  have hagain := hrun.replace rfl hlike (fun hend => absurd hend hne) hbare
  rw [← hread] at hagain
  refine ⟨lexemes, ?_, rfl⟩
  rw [String.toList_ofList]
  exact hagain

/-- How the reading of a source fails, if it does. -/
structure RejectedExactly (source : String) : Prop where
  /-- A source is rejected for a character if and only if its reading comes to the character where
  nothing is open, and the character is not legal there. -/
  unexpected : ∀ c span, tokenize source = .error (.unexpectedCharacter c span) ↔
    ∃ done progress rest, Reaches source done progress ∧ progress.rest = c :: rest ∧
      progress.context = {} ∧ isBareLegal c = false ∧ span = ⟨progress.position, c.utf8Size⟩
  /-- What comes before the character can be read by itself, and every source that begins with it
  and the character is rejected in the same way. -/
  lasting : ∀ c span, tokenize source = .error (.unexpectedCharacter c span) →
    ∃ read done, read ++ [c] <+: source.toList ∧ width read = span.offset ∧
      tokenize (String.ofList read) = .ok done ∧
      ∀ extended : String, read ++ [c] <+: extended.toList →
        tokenize extended = .error (.unexpectedCharacter c span)
  /-- A source of legal characters in which no field begins can be read. -/
  legal : (∀ c ∈ source.toList, isBareLegal c = true) → ¬['$', '{'] <:+: source.toList →
    ∃ tokens, tokenize source = .ok tokens
  /-- Nothing else is rejected but a field, which begins inside an attribute set or a text, where
  the reading does not get any further. -/
  other : ∀ error, tokenize source = .error error →
    (∃ c span, error = .unexpectedCharacter c span) ∨
      ∃ span done progress body, error = .unterminatedField span ∧
        Reaches source done progress ∧ progress.rest = '$' :: '{' :: body ∧
        (progress.context.sets ≠ 0 ∨ progress.context.braces ≠ 0) ∧
        ∀ lexeme next, ¬progress.Step lexeme next

theorem tokenize_eq_unexpectedCharacter_iff {c : Char} {span : Text.Span} :
    tokenize source = .error (.unexpectedCharacter c span) ↔
      ∃ done progress rest, Reaches source done progress ∧ progress.rest = c :: rest ∧
        progress.context = {} ∧ isBareLegal c = false ∧
        span = ⟨progress.position, c.utf8Size⟩ := by
  rw [tokenize_eq_error_iff]
  constructor
  · rintro ⟨done, progress, d, rest, fault, hreaches, hrest, hfails, herror⟩
    rcases readNext_eq_error hfails with ⟨rfl, hbare, hillegal⟩ | ⟨-, -, body, -, hfaulty⟩
    · cases herror
      exact ⟨done, progress, rest, hreaches, hrest, hbare, hillegal, hreaches.span_eq hrest⟩
    · rw [hfaulty.error_eq] at herror
      cases herror
  · rintro ⟨done, progress, rest, hreaches, hrest, hbare, hillegal, rfl⟩
    refine ⟨done, progress, c, rest, .unexpectedCharacter c rest, hreaches, hrest, ?_, ?_⟩
    · rw [hbare]
      exact readNext_of_not_isBareLegal hillegal
    · rw [← hreaches.span_eq hrest]
      rfl

/-- Sources are rejected for faulty fields and for characters that are not legal, and for nothing
else. -/
theorem cause_of_tokenize {error : Error} (h : tokenize source = .error error) :
    (∃ c span, error = .unexpectedCharacter c span) ∨
      ∃ span done progress body, error = .unterminatedField span ∧
        Reaches source done progress ∧ progress.rest = '$' :: '{' :: body ∧
        (progress.context.sets ≠ 0 ∨ progress.context.braces ≠ 0) ∧
        ∀ lexeme next, ¬progress.Step lexeme next := by
  obtain ⟨done, progress, d, rest, fault, hreaches, hrest, hfails, rfl⟩ :=
    tokenize_eq_error_iff.1 h
  rcases readNext_eq_error hfails with ⟨rfl, -, -⟩ | ⟨hallowed, rfl, body, rfl, hfaulty⟩
  · exact .inl ⟨d, _, rfl⟩
  · have hopen : progress.context.sets ≠ 0 ∨ progress.context.braces ≠ 0 := by
      simpa [Context.allowsField, or_comm] using hallowed
    refine .inr ⟨_, done, progress, body, hfaulty.error_eq _, hreaches, hrest, hopen, ?_⟩
    rintro lexeme next ⟨hnext⟩
    obtain ⟨rfl, rfl⟩ := List.cons_eq_cons.1 hrest
    rw [hfails] at hnext
    cases hnext

/-- What has been read before a rejected character is read again, and so is the character behind
it. -/
theorem exists_lasting {c : Char} {span : Text.Span}
    (h : tokenize source = .error (.unexpectedCharacter c span)) :
    ∃ read done, read ++ [c] <+: source.toList ∧ width read = span.offset ∧
      tokenize (String.ofList read) = .ok done ∧
      ∀ extended : String, read ++ [c] <+: extended.toList →
        tokenize extended = .error (.unexpectedCharacter c span) := by
  obtain ⟨done, progress, rest, hreaches, hrest, hbare, hillegal, rfl⟩ :=
    tokenize_eq_unexpectedCharacter_iff.1 h
  have hne : progress.rest ≠ [] := by
    rw [hrest]
    exact List.cons_ne_nil c rest
  refine ⟨progress.read, done, ?_, rfl, ?_, ?_⟩
  · rw [hreaches.read_append_rest, hrest]
    exact ⟨rest, by simp⟩
  · rw [tokenize_eq_ok_iff_reaches]
    have hend := hreaches.replace hbare hne (hrest ▸ beginsLike_nil hillegal rest)
    rw [List.append_nil] at hend
    exact ⟨_, hend, rfl⟩
  · rintro extended ⟨more, hextended⟩
    have hagain := hreaches.replace hbare hne (hrest ▸ beginsLike_cons hillegal rest more)
    rw [← List.singleton_append, ← List.append_assoc, hextended, String.ofList_toList] at hagain
    exact tokenize_eq_unexpectedCharacter_iff.2 ⟨done, _, more, hagain, rfl, rfl, hillegal, rfl⟩

/-- Exactly the right characters are rejected. -/
theorem rejectedExactly (source : String) : RejectedExactly source where
  unexpected _ _ := tokenize_eq_unexpectedCharacter_iff
  lasting _ _ h := exists_lasting h
  legal hlegal hfield := by
    cases htokens : tokenize source with
    | ok tokens => exact ⟨tokens, rfl⟩
    | error error =>
      rcases cause_of_tokenize htokens with ⟨c, span, rfl⟩ |
        ⟨span, done, progress, body, -, hreaches, hrest, -, -⟩
      · obtain ⟨done, progress, rest, hreaches, hrest, -, hillegal, -⟩ :=
          tokenize_eq_unexpectedCharacter_iff.1 htokens
        have hc := hlegal c (by simp [hreaches.read_append_rest, hrest])
        rw [hillegal] at hc
        cases hc
      · refine absurd ⟨progress.read, body, ?_⟩ hfield
        rw [hreaches.read_append_rest, hrest, List.append_assoc]
        rfl
  other _ h := cause_of_tokenize h

/-- An at sign is plain inside a quoted value, and rejected behind it, whatever comes next. -/
theorem rejectedExactly_at_sign :
    tokenize "a[b=\"@\"]@c" = .error (.unexpectedCharacter '@' ⟨8, 1⟩) ∧
      ∃ read done, read ++ ['@'] <+: "a[b=\"@\"]@c".toList ∧ width read = 8 ∧
        tokenize (String.ofList read) = .ok done ∧
        ∀ extended : String, read ++ ['@'] <+: extended.toList →
          tokenize extended = .error (.unexpectedCharacter '@' ⟨8, 1⟩) := by
  have hrejected : tokenize "a[b=\"@\"]@c" = .error (.unexpectedCharacter '@' ⟨8, 1⟩) := by
    decide +kernel
  exact ⟨hrejected, (rejectedExactly _).lasting _ _ hrejected⟩

end Token

end Shorthand
