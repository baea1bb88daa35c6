import Shorthand.Token.Lexer

/-!
# The next token

Which reader a character belongs to. Fields and atoms are told from the characters alone; whether a
character is plain text or a token of its own depends on what is open before it.

## Main results

* `readBy_of_readNext`: every token comes from one of the readers;
* `readNext_eq_atom`: an atom is read where no field begins;
* `readNext_eq_literal`: plain text is read where no field and no atom begins;
* `readNext_eq_glyph`: a token of one character is read where no plain text begins.
-/

namespace Shorthand

open Text (isSpace)

/-- Atoms begin with a dollar sign, a star or white space, and with each of these one does. -/
theorem Atom.read?_eq_none_iff {c : Char} {cs : List Char} :
    Atom.read? c cs = none ↔ c ≠ '$' ∧ c ≠ '*' ∧ isSpace c = false := by
  constructor
  · intro h
    unfold Atom.read? at h
    split at h
    next => split at h <;> cases h
    next hdollar =>
      split at h
      next => cases h
      next hstar =>
        split at h
        next => cases h
        next hspace => exact ⟨hdollar, hstar, by simpa using hspace⟩
  · rintro ⟨hdollar, hstar, hspace⟩
    simp [Atom.read?, hdollar, hstar, hspace]

namespace Literal

variable {context : Context} {before : Option Char} {c : Char} {cs : List Char} {opened : Nat}

theorem run_cons (hescape : c ≠ '\\') :
    run context before opened (c :: cs) =
      if isFraction context before c cs || !endsBefore context opened c then
        (run context (some c) (countBraces context opened c) cs).keep c
      else .stop opened (c :: cs) := by
  rw [run.eq_def]
  dsimp only
  rw [if_neg hescape]

/-- A run of plain text ends before a character that is not plain. -/
theorem run_eq_stop (hescape : c ≠ '\\') (hfraction : isFraction context before c cs = false)
    (hends : endsBefore context opened c = true) :
    run context before opened (c :: cs) = .stop opened (c :: cs) := by
  rw [run_cons hescape, if_neg (by simp [hfraction, hends])]

/-- A run of plain text goes on over a character that does not end it. -/
theorem run_eq_keep (hescape : c ≠ '\\') (hends : endsBefore context opened c = false) :
    run context before opened (c :: cs) =
      (run context (some c) (countBraces context opened c) cs).keep c := by
  rw [run_cons hescape, if_pos (by simp [hends])]

/-- A run of plain text goes on over a character behind a backslash. -/
theorem run_escape :
    run context before opened ('\\' :: c :: cs) =
      (run context (some c) opened cs).escape c := by
  rw [run, if_pos rfl]

/-- No literal begins with a character before which plain text ends, and with every other one a
literal does. -/
theorem read?_eq_none_iff : read? context before (c :: cs) = none ↔
    c ≠ '\\' ∧ isFraction context before c cs = false ∧ endsBefore context 0 c = true := by
  constructor
  · intro h
    by_cases hescape : c = '\\'
    · subst hescape
      cases cs <;> simp [read?, run, Run.keep, Run.escape] at h
    · refine ⟨hescape, ?_⟩
      rw [read?, run_cons hescape] at h
      split at h
      next => simp [Run.keep] at h
      next hends => simpa using hends
  · rintro ⟨hescape, hfraction, hends⟩
    simp [read?, run_eq_stop hescape hfraction hends, Run.stop]

/-- A character that does not end plain text begins a literal. -/
theorem read?_eq_some (hescape : c ≠ '\\') (hends : endsBefore context 0 c = false) :
    read? context before (c :: cs) = some
      ({ kind := .literal (String.ofList (run context before 0 (c :: cs)).value)
         text := (run context before 0 (c :: cs)).text
         rest := (run context before 0 (c :: cs)).rest },
        { context with braces := context.braces + (run context before 0 (c :: cs)).opened }) := by
  have hne : (run context before 0 (c :: cs)).text.isEmpty = false := by
    rw [run_eq_keep hescape hends]
    rfl
  rw [read?]
  simp [hne]

end Literal

namespace Token

variable {context : Context} {before : Option Char} {c : Char} {cs : List Char}

/-- Which reader a token comes from, given what is open before it and behind it. -/
inductive ReadBy (context : Context) (before : Option Char) (c : Char) (cs : List Char) :
    Reading → Context → Prop
  | field {reading : Reading} (hfield : Field.read cs.tail = .ok reading) :
      ReadBy context before c cs reading (context.after reading.kind)
  | atom {reading : Reading} (hatom : Atom.read? c cs = some reading) :
      ReadBy context before c cs reading (context.after reading.kind)
  | literal {reading : Reading} {next : Context}
      (hliteral : Literal.read? context before (c :: cs) = some (reading, next)) :
      ReadBy context before c cs reading next
  | glyph {reading : Reading} (hliteral : Literal.read? context before (c :: cs) = none)
      (hglyph : readGlyph? c cs = some reading) :
      ReadBy context before c cs reading (context.after reading.kind)

/-- Every token comes from one of the readers. -/
theorem readBy_of_readNext {reading : Reading} {next : Context}
    (h : readNext context before c cs = .ok (reading, next)) :
    ReadBy context before c cs reading next := by
  unfold readNext at h
  split at h
  next =>
    obtain ⟨field, hfield, heq⟩ := Except.map_eq_ok_iff.1 h
    cases heq
    exact .field hfield
  next =>
    split at h
    next hatom => cases h; exact .atom hatom
    next =>
      split at h
      next hliteral => cases h; exact .literal hliteral
      next hliteral =>
        split at h
        next hglyph => cases h; exact .glyph hliteral hglyph
        next => cases h

/-- An atom is read where no field begins. -/
theorem readNext_eq_atom {reading : Reading} (hfield : c = '$' → cs.head? ≠ some '{')
    (hatom : Atom.read? c cs = some reading) :
    readNext context before c cs = .ok (reading, context.after reading.kind) := by
  have hno : (context.allowsField && c == '$' && cs.head? == some '{') = false := by
    by_cases hc : c = '$'
    · simp [hfield hc]
    · simp [hc]
  simp [readNext, hno, hatom]

/-- Plain text is read where no field and no atom begins. -/
theorem readNext_eq_literal {result : Reading × Context} (hdollar : c ≠ '$')
    (hatom : Atom.read? c cs = none)
    (hliteral : Literal.read? context before (c :: cs) = some result) :
    readNext context before c cs = .ok result := by
  simp [readNext, hdollar, hatom, hliteral]

theorem readGlyph?_operator (op : Operator) (cs : List Char) :
    readGlyph? op.glyph cs = some ⟨.operator op, [op.glyph], cs⟩ := by
  cases op <;> rfl

theorem readGlyph?_quote (mark : QuoteMark) (cs : List Char) :
    readGlyph? mark.glyph cs = some ⟨.quote mark, [mark.glyph], cs⟩ := by
  cases mark <;> rfl

theorem readGlyph?_bracket (bracket : Bracket) (opening : Bool) (cs : List Char) :
    readGlyph? (bracket.glyph opening) cs =
      some ⟨.bracket bracket opening, [bracket.glyph opening], cs⟩ := by
  cases bracket <;> cases opening <;> rfl

/-- No atom begins with a token of one character. -/
theorem not_atom_of_readGlyph? {reading : Reading} (h : readGlyph? c cs = some reading) :
    c ≠ '$' ∧ c ≠ '*' ∧ isSpace c = false := by
  -- It is enough that none of the characters with which an atom begins is a token of its own.
  have hnone (d : Char) (hd : (Operator.ofChar? d).isNone ∧ (QuoteMark.ofChar? d).isNone ∧
      (Bracket.ofChar? d).isNone) : c ≠ d := by
    rintro rfl
    simp only [Option.isNone_iff_eq_none] at hd
    simp [readGlyph?, hd.1, hd.2.1, hd.2.2] at h
  refine ⟨hnone _ (by decide), hnone _ (by decide), ?_⟩
  simp [isSpace, hnone ' ' (by decide), hnone '\t' (by decide), hnone '\u00a0' (by decide),
    hnone '\n' (by decide), hnone '\r' (by decide)]

/-- A token of one character is read where no plain text begins. -/
theorem readNext_eq_glyph {reading : Reading} (hglyph : readGlyph? c cs = some reading)
    (hliteral : Literal.read? context before (c :: cs) = none) :
    readNext context before c cs = .ok (reading, context.after reading.kind) := by
  obtain ⟨hdollar, hstar, hspace⟩ := not_atom_of_readGlyph? hglyph
  simp [readNext, hdollar, Atom.read?_eq_none_iff.2 ⟨hdollar, hstar, hspace⟩, hliteral, hglyph]

end Token

end Shorthand
