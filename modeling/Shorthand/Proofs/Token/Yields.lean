import Shorthand.Proofs.Token.Next
import Shorthand.Proofs.Token.Progress

/-!
# Sources that yield tokens

What a source yields when it is read from a place where certain things are open. Sources that yield
tokens can be put one behind the other, so the tokens of a notation can be told piece by piece.

## Main definitions

* `Literal.Plain`: characters that are one run of plain text;
* `Yields`: a source that yields tokens of certain kinds, up to a rest.

## Main results

* `Literal.Plain.escaped`: escaped characters are plain;
* `Yields.append`: a source yields what its parts yield;
* `Yields.exists_tokenize`: the tokens of a source that yields tokens up to its end;
* `yields_literal`: plain text yields a literal.
-/

namespace Shorthand

open Text (isDigit isSpace)

/-! ## Plain text -/

namespace Literal

variable {context : Context} {text value rest : List Char}

/-- Before `rest`, the characters `text` are a run of plain text that spells `value`. -/
def Plain (context : Context) (text value rest : List Char) : Prop :=
  ∀ before, run context before 0 (text ++ rest) = { value, text, rest, opened := 0 }

/-- No plain text begins with the source. -/
def Stops (context : Context) (source : List Char) : Prop :=
  Plain context [] [] source

/-- Whether plain text ends before the character, whatever stands around it. -/
def endsAnywhere (context : Context) (c : Char) : Bool :=
  c != '\\' && c != '/' && endsBefore context 0 c

/-- No plain text begins with a character that is plain in no place. -/
theorem stops_cons {c : Char} {cs : List Char} (h : endsAnywhere context c = true) :
    Stops context (c :: cs) := by
  simp only [endsAnywhere, Bool.and_eq_true, bne_iff_ne] at h
  obtain ⟨⟨hescape, hslash⟩, hends⟩ := h
  intro before
  rw [List.nil_append, run_eq_stop hescape (by simp [isFraction, hslash]) hends]
  rfl

/-- No plain text begins with a slash that no digit follows. -/
theorem stops_slash {cs : List Char} (hdigit : cs.head?.any isDigit = false) :
    Stops {} ('/' :: cs) := by
  intro before
  rw [List.nil_append, run_eq_stop (by decide) (by simp [isFraction, hdigit]) (by rfl)]
  rfl

theorem Stops.read?_eq_none {source : List Char} (h : Stops context source)
    (before : Option Char) : read? context before source = none := by
  have hrun := h before
  rw [List.nil_append] at hrun
  simp [read?, hrun]

/-- A plain character, outside braces. -/
theorem Plain.keep (h : Plain context text value rest) {c : Char} (hescape : c ≠ '\\')
    (hends : endsBefore context 0 c = false) (hbraces : context.braces = 0) :
    Plain context (c :: text) (c :: value) rest := by
  intro before
  have hcount : countBraces context 0 c = 0 := by simp [countBraces, hbraces]
  rw [List.cons_append, run_eq_keep hescape hends, hcount, h]
  rfl

/-- Any character behind a backslash. -/
theorem Plain.escape (h : Plain context text value rest) (c : Char) :
    Plain context ('\\' :: c :: text) (c :: value) rest := by
  intro before
  rw [List.cons_append, List.cons_append, run_escape, h]
  rfl

/-- Characters that are all behind backslashes. -/
theorem Plain.escaped (h : Plain context text value rest) (cs : List Char) :
    Plain context ((cs.flatMap fun c => ['\\', c]) ++ text) (cs ++ value) rest := by
  induction cs with
  | nil => exact h
  | cons c cs ih => exact ih.escape c

end Literal

namespace Token

/-! ## Yielding tokens -/

/-- Read where `context` is open, the source yields tokens of the given kinds; `rest` is left behind
them, where `next` is open. -/
def Yields (context : Context) (source : List Char) (kinds : List Kind) (next : Context)
    (rest : List Char) : Prop :=
  ∀ read, ∃ lexemes behind, Progress.Run ⟨read, source, context⟩ lexemes ⟨behind, rest, next⟩ ∧
    lexemes.map Lexeme.kind = kinds

variable {context next last : Context} {source rest final : List Char} {kinds more : List Kind}

theorem Yields.nil (context : Context) (source : List Char) :
    Yields context source [] context source :=
  fun read => ⟨[], read, .nil _, rfl⟩

/-- A source yields what its parts yield. -/
theorem Yields.append (h : Yields context source kinds next rest)
    (hmore : Yields next rest more last final) :
    Yields context source (kinds ++ more) last final := by
  intro read
  obtain ⟨lexemes, behind, hrun, hkinds⟩ := h read
  obtain ⟨lexemes', behind', hrun', hkinds'⟩ := hmore behind
  refine ⟨lexemes ++ lexemes', behind', hrun.append hrun', ?_⟩
  rw [List.map_append, hkinds, hkinds']

theorem Yields.cons {kind : Kind} (h : Yields context source [kind] next rest)
    (hmore : Yields next rest more last final) :
    Yields context source (kind :: more) last final :=
  h.append hmore

/-- A source that yields tokens up to its end is split into these. -/
theorem Yields.exists_tokenize {text : String} (h : Yields {} text.toList kinds next []) :
    ∃ tokens, tokenize text = .ok tokens ∧ tokens.map Token.kind = kinds := by
  obtain ⟨lexemes, behind, hrun, hkinds⟩ := h []
  refine ⟨place 0 lexemes, tokenize_eq_ok_iff_exists_run.2 ⟨lexemes, _, hrun, rfl, rfl⟩, ?_⟩
  rw [map_kind_place, hkinds]

/-- A round of the reading yields its token. -/
theorem yields_of_readNext {c : Char} {cs : List Char} (reading : Reading)
    (h : ∀ before, readNext context before c cs = .ok (reading, next)) :
    Yields context (c :: cs) [reading.kind] next reading.rest :=
  fun read => ⟨_, read ++ reading.text, .cons (.intro (h read.getLast?)) (.nil _), rfl⟩

/-! ## Single tokens -/

/-- An operator yields its token where it is not plain. -/
theorem yields_operator (op : Operator) {cs : List Char}
    (hstops : Literal.Stops context (op.glyph :: cs)) :
    Yields context (op.glyph :: cs) [.operator op] context cs :=
  yields_of_readNext ⟨.operator op, [op.glyph], cs⟩ fun before =>
    readNext_eq_glyph (readGlyph?_operator op cs) (hstops.read?_eq_none before)

/-- A quotation mark yields its token where it is not plain. -/
theorem yields_quote (mark : QuoteMark) {cs : List Char}
    (hstops : Literal.Stops context (mark.glyph :: cs)) :
    Yields context (mark.glyph :: cs) [.quote mark] (context.after (.quote mark)) cs :=
  yields_of_readNext ⟨.quote mark, [mark.glyph], cs⟩ fun before =>
    readNext_eq_glyph (readGlyph?_quote mark cs) (hstops.read?_eq_none before)

/-- A bracket yields its token where it is not plain. -/
theorem yields_bracket (bracket : Bracket) (opening : Bool) {cs : List Char}
    (hstops : Literal.Stops context (bracket.glyph opening :: cs)) :
    Yields context (bracket.glyph opening :: cs) [.bracket bracket opening]
      (context.after (.bracket bracket opening)) cs :=
  yields_of_readNext ⟨.bracket bracket opening, [bracket.glyph opening], cs⟩ fun before =>
    readNext_eq_glyph (readGlyph?_bracket bracket opening cs) (hstops.read?_eq_none before)

/-- A single space yields a blank. -/
theorem yields_space {cs : List Char} (hrest : cs.head?.any isSpace = false) :
    Yields context (' ' :: cs) [.blank " "] context cs := by
  -- A blank takes in all white space, so what follows must be none.
  have hstop : cs.takeWhile isSpace = [] ∧ cs.dropWhile isSpace = cs := by
    cases cs with
    | nil => exact ⟨rfl, rfl⟩
    | cons c cs =>
      have hc : isSpace c = false := by simpa using hrest
      simp [hc]
  have hblank : Atom.read? ' ' cs = some ⟨.blank " ", [' '], cs⟩ := by
    simp [Atom.read?, Atom.blank, isSpace, hstop]
  exact yields_of_readNext ⟨.blank " ", [' '], cs⟩ fun before =>
    readNext_eq_atom (fun h => absurd h (by decide)) hblank

/-- Plain text yields a literal, if no field and no atom begins with it. -/
theorem yields_literal {c : Char} {text value : List Char}
    (h : Literal.Plain context text value rest) (hhead : text.head? = some c)
    (hdollar : c ≠ '$') (hstar : c ≠ '*') (hspace : isSpace c = false) :
    Yields context (text ++ rest) [.literal (String.ofList value)] context rest := by
  obtain ⟨cs, rfl⟩ := List.head?_eq_some_iff.1 hhead
  refine yields_of_readNext ⟨.literal (String.ofList value), c :: cs, rest⟩ fun before => ?_
  have hrun := h before
  rw [List.cons_append] at hrun
  refine readNext_eq_literal hdollar (Atom.read?_eq_none_iff.2 ⟨hdollar, hstar, hspace⟩) ?_
  simp [Literal.read?, hrun]

end Token

end Shorthand
