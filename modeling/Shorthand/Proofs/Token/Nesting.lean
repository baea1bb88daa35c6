import Shorthand.Proofs.Token.BracedText
import Shorthand.Proofs.Token.Partition

/-!
# Nesting from token to token

Which tokens can be read where what is open, and what they leave open behind them. Everything but a
literal changes the context by its kind alone, or not at all; a literal adds the braces that it
opens inside a text and does not close.

## Main definitions

* `Emits`: a token of this kind can be read in one context and leaves the other one behind it;
* `contextAt?`: the context in which the token at an offset of a source is read;
* `Chained`: tokens that stand one behind the other, each in the context that the one before it
  leaves;
* `PlainName`: a text of name characters, and slashes between digits.

## Main results

* `emits_of_readNext`: what one round of the reading emits;
* `exists_chained_of_tokenize`: the tokens of a source are chained;
* `exists_plainName_of_contextAt?`: a literal that is read where nothing is open is a plain name.
-/

namespace Shorthand

open Text (isDigit isNameChar width)

/-- No quoted value is open inside braces. -/
def Context.Unmixed (context : Context) : Prop :=
  context.quote = none ∨ context.braces = 0

/-! ## Literals -/

namespace Literal

variable {context : Context} {before : Option Char} {c : Char} {cs : List Char} {opened : Nat}

/-- Outside braces no braces are counted. -/
theorem opened_run (hbraces : context.braces = 0) (before : Option Char) (opened : Nat)
    (source : List Char) : (run context before opened source).opened = opened := by
  fun_induction run context before opened source <;>
    simp_all [Run.stop, Run.keep, Run.escape, countBraces]

end Literal

/-- The characters are those of a name: each one is a name character, or a slash with a digit on
either side of it in the source, of which `before` and `after` are the characters around them. -/
def PlainName (before text after : List Char) : Prop :=
  ∀ left c right, text = left ++ c :: right → isNameChar c = true ∨
    c = '/' ∧ (before ++ left).getLast?.any isDigit = true ∧
      (right ++ after).head?.any isDigit = true

/-- No operator but the closing indicator belongs to a plain name, and that one only between
digits. -/
theorem PlainName.operator {before text after : List Char} (h : PlainName before text after)
    {op : Operator} (hmem : op.glyph ∈ text) : op = .close := by
  obtain ⟨left, right, rfl⟩ := List.append_of_mem hmem
  rcases h left _ right rfl with hname | ⟨hslash, -⟩
  · cases op with
    | close => rfl
    | _ => exact absurd hname (by decide)
  · cases op with
    | close => rfl
    | _ => exact absurd hslash (by decide)

namespace Literal

/-- Where nothing is open, plain text without backslashes is what it is written as, and a plain
name. -/
theorem plainName_run {source : List Char} (hescape : '\\' ∉ source) (read : List Char)
    (opened : Nat) :
    (run {} read.getLast? opened source).value = (run {} read.getLast? opened source).text ∧
      PlainName read (run {} read.getLast? opened source).text
        (run {} read.getLast? opened source).rest := by
  generalize hbefore : read.getLast? = before
  fun_induction run ({} : Context) before opened source generalizing read with
  | case1 before opened =>
    refine ⟨rfl, fun left c right htext => ?_⟩
    simp [Run.stop] at htext
  | case2 before opened => simp at hescape
  | case3 before opened escaped cs ih => simp at hescape
  | case4 before opened c cs hc hgo ih =>
    subst hbefore
    obtain ⟨hvalue, hplain⟩ := ih (fun h => hescape (List.mem_cons_of_mem _ h)) (read ++ [c])
      List.getLast?_concat
    have happend := run_text_append_rest {} (some c) (countBraces {} opened c) cs
    refine ⟨by simp only [Run.keep, hvalue], ?_⟩
    rintro (_ | ⟨d, left⟩) e right htext
    -- The first character does not end the text, or it is a slash between digits.
    · obtain ⟨rfl, rfl⟩ : c = e ∧ _ = right := by simpa [Run.keep] using htext
      simp only [isFraction, Bool.or_eq_true, Bool.and_eq_true, beq_iff_eq,
        Bool.not_eq_true'] at hgo
      rcases hgo with ⟨⟨⟨hslash, -⟩, hleft⟩, hright⟩ | hends
      · refine .inr ⟨hslash, by simpa using hleft, ?_⟩
        show ((run {} (some c) (countBraces {} opened c) cs).text ++
          (run {} (some c) (countBraces {} opened c) cs).rest).head?.any isDigit = true
        rw [happend]
        exact hright
      · simp [endsBefore] at hends
        exact .inl hends.2
    · obtain ⟨rfl, htail⟩ : c = d ∧ _ = left ++ e :: right := by simpa [Run.keep] using htext
      have hchar := hplain left e right htail
      rwa [List.append_assoc, List.singleton_append] at hchar
  | case5 before opened c cs hc hstop =>
    refine ⟨rfl, fun left d right htext => ?_⟩
    simp [Run.stop] at htext

end Literal

namespace Token

variable {context next : Context} {before : Option Char} {c : Char} {cs : List Char}

/-! ## Rounds of the reading -/

/-- In `context`, a token of this kind can be read, and `next` is the context behind it. A literal
may leave braces open that it opens inside a text; quotation marks and brackets change the context
by their kind, and nothing else does. -/
def Emits (context : Context) (kind : Kind) (next : Context) : Prop :=
  match kind with
  | .literal _ => ∃ opened, (context.braces = 0 → opened = 0) ∧
      next = { context with braces := context.braces + opened }
  | .quote mark => (context.quote = some mark ∨ context.quote = none ∧ context.braces = 0) ∧
      next = context.after (.quote mark)
  | .bracket bracket opening => context.quote = none ∧
      -- Inside braces no other bracket is a token, and an opening brace is part of a literal.
      (context.braces ≠ 0 → bracket = .expression ∧ opening = false) ∧
      next = context.after (.bracket bracket opening)
  | .operator op => context.quote = none ∧ context.braces = 0 ∧
      (context.sets = 0 ∨ op = .equal) ∧ next = context
  | _ => next = context

/-- Fields are of their own kind. -/
theorem exists_field_of_read {body : List Char} {reading : Reading}
    (h : Field.read body = .ok reading) : ∃ field, reading.kind = .field field := by
  -- However the body is read, the field is made where it is closed.
  have hclose {field : Field} {read rest : List Char} {reading : Reading}
      (h : Field.close field read rest = .ok reading) : ∃ field, reading.kind = .field field := by
    unfold Field.close at h
    split at h
    next => cases h; exact ⟨field, rfl⟩
    next => cases h
  unfold Field.read at h
  dsimp only at h
  split at h
  next =>
    unfold Field.readReference at h
    split at h
    next =>
      split at h
      next => exact hclose h
      next => cases h
    next => exact hclose h
  next =>
    unfold Field.readTabStop at h
    dsimp only at h
    split at h
    next =>
      split at h
      next => exact hclose h
      next => cases h
    next => exact hclose h

/-- Atoms can be read anywhere, and leave everything as it is. None of them is a literal. -/
theorem emits_of_read?_atom (context : Context) {reading : Reading}
    (h : Atom.read? c cs = some reading) :
    Emits context reading.kind context ∧ ∀ value, reading.kind ≠ .literal value := by
  unfold Atom.read? at h
  split at h
  next =>
    split at h
    next => cases h; exact ⟨rfl, by simp⟩
    next =>
      cases h
      unfold Atom.numbering
      split <;> exact ⟨rfl, by simp [Atom.modifiedNumbering]⟩
  next =>
    split at h
    next => cases h; exact ⟨rfl, by simp [Atom.repeater]⟩
    next =>
      split at h
      next => cases h; exact ⟨rfl, by simp [Atom.blank]⟩
      next => cases h

/-- Plain text ends before an operator only where the operator has its meaning. -/
theorem allows_of_endsBefore {op : Operator}
    (h : Literal.endsBefore context 0 op.glyph = true) :
    context.quote = none ∧ context.braces = 0 ∧ (context.sets = 0 ∨ op = .equal) := by
  obtain ⟨sets, braces, quote⟩ := context
  -- It is decided character by character what ends a literal.
  have hglyph (mark : QuoteMark) : mark.glyph ≠ op.glyph := by
    cases op <;> cases mark <;> decide
  have hclass : op.glyph ≠ '$' ∧ op.glyph ≠ '}' ∧ Text.isSpace op.glyph = false ∧
      Text.isQuote op.glyph = false ∧ Bracket.ofChar? op.glyph = none ∧
      Operator.ofChar? op.glyph = some op := by
    cases op <;> decide
  cases quote <;> by_cases hbraces : braces = 0 <;> by_cases hsets : sets = 0 <;>
    simp_all [Literal.endsBefore, Context.allowsOperator]

/-- Plain text ends before a quotation mark that closes a value, and before one that opens a value
outside braces. -/
theorem quote_of_endsBefore {mark : QuoteMark}
    (h : Literal.endsBefore context 0 mark.glyph = true) :
    context.quote = some mark ∨ context.quote = none ∧ context.braces = 0 := by
  obtain ⟨sets, braces, quote⟩ := context
  have hclass : mark.glyph ≠ '$' ∧ mark.glyph ≠ '}' ∧ Operator.ofChar? mark.glyph = none := by
    cases mark <;> decide
  have hglyph (other : QuoteMark) : other.glyph = mark.glyph ↔ other = mark := by
    cases other <;> cases mark <;> decide
  cases quote <;> by_cases hbraces : braces = 0 <;>
    simp_all [Literal.endsBefore, Context.allowsOperator]

/-- Plain text ends before a bracket only outside quoted values, and inside braces only before the
one that closes them. -/
theorem bracket_of_endsBefore (hunmixed : context.Unmixed) {bracket : Bracket} {opening : Bool}
    (h : Literal.endsBefore context 0 (bracket.glyph opening) = true) :
    context.quote = none ∧ (context.braces ≠ 0 → bracket = .expression ∧ opening = false) := by
  obtain ⟨sets, braces, quote⟩ := context
  have hclass : bracket.glyph opening ≠ '$' ∧ Operator.ofChar? (bracket.glyph opening) = none := by
    cases bracket <;> cases opening <;> decide
  have hglyph (mark : QuoteMark) : mark.glyph ≠ bracket.glyph opening := by
    cases mark <;> cases bracket <;> cases opening <;> decide
  have hclosing : bracket.glyph opening = '}' → bracket = .expression ∧ opening = false := by
    cases bracket <;> cases opening <;> decide
  cases quote <;> by_cases hbraces : braces = 0 <;>
    simp_all [Literal.endsBefore, Context.allowsOperator, Context.Unmixed]

/-- Tokens of one character are read where plain text does not go on over the character. -/
theorem emits_of_readGlyph? (hunmixed : context.Unmixed) {reading : Reading}
    (h : readGlyph? c cs = some reading) (hends : Literal.endsBefore context 0 c = true) :
    Emits context reading.kind (context.after reading.kind) := by
  simp only [readGlyph?, Option.map_eq_some_iff] at h
  obtain ⟨kind, hkind, rfl⟩ := h
  split at hkind
  next _ _ _ hop =>
    obtain rfl := Operator.ofChar?_eq_some_iff.1 hop
    cases hkind
    obtain ⟨hquote, hbraces, hsets⟩ := allows_of_endsBefore hends
    exact ⟨hquote, hbraces, hsets, rfl⟩
  next _ _ _ hmark =>
    obtain rfl := QuoteMark.ofChar?_eq_some_iff.1 hmark
    cases hkind
    exact ⟨quote_of_endsBefore hends, rfl⟩
  next bracket opening _ _ hbracket =>
    obtain rfl := Bracket.ofChar?_eq_some_iff.1 hbracket
    cases hkind
    obtain ⟨hquote, hbraces⟩ := bracket_of_endsBefore hunmixed hends
    exact ⟨hquote, hbraces, rfl⟩
  next => cases hkind

/-- What one round of the reading emits. -/
theorem emits_of_readNext (hunmixed : context.Unmixed) {reading : Reading}
    (h : readNext context before c cs = .ok (reading, next)) :
    Emits context reading.kind next := by
  rcases readBy_of_readNext h with hfield | hatom | hliteral | ⟨hliteral, hglyph⟩
  · obtain ⟨field, hkind⟩ := exists_field_of_read hfield
    rw [hkind]
    rfl
  · have hemits := (emits_of_read?_atom context hatom).1
    rwa [(Atom.kind_of_read? hatom context).2]
  · rw [Literal.read?] at hliteral
    split at hliteral
    next => cases hliteral
    next =>
      cases hliteral
      exact ⟨_, fun hbraces => Literal.opened_run hbraces before 0 (c :: cs), rfl⟩
  -- A glyph is read where plain text does not go on, which says what is open.
  · exact emits_of_readGlyph? hunmixed hglyph (Literal.read?_eq_none_iff.1 hliteral).2.2

/-- Behind a token no quoted value is open inside braces, if none is before it. -/
theorem Emits.unmixed {kind : Kind} (h : Emits context kind next) (hunmixed : context.Unmixed) :
    next.Unmixed := by
  cases kind with
  | literal value =>
    obtain ⟨opened, hopened, rfl⟩ := h
    rcases hunmixed with hquote | hbraces
    · exact .inl hquote
    · exact .inr (by simp [hbraces, hopened hbraces])
  | quote mark =>
    obtain ⟨hquote | ⟨-, hbraces⟩, rfl⟩ := h
    · exact .inl (by simp [Context.after, hquote])
    · exact .inr hbraces
  | bracket bracket opening =>
    obtain ⟨hquote, -, rfl⟩ := h
    refine .inl ?_
    cases bracket <;> cases opening <;> exact hquote
  | operator op =>
    obtain ⟨hquote, -, -, rfl⟩ := h
    exact .inl hquote
  | blank => cases h; exact hunmixed
  | repeater => cases h; exact hunmixed
  | numbering => cases h; exact hunmixed
  | placeholder => cases h; exact hunmixed
  | field => cases h; exact hunmixed

/-! ## Contexts by offset -/

/-- The context in which the token at byte `offset` is read, among lexemes of which the first one
begins at byte `start`. -/
def contextAmong? (start offset : Nat) : List Lexeme → Option Context
  | [] => none
  | lexeme :: lexemes =>
    if start = offset then some lexeme.context
    else contextAmong? (start + width lexeme.text) offset lexemes

/-- The context in which the token at byte `offset` of a source is read, if one begins there. -/
def contextAt? (source : String) (offset : Nat) : Option Context :=
  match readAll {} none source.toList with
  | .ok lexemes => contextAmong? 0 offset lexemes
  | .error _ => none

/-- The tokens stand one behind the other from byte `start` on, and each can be read in the context
before it and leaves the one behind it. `contexts` gives the context at each offset. -/
def Chained (contexts : Nat → Context) (start : Nat) : List Token → Prop
  | [] => True
  | token :: tokens => token.start = start ∧
    Emits (contexts start) token.kind (contexts token.stop) ∧ Chained contexts token.stop tokens

/-- The offset behind tokens of which the first one begins at byte `start`. -/
def endOf (start : Nat) : List Token → Nat
  | [] => start
  | token :: tokens => endOf token.stop tokens

theorem endOf_append (start : Nat) (tokens more : List Token) :
    endOf start (tokens ++ more) = endOf (endOf start tokens) more := by
  induction tokens generalizing start with
  | nil => rfl
  | cons token tokens ih => exact ih token.stop

theorem chained_append {contexts : Nat → Context} {start : Nat} {tokens more : List Token} :
    Chained contexts start (tokens ++ more) ↔
      Chained contexts start tokens ∧ Chained contexts (endOf start tokens) more := by
  induction tokens generalizing start with
  | nil => simp [Chained, endOf]
  | cons token tokens ih => simp [Chained, endOf, ih, and_assoc]

/-- A round emits its token in the context that has been reached. -/
theorem Progress.Step.emits {progress next : Progress} {lexeme : Lexeme}
    (h : progress.Step lexeme next) (hunmixed : progress.context.Unmixed) :
    lexeme.context = progress.context ∧ Emits progress.context lexeme.kind next.context := by
  obtain ⟨hnext⟩ := h
  exact ⟨rfl, emits_of_readNext hunmixed hnext⟩

/-- The tokens of a run are chained by the contexts of its rounds. -/
theorem Progress.Run.chained {progress last : Progress} {lexemes : List Lexeme}
    (h : progress.Run lexemes last) (hunmixed : progress.context.Unmixed) (start : Nat)
    {contexts : Nat → Context}
    (hcontexts : ∀ offset, start ≤ offset →
      contexts offset = (contextAmong? start offset lexemes).getD last.context) :
    contexts start = progress.context ∧ Chained contexts start (place start lexemes) := by
  induction h generalizing start with
  | nil progress => exact ⟨hcontexts start (Nat.le_refl start), trivial⟩
  | @cons progress next last lexeme lexemes hstep hrun ih =>
    -- A token is not empty, so the next one begins at a later offset.
    have hpos : width lexeme.text ≠ 0 := by
      rw [ne_eq, Text.width_eq_zero_iff]
      exact hstep.advances.2.2
    obtain ⟨hlexeme, hemits⟩ := hstep.emits hunmixed
    have hfirst := hcontexts start (Nat.le_refl start)
    rw [contextAmong?, if_pos rfl, Option.getD_some, hlexeme] at hfirst
    -- The offsets behind the first token are looked up among the other ones.
    have hbehind : ∀ offset, start + width lexeme.text ≤ offset → contexts offset =
        (contextAmong? (start + width lexeme.text) offset lexemes).getD last.context := by
      intro offset hle
      have hlookup := hcontexts offset (by omega)
      rwa [contextAmong?, if_neg (by omega)] at hlookup
    obtain ⟨hcontext, hchained⟩ := ih (hemits.unmixed hunmixed) (start + width lexeme.text) hbehind
    refine ⟨hfirst, rfl, ?_, hchained⟩
    show Emits (contexts start) lexeme.kind (contexts (start + width lexeme.text))
    rwa [hfirst, hcontext]

/-- A token that is placed among lexemes is one of them, placed behind those before it, and it is
found there. -/
theorem exists_append_of_mem_place {start : Nat} {lexemes : List Lexeme}
    (hne : ∀ lexeme ∈ lexemes, lexeme.text ≠ []) {token : Token}
    (hmem : token ∈ place start lexemes) :
    ∃ done lexeme more, lexemes = done ++ lexeme :: more ∧
      token.kind = lexeme.kind ∧
      token.start = start + width (done.map Lexeme.text).flatten ∧
      token.stop = token.start + width lexeme.text ∧
      contextAmong? start token.start lexemes = some lexeme.context := by
  induction lexemes generalizing start with
  | nil => simp [place] at hmem
  | cons first lexemes ih =>
    obtain ⟨hfirst, hne⟩ := List.forall_mem_cons.1 hne
    rcases List.mem_cons.1 hmem with rfl | hmem
    · exact ⟨[], first, lexemes, rfl, rfl, by simp, rfl, if_pos rfl⟩
    · obtain ⟨done, lexeme, more, rfl, hkind, hstart, hstop, hfound⟩ := ih hne hmem
      -- The first lexeme is not empty, so the token does not begin where that one does.
      have hpos : width first.text ≠ 0 := by
        rw [ne_eq, Text.width_eq_zero_iff]
        exact hfirst
      refine ⟨first :: done, lexeme, more, rfl, hkind, ?_, hstop, ?_⟩
      · rw [hstart, List.map_cons, List.flatten_cons, Text.width_append, Nat.add_assoc]
      · rw [contextAmong?, if_neg (by omega)]
        exact hfound

/-- A run is a round after another run, and goes on behind it. -/
theorem Progress.Run.exists_step {progress last : Progress} {done more : List Lexeme}
    {lexeme : Lexeme} (h : progress.Run (done ++ lexeme :: more) last) :
    ∃ reached next, progress.Run done reached ∧ reached.Step lexeme next := by
  obtain ⟨reached, hdone, hmore⟩ := h.exists_of_append
  obtain _ | ⟨hstep, -⟩ := hmore
  exact ⟨reached, _, hdone, hstep⟩

/-- The lexemes of a run through a source are those that are looked up in it. -/
theorem contextAt?_of_run {source : String} {lexemes : List Lexeme} {last : Progress}
    (hrun : (Progress.start source.toList).Run lexemes last) (hend : last.rest = [])
    (offset : Nat) : contextAt? source offset = contextAmong? 0 offset lexemes := by
  have hread : readAll {} none source.toList = .ok lexemes :=
    readAll_eq_ok_iff_exists_run.2 ⟨last, hrun, hend⟩
  rw [contextAt?, hread]

/-- The tokens of a source are chained: there is a context at each offset, nothing is open at the
first one, and these are the contexts in which the tokens are read. -/
theorem exists_chained_of_tokenize {source : String} {tokens : List Token}
    (h : tokenize source = .ok tokens) :
    ∃ contexts : Nat → Context, contexts 0 = {} ∧ Chained contexts 0 tokens ∧
      ∀ token ∈ tokens, contextAt? source token.start = some (contexts token.start) := by
  obtain ⟨lexemes, last, hrun, hend, rfl⟩ := tokenize_eq_ok_iff_exists_run.1 h
  refine ⟨fun offset => (contextAmong? 0 offset lexemes).getD last.context, ?_⟩
  obtain ⟨hcontext, hchained⟩ := hrun.chained (.inl rfl) 0 fun _ _ => rfl
  refine ⟨hcontext, hchained, fun token hmem => ?_⟩
  obtain ⟨done, lexeme, more, -, -, -, -, hfound⟩ :=
    exists_append_of_mem_place hrun.text_ne_nil hmem
  simp only [contextAt?_of_run hrun hend, hfound, Option.getD_some]

/-- Every token of a source is read in a round, in the context that is found at its offset. -/
theorem exists_step_of_mem_tokenize {source : String} {tokens : List Token}
    (h : tokenize source = .ok tokens) {token : Token} (hmem : token ∈ tokens) :
    ∃ lexemes progress lexeme next, (Progress.start source.toList).Run lexemes progress ∧
      progress.Step lexeme next ∧ token.kind = lexeme.kind ∧ token.start = progress.position ∧
      token.stop = progress.position + width lexeme.text ∧
      contextAt? source token.start = some progress.context := by
  obtain ⟨lexemes, last, hrun, hend, rfl⟩ := tokenize_eq_ok_iff_exists_run.1 h
  obtain ⟨done, lexeme, more, rfl, hkind, hstart, hstop, hfound⟩ :=
    exists_append_of_mem_place hrun.text_ne_nil hmem
  obtain ⟨reached, next, hdone, hstep⟩ := hrun.exists_step
  -- The lexemes before it are what has been read when the round begins.
  have hposition : token.start = reached.position := by
    rw [hstart, Progress.position, hdone.advances.1, Nat.zero_add]
    rfl
  refine ⟨done, reached, lexeme, next, hdone, hstep, hkind, hposition, hposition ▸ hstop, ?_⟩
  obtain ⟨hnext⟩ := hstep
  exact (contextAt?_of_run hrun hend _).trans hfound

/-! ## Names -/

/-- Only the reader of literals reads literals. -/
theorem read?_literal_of_readNext {reading : Reading} {value : String}
    (hkind : reading.kind = .literal value)
    (h : readNext context before c cs = .ok (reading, next)) :
    Literal.read? context before (c :: cs) = some (reading, next) := by
  rcases readBy_of_readNext h with hfield | hatom | hliteral | ⟨-, hglyph⟩
  · obtain ⟨field, hfield⟩ := exists_field_of_read hfield
    rw [hfield] at hkind
    cases hkind
  · exact absurd hkind ((emits_of_read?_atom context hatom).2 value)
  · exact hliteral
  · simp only [readGlyph?, Option.map_eq_some_iff] at hglyph
    obtain ⟨kind, hglyph, rfl⟩ := hglyph
    obtain rfl : kind = .literal value := hkind
    split at hglyph <;> cases hglyph

/-- A literal that is read where nothing is open, in a source without backslashes, is written as
its value, and is a plain name. -/
theorem exists_plainName_of_contextAt? {source : String} {tokens : List Token}
    (h : tokenize source = .ok tokens) (hescape : '\\' ∉ source.toList) {token : Token}
    (hmem : token ∈ tokens) {value : String} (hkind : token.kind = .literal value)
    (hbare : contextAt? source token.start = some {}) :
    ∃ before after, source.toList = before ++ value.toList ++ after ∧ width before = token.start ∧
      PlainName before value.toList after := by
  obtain ⟨lexemes, progress, lexeme, next, hrun, hstep, hlexeme, hstart, -, hcontext⟩ :=
    exists_step_of_mem_tokenize h hmem
  have hsource := hrun.read_append_rest
  obtain ⟨hnext⟩ := hstep
  rename_i read cs c context behind reading
  obtain rfl : context = {} := Option.some.inj (hcontext.symm.trans hbare)
  -- The literal is the run of plain text that begins at the offset of the token.
  have hread := read?_literal_of_readNext (hlexeme.symm.trans hkind) hnext
  have hescape' : '\\' ∉ c :: cs := fun hmem => by
    have hsource : read ++ (c :: cs) = source.toList := hsource
    rw [← hsource] at hescape
    exact hescape (List.mem_append_right read hmem)
  -- Without backslashes its value is the text that it covers.
  obtain ⟨hvalue, hplain⟩ := Literal.plainName_run hescape' read 0
  have happend := Literal.run_text_append_rest {} read.getLast? 0 (c :: cs)
  rw [Literal.read?] at hread
  split at hread
  next => cases hread
  next =>
    cases hread
    obtain rfl : value = String.ofList (Literal.run {} read.getLast? 0 (c :: cs)).value := by
      simpa [hkind] using hlexeme
    rw [String.toList_ofList, hvalue]
    refine ⟨read, _, ?_, hstart.symm, hplain⟩
    rw [List.append_assoc, happend]
    exact hsource.symm

end Token

end Shorthand
