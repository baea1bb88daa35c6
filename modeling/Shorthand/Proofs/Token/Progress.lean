import Mathlib.Data.List.Basic
import Shorthand.Token.Lexer

/-!
# Reading token by token

Reading an abbreviation goes round by round. Each round splits a token off the source that is left
and passes the context on to the next one. Here a round is a step between states, so that what
holds between two tokens can be said of every state that is reached, also of a source on which a
later round fails.

## Main definitions

* `Progress`: how far the reading of a source has come;
* `Progress.Step`: one round;
* `Progress.Run`: a number of rounds, one after the other.

## Main results

* `Progress.Step.advances`: a round moves behind at least one character of the source;
* `Progress.Run.read_append_rest`: no round loses a character;
* `readAll_eq_ok_iff_exists_run`: the lexemes of a source are those of a run to its end.
-/

namespace Shorthand.Token

/-- How far the reading of a source has come. -/
structure Progress where
  /-- The characters that have been read. -/
  read : List Char
  /-- The characters that are left. -/
  rest : List Char
  /-- What is open between the two. -/
  context : Context

namespace Progress

/-- The progress before the first round. -/
def start (source : List Char) : Progress :=
  { read := [], rest := source, context := {} }

/-- One round: a token is read, and the reading goes on behind it. -/
inductive Step : Progress → Lexeme → Progress → Prop
  | intro {read cs : List Char} {c : Char} {context next : Context} {reading : Reading}
      (h : readNext context read.getLast? c cs = .ok (reading, next)) :
      Step ⟨read, c :: cs, context⟩ ⟨reading.kind, reading.text, context⟩
        ⟨read ++ reading.text, reading.rest, next⟩

/-- Rounds that read the given lexemes, one after the other. -/
inductive Run : Progress → List Lexeme → Progress → Prop
  | nil (progress : Progress) : Run progress [] progress
  | cons {progress next last : Progress} {lexeme : Lexeme} {lexemes : List Lexeme} :
      progress.Step lexeme next → Run next lexemes last → Run progress (lexeme :: lexemes) last

variable {progress next last : Progress} {lexeme : Lexeme} {lexemes : List Lexeme}

/-! ## One round -/

/-- A round moves behind the characters of its token, of which there is at least one. -/
theorem Step.advances (h : progress.Step lexeme next) :
    next.read = progress.read ++ lexeme.text ∧ progress.rest = lexeme.text ++ next.rest ∧
      lexeme.text ≠ [] := by
  obtain ⟨hnext⟩ := h
  have hsplits := splits_of_readNext hnext
  exact ⟨rfl, hsplits.1.symm, hsplits.2⟩

/-! ## Runs -/

/-- A run can go on where another one ends. -/
theorem Run.append {more : List Lexeme} (h : Run progress lexemes next)
    (hmore : Run next more last) : Run progress (lexemes ++ more) last := by
  induction h with
  | nil => exact hmore
  | cons hstep _ ih => exact .cons hstep (ih hmore)

/-- The first rounds of a run are a run, and so are those behind them. -/
theorem Run.exists_of_append {more : List Lexeme} (h : Run progress (lexemes ++ more) last) :
    ∃ next, Run progress lexemes next ∧ Run next more last := by
  induction lexemes generalizing progress with
  | nil => exact ⟨progress, .nil progress, h⟩
  | cons lexeme lexemes ih =>
    obtain _ | ⟨hstep, hrun⟩ := h
    obtain ⟨next, hlexemes, hmore⟩ := ih hrun
    exact ⟨next, .cons hstep hlexemes, hmore⟩

/-- A run moves behind the characters of its tokens. -/
theorem Run.advances (h : Run progress lexemes last) :
    last.read = progress.read ++ (lexemes.map Lexeme.text).flatten ∧
      progress.rest = (lexemes.map Lexeme.text).flatten ++ last.rest := by
  induction h with
  | nil => simp
  | cons hstep _ ih =>
    obtain ⟨hread, hrest, -⟩ := hstep.advances
    refine ⟨?_, ?_⟩
    · rw [ih.1, hread, List.map_cons, List.flatten_cons, List.append_assoc]
    · rw [hrest, ih.2, List.map_cons, List.flatten_cons, List.append_assoc]

/-- What has been read and what is left are the source, after any number of rounds. -/
theorem Run.read_append_rest (h : Run progress lexemes last) :
    last.read ++ last.rest = progress.read ++ progress.rest := by
  obtain ⟨hread, hrest⟩ := h.advances
  rw [hread, hrest, List.append_assoc]

/-- Every token of a run has at least one character. -/
theorem Run.text_ne_nil (h : Run progress lexemes last) :
    ∀ lexeme ∈ lexemes, lexeme.text ≠ [] := by
  induction h with
  | nil => simp
  | cons hstep _ ih =>
    intro lexeme hmem
    rcases List.mem_cons.1 hmem with rfl | hmem
    · exact hstep.advances.2.2
    · exact ih lexeme hmem

end Progress

/-! ## The reading as a run -/

/-- Reading on where a token can be read gives that token and what follows it. -/
theorem readAll_cons_of_readNext {context next : Context} {before : Option Char} {c : Char}
    {cs : List Char} {reading : Reading} (h : readNext context before c cs = .ok (reading, next)) :
    readAll context before (c :: cs) =
      (readAll next reading.text.getLast? reading.rest).map
        ({ kind := reading.kind, text := reading.text, context } :: ·) := by
  rw [readAll]
  split
  next fault hfault => simp [h] at hfault
  next reading' next' hnext =>
    rw [h, Except.ok.injEq, Prod.mk.injEq] at hnext
    rw [hnext.1, hnext.2]

namespace Progress

/-- The character before what is left is the last one of the token that was read last. -/
theorem getLast?_read_append {context next : Context} {before : Option Char} {c : Char}
    {cs : List Char} {reading : Reading} (h : readNext context before c cs = .ok (reading, next))
    (read : List Char) : (read ++ reading.text).getLast? = reading.text.getLast? :=
  List.getLast?_append_of_ne_nil read (splits_of_readNext h).2

/-- Reading on from a state gives the lexemes of a run that leads to the end of the source. -/
theorem exists_run_of_readAll {progress : Progress} {lexemes : List Lexeme}
    (h : readAll progress.context progress.read.getLast? progress.rest = .ok lexemes) :
    ∃ last, Run progress lexemes last ∧ last.rest = [] := by
  obtain ⟨read, rest, context⟩ := progress
  dsimp only at h
  -- The reading only keeps the last character that was read, the state keeps all of them.
  generalize hbefore : read.getLast? = before at h
  fun_induction readAll context before rest generalizing read lexemes with
  | case1 context before =>
    cases h
    exact ⟨_, .nil _, rfl⟩
  | case2 => cases h
  | case3 context before c cs reading next hnext hlt ih =>
    subst hbefore
    obtain ⟨more, hmore, heq⟩ := Except.map_eq_ok_iff.1 h
    cases heq
    obtain ⟨last, hrun, hend⟩ := ih _ (getLast?_read_append hnext read) hmore
    exact ⟨last, .cons (.intro hnext) hrun, hend⟩

/-- The lexemes of a run come before those that are read from its end on. -/
theorem Run.readAll_eq (h : Run progress lexemes last) :
    readAll progress.context progress.read.getLast? progress.rest =
      (readAll last.context last.read.getLast? last.rest).map (lexemes ++ ·) := by
  induction h with
  | nil progress =>
    cases readAll progress.context progress.read.getLast? progress.rest <;> simp [Except.map]
  | @cons _ _ last _ lexemes hstep _ ih =>
    obtain ⟨hnext⟩ := hstep
    dsimp only at ih ⊢
    rw [readAll_cons_of_readNext hnext, ← getLast?_read_append hnext, ih]
    cases readAll last.context last.read.getLast? last.rest <;> simp [Except.map]

end Progress

/-- The lexemes that are read from a state on are those of the run that leads from it to the end of
the source. -/
theorem readAll_eq_ok_iff_exists_run {progress : Progress} {lexemes : List Lexeme} :
    readAll progress.context progress.read.getLast? progress.rest = .ok lexemes ↔
      ∃ last, progress.Run lexemes last ∧ last.rest = [] := by
  constructor
  · exact Progress.exists_run_of_readAll
  · rintro ⟨last, hrun, hend⟩
    rw [hrun.readAll_eq, hend, readAll]
    simp [Except.map]

/-! ## Places -/

/-- The kinds of tokens do not change when they are placed. -/
theorem map_kind_place (offset : Nat) (lexemes : List Lexeme) :
    (place offset lexemes).map Token.kind = lexemes.map Lexeme.kind := by
  induction lexemes generalizing offset with
  | nil => rfl
  | cons lexeme lexemes ih => rw [place, List.map_cons, ih, List.map_cons]

/-- An abbreviation can be read if and only if there is a run from its beginning to its end. -/
theorem tokenize_eq_ok_iff_exists_run {abbreviation : String} {tokens : List Token} :
    tokenize abbreviation = .ok tokens ↔
      ∃ lexemes last, (Progress.start abbreviation.toList).Run lexemes last ∧ last.rest = [] ∧
        tokens = place 0 lexemes := by
  have hall := @readAll_eq_ok_iff_exists_run (Progress.start abbreviation.toList)
  simp only [Progress.start, List.getLast?_nil] at hall
  rw [tokenize]
  cases hread : readAll {} none abbreviation.toList with
  -- A run to the end would be a reading that succeeds.
  | error fault =>
    simp only [reduceCtorEq, false_iff]
    rintro ⟨lexemes, last, hrun, hend, -⟩
    have := hall.2 ⟨last, hrun, hend⟩
    simp [hread] at this
  | ok lexemes =>
    simp only [hread, Except.ok.injEq] at hall
    simp only [Except.ok.injEq]
    constructor
    · rintro rfl
      obtain ⟨last, hrun, hend⟩ := hall.1 rfl
      exact ⟨lexemes, last, hrun, hend, rfl⟩
    · rintro ⟨lexemes', last, hrun, hend, rfl⟩
      rw [hall.2 ⟨last, hrun, hend⟩]

end Shorthand.Token
