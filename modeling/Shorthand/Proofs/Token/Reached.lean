import Mathlib.Logic.ExistsUnique
import Shorthand.Proofs.Token.Partition

/-!
# Points of a reading

Behind any number of its tokens, the reading of a source has come to a point: some characters have
been read, the others are left, and something is open between the two. A source is read to its end,
or up to a point behind which no token can be read.

## Main definitions

* `Reaches`: the reading of a source comes to a point behind some tokens.

## Main results

* `existsUnique_reaches`: behind each beginning of the tokens of a source there is one point;
* `Reaches.exists_step`: from each of these points a round reads the next token;
* `tokenize_eq_error_iff`: a source that is refused is read up to a point where a round fails.
-/

namespace Shorthand.Token

open Text (width)

variable {source : String} {before after tokens : List Token} {token : Token}

/-- Behind the tokens `tokens`, the reading of `source` has come to `progress`. -/
def Reaches (source : String) (tokens : List Token) (progress : Progress) : Prop :=
  ∃ lexemes, (Progress.start source.toList).Run lexemes progress ∧ tokens = place 0 lexemes

namespace Progress

variable {progress next last : Progress} {lexeme : Lexeme} {lexemes more : List Lexeme}

/-- A round has one outcome. -/
theorem Step.unique {next' : Progress} {lexeme' : Lexeme} (h : progress.Step lexeme next)
    (h' : progress.Step lexeme' next') : lexeme = lexeme' ∧ next = next' := by
  obtain ⟨hnext⟩ := h
  obtain ⟨hnext'⟩ := h'
  obtain ⟨rfl, rfl⟩ := Prod.mk.inj (Except.ok.inj (hnext.symm.trans hnext'))
  exact ⟨rfl, rfl⟩

/-- As many rounds as before lead to the same point. -/
theorem Run.unique {last' : Progress} {lexemes' : List Lexeme} (h : progress.Run lexemes last)
    (h' : progress.Run lexemes' last') (hlength : lexemes.length = lexemes'.length) :
    last = last' := by
  induction h generalizing lexemes' with
  | nil =>
    cases h' with
    | nil => rfl
    | cons => simp at hlength
  | cons hstep _ ih =>
    cases h' with
    | nil => simp at hlength
    | cons hstep' hrun' =>
      obtain ⟨-, rfl⟩ := hstep.unique hstep'
      exact ih hrun' (by simpa using hlength)

/-- A run from the beginning of a source moves the cursor by the widths of its tokens. -/
theorem Run.position_eq {source : List Char} (h : (start source).Run lexemes last) :
    last.position = width (lexemes.map Lexeme.text).flatten := by
  rw [position, h.advances.1]
  rfl

end Progress

/-- Tokens in their places come from lexemes in front and lexemes behind. -/
theorem exists_append_of_place_eq {offset : Nat} {lexemes : List Lexeme}
    (h : place offset lexemes = before ++ after) :
    ∃ done more, lexemes = done ++ more ∧ before = place offset done ∧
      after = place (offset + width (done.map Lexeme.text).flatten) more := by
  induction before generalizing offset lexemes with
  | nil => exact ⟨[], lexemes, rfl, rfl, h.symm⟩
  | cons token before ih =>
    cases lexemes with
    | nil => cases h
    | cons lexeme lexemes =>
      obtain ⟨rfl, htail⟩ := List.cons_eq_cons.1 h
      obtain ⟨done, more, rfl, rfl, rfl⟩ := ih htail
      refine ⟨lexeme :: done, more, rfl, rfl, ?_⟩
      rw [List.map_cons, List.flatten_cons, Text.width_append, Nat.add_assoc]

theorem length_place (offset : Nat) (lexemes : List Lexeme) :
    (place offset lexemes).length = lexemes.length := by
  induction lexemes generalizing offset with
  | nil => rfl
  | cons lexeme lexemes ih => simp [place, ih]

namespace Reaches

variable {progress next : Progress} {lexeme : Lexeme}

/-- What has been read and what is left are the source. -/
theorem read_append_rest (h : Reaches source before progress) :
    source.toList = progress.read ++ progress.rest := by
  obtain ⟨lexemes, hrun, -⟩ := h
  exact hrun.read_append_rest.symm

/-- There is at most one point behind some tokens. -/
theorem unique {progress' : Progress} (h : Reaches source before progress)
    (h' : Reaches source before progress') : progress = progress' := by
  obtain ⟨lexemes, hrun, rfl⟩ := h
  obtain ⟨lexemes', hrun', hplace⟩ := h'
  refine hrun.unique hrun' ?_
  rw [← length_place 0, hplace, length_place]

/-- A round leads from one point to the next one. -/
theorem step (h : Reaches source before progress) (hstep : progress.Step lexeme next) :
    Reaches source (before ++ [⟨lexeme.kind, progress.position, next.position⟩]) next := by
  obtain ⟨lexemes, hrun, rfl⟩ := h
  refine ⟨lexemes ++ [lexeme], hrun.append (.cons hstep (.nil next)), ?_⟩
  rw [place_append, Nat.zero_add, ← hrun.position_eq, hstep.position_eq]
  rfl

/-- From each point in a source that can be read, a run leads over the other tokens to its end. -/
theorem exists_run (h : Reaches source before progress)
    (htokens : tokenize source = .ok (before ++ after)) :
    ∃ lexemes last, progress.Run lexemes last ∧ last.rest = [] ∧
      after = place progress.position lexemes := by
  obtain ⟨done, hdone, rfl⟩ := h
  obtain ⟨lexemes, last, hrun, hend, hplace⟩ := tokenize_eq_ok_iff_exists_run.1 htokens
  obtain ⟨first, more, rfl, hfirst, rfl⟩ := exists_append_of_place_eq hplace.symm
  obtain ⟨reached, hreached, hmore⟩ := hrun.exists_of_append
  -- As many rounds have been made on both ways, so they have come to the same point.
  obtain rfl : progress = reached := by
    refine hdone.unique hreached ?_
    rw [← length_place 0, hfirst, length_place]
  refine ⟨more, last, hmore, hend, ?_⟩
  rw [Nat.zero_add, ← hreached.position_eq]

/-- From each point in a source that can be read, a round reads the next token. -/
theorem exists_step (h : Reaches source before progress)
    (htokens : tokenize source = .ok (before ++ token :: after)) :
    ∃ lexeme next, progress.Step lexeme next ∧
      token = ⟨lexeme.kind, progress.position, next.position⟩ ∧
      Reaches source (before ++ [token]) next := by
  obtain ⟨lexemes, last, hrun, -, hplace⟩ := h.exists_run htokens
  cases hrun with
  | nil => cases hplace
  | @cons _ next _ lexeme _ hstep hrun =>
    obtain ⟨rfl, -⟩ := List.cons_eq_cons.1 hplace
    have hreaches := h.step hstep
    rw [← hstep.position_eq]
    exact ⟨lexeme, next, hstep, rfl, hreaches⟩

end Reaches

/-- Behind each beginning of the tokens of a source there is one point of its reading. -/
theorem existsUnique_reaches (h : tokenize source = .ok (before ++ after)) :
    ∃! progress, Reaches source before progress := by
  obtain ⟨lexemes, last, hrun, -, hplace⟩ := tokenize_eq_ok_iff_exists_run.1 h
  obtain ⟨done, more, rfl, hdone, -⟩ := exists_append_of_place_eq hplace.symm
  obtain ⟨progress, hprogress, -⟩ := hrun.exists_of_append
  have hreaches : Reaches source before progress := ⟨done, hprogress, hdone⟩
  exact ⟨progress, hreaches, fun _ hother => hother.unique hreaches⟩

/-- A source can be read if and only if behind its tokens nothing of it is left. -/
theorem tokenize_eq_ok_iff_reaches :
    tokenize source = .ok tokens ↔ ∃ last, Reaches source tokens last ∧ last.rest = [] := by
  rw [tokenize_eq_ok_iff_exists_run]
  constructor
  · rintro ⟨lexemes, last, hrun, hend, hplace⟩
    exact ⟨last, ⟨lexemes, hrun, hplace⟩, hend⟩
  · rintro ⟨last, ⟨lexemes, hrun, hplace⟩, hend⟩
    exact ⟨lexemes, last, hrun, hend, hplace⟩

/-! ## Where a reading fails -/

/-- A reading that fails comes to a point where a round fails. -/
theorem exists_run_of_readAll_error {progress : Progress} {fault : Fault}
    (h : readAll progress.context progress.read.getLast? progress.rest = .error fault) :
    ∃ lexemes last c cs, progress.Run lexemes last ∧ last.rest = c :: cs ∧
      readNext last.context last.read.getLast? c cs = .error fault := by
  obtain ⟨read, rest, context⟩ := progress
  dsimp only at h
  -- The reading only keeps the last character that was read, the state keeps all of them.
  generalize hbefore : read.getLast? = before at h
  fun_induction readAll context before rest generalizing read with
  | case1 => cases h
  | case2 context before c cs error hnext =>
    cases h
    subst hbefore
    exact ⟨[], _, c, cs, .nil _, rfl, hnext⟩
  | case3 context before c cs reading next hnext hlt ih =>
    subst hbefore
    have hmore := Except.map_eq_error_iff.1 h
    obtain ⟨lexemes, last, d, ds, hrun, hrest, hfails⟩ :=
      ih _ (Progress.getLast?_read_append hnext read) hmore
    exact ⟨_ :: lexemes, last, d, ds, .cons (.intro hnext) hrun, hrest, hfails⟩

/-- Reading fails where a token cannot be read. -/
theorem readAll_cons_of_error {context : Context} {previous : Option Char} {c : Char}
    {cs : List Char} {fault : Fault} (h : readNext context previous c cs = .error fault) :
    readAll context previous (c :: cs) = .error fault := by
  rw [readAll]
  split
  next other hother => rw [← Except.error.inj (h.symm.trans hother)]
  next hnext => simp [h] at hnext

/-- A source is refused if and only if its reading comes to a point where a round fails. -/
theorem tokenize_eq_error_iff {error : Error} :
    tokenize source = .error error ↔ ∃ before progress c cs fault,
      Reaches source before progress ∧ progress.rest = c :: cs ∧
      readNext progress.context progress.read.getLast? c cs = .error fault ∧
      error = fault.error source.toList := by
  rw [tokenize]
  constructor
  · intro h
    cases hread : readAll {} none source.toList with
    | ok => simp [hread] at h
    | error fault =>
      simp only [hread, Except.error.injEq] at h
      obtain ⟨lexemes, last, c, cs, hrun, hrest, hfails⟩ :=
        @exists_run_of_readAll_error (Progress.start source.toList) _ hread
      exact ⟨_, last, c, cs, fault, ⟨lexemes, hrun, rfl⟩, hrest, hfails, h.symm⟩
  · rintro ⟨before, progress, c, cs, fault, ⟨lexemes, hrun, -⟩, hrest, hfails, rfl⟩
    have hread := hrun.readAll_eq
    rw [hrest, readAll_cons_of_error hfails] at hread
    have hread : readAll {} none source.toList = .error fault := hread
    rw [hread]

end Shorthand.Token
