import Shorthand.Expansion.Basic
import Shorthand.Proofs.Statement.FaultPlaces
import Shorthand.Proofs.Token.Rejection

/-!
# Errors point into the source

Every error of an expansion has a place in the abbreviation that was to be expanded: a range of
whole characters, which is empty only behind the last one. What is marked there is what the error is
about. A character that is rejected is marked by itself, a token by all of its characters, and where
several tokens or characters are missing the place is where they should be.

Options have been read before an abbreviation is expanded, so no error of an expansion is about
them.

## Main definitions

* `Error.Marks`: the error marks in a source what it is about.

## Main results

* `pointsInto_of_mem_tokenize`: tokens are ranges of whole characters;
* `marks_of_tokenize`, `marks_of_ofTokens`: errors about characters and errors about tokens;
* `marks_of_expand`: every error of an expansion points into the source.
-/

namespace Shorthand

open Text (Span width)

/-- In `source`, the span covers one of the tokens, of such a kind. -/
def Token.Covered (source : String) (span : Span) (fits : Token.Kind → Prop) : Prop :=
  ∃ tokens, tokenize source = .ok tokens ∧ ∃ token ∈ tokens, token.span = span ∧ fits token.kind

/-- The error marks in the source what it is about, which is a single character or a token. A field
and a group that are not closed may be marked in other ways. -/
def Error.Marks (source : String) : Error → Prop
  | .unexpectedCharacter c span =>
    (Text.Cursor.ofString source).slice? span.offset (span.offset + span.length) = some [c]
  | .unexpectedToken found span => Token.Covered source span (· = found)
  | .unmatchedGroupClose span => Token.Covered source span (· = .bracket .group false)
  | .malformedAttribute span => Token.Covered source span (· = .operator .equal)
  | .unexpectedSelfClosing span => Token.Covered source span (· = .operator .close)
  | .unterminatedQuote span => Token.Covered source span (∃ mark, · = .quote mark)
  | .unterminatedField _ | .unclosedGroup _ | .optionsRejected => True

/-! ## Errors about characters -/

namespace Token

variable {source : String} {tokens : List Token} {token : Token} {error : Error}

/-- Tokens are ranges of whole characters. -/
theorem pointsInto_of_mem_tokenize (h : tokenize source = .ok tokens) (hmem : token ∈ tokens) :
    token.span.PointsInto source := by
  obtain ⟨lexemes, progress, lexeme, next, hrun, hstep, -, hstart, hstop, -⟩ :=
    exists_step_of_mem_tokenize h hmem
  obtain ⟨-, hrest, hne⟩ := hstep.advances
  have hsource := hrun.read_append_rest
  rw [hrest] at hsource
  have hspan : token.span = ⟨width progress.read, width lexeme.text⟩ := by
    rw [span, hstop, hstart, Nat.add_sub_cancel_left, Progress.position]
  rw [hspan]
  exact Text.pointsInto_of_split hsource.symm fun hempty => absurd hempty hne

/-- The last token stops where all of them do. -/
theorem Covers.stop_getLast? {start stop : Nat} (h : Covers start stop tokens) :
    (tokens.getLast?.map Token.stop).getD start = stop := by
  induction tokens generalizing start with
  | nil => exact h
  | cons token tokens ih =>
    rw [← ih h.2, List.getLast?_cons]
    cases tokens.getLast? <;> rfl

/-- What a fault marks is where what is left begins, and is empty only if nothing is left. -/
theorem Fault.pointsInto {fault : Fault} {before after : List Char}
    (hsource : source.toList = before ++ fault.remaining)
    (hmarked : fault.remaining = fault.marked ++ after) (hend : fault.marked = [] → after = []) :
    (fault.span source.toList).PointsInto source := by
  have hspan : fault.span source.toList = ⟨width before, width fault.marked⟩ := by
    rw [span, hsource, Text.width_append, Nat.add_sub_cancel]
  rw [hspan]
  exact Text.pointsInto_of_split (hmarked ▸ hsource) hend

/-- A faulty field is marked in the source that it stands in. -/
theorem pointsInto_of_faulty {fault : Fault} {before body : List Char}
    (hsource : source.toList = before ++ '$' :: '{' :: body) (h : Field.Faulty body fault) :
    (fault.span source.toList).PointsInto source := by
  cases h with
  | @unclosedField read rest hne hsplit =>
    have hremaining : source.toList = before ++ (read ++ rest) := by rw [hsource, hsplit]
    exact Fault.pointsInto hremaining rfl fun hempty => absurd hempty hne
  | @unclosedBrace inner hsuffix =>
    -- The place is behind a brace, somewhere in the body of the field.
    obtain ⟨front, rfl⟩ := hsuffix
    have hremaining : source.toList = (before ++ '$' :: '{' :: front) ++ inner := by
      rw [hsource, List.append_assoc]
      rfl
    refine Fault.pointsInto hremaining (List.take_append_drop 1 inner).symm fun hempty => ?_
    cases inner with
    | nil => rfl
    | cons => cases hempty

/-- A source that is refused is refused at a place in it. -/
theorem marks_of_tokenize (h : tokenize source = .error error) :
    ∃ span, error.span? = some span ∧ span.PointsInto source ∧ error.Marks source := by
  obtain ⟨done, progress, c, rest, fault, hreaches, hrest, hfails, rfl⟩ :=
    tokenize_eq_error_iff.1 h
  have hsource := hreaches.read_append_rest
  rw [hrest] at hsource
  rcases readNext_eq_error hfails with ⟨rfl, -, -⟩ | ⟨-, rfl, body, rfl, hfaulty⟩
  · have hmarked : (Fault.unexpectedCharacter c rest).remaining = [c] ++ rest := rfl
    refine ⟨_, rfl, Fault.pointsInto hsource hmarked (by simp [Fault.marked]), ?_⟩
    rw [Fault.error, Error.Marks, hreaches.span_eq hrest, Text.Cursor.slice?_eq_some_iff]
    refine ⟨progress.read, rest, ?_, rfl, ?_⟩
    · rw [List.append_assoc]
      exact hsource
    · rw [Text.width_append]
      rfl
  · rw [hfaulty.error_eq]
    exact ⟨_, rfl, pointsInto_of_faulty hsource hfaulty, trivial⟩

end Token

/-! ## Errors about tokens -/

namespace Statement

variable {source : String} {tokens : List Token} {fault : Fault}

/-- A fault in the tokens of a source is a place in the source. -/
theorem pointsInto_of_liesIn (h : Token.tokenize source = .ok tokens)
    (hlies : fault.LiesIn tokens) : (fault.span tokens).PointsInto source := by
  cases hlies with
  | token hsuffix => exact Token.pointsInto_of_mem_tokenize h (hsuffix.subset List.mem_cons_self)
  | @ending =>
    obtain ⟨lexemes, last, hrun, hend, rfl⟩ := Token.tokenize_eq_ok_iff_exists_run.1 h
    have hstop := (Token.partition_of_run hrun hend).covers.stop_getLast?
    have hspan : Fault.span (Token.place 0 lexemes) { cause := .unclosedGroup, rest := [] } =
        ⟨width source.toList, width []⟩ := by
      rw [Fault.span, hstop, Text.utf8ByteSize_eq_width]
      rfl
    rw [hspan]
    exact Text.pointsInto_of_split (List.append_nil _).symm id

/-- An error about tokens is placed where the fault lies. -/
theorem Fault.span?_error (tokens : List Token) (fault : Fault) :
    (fault.error tokens).span? = some (fault.span tokens) := by
  obtain ⟨cause, rest⟩ := fault
  cases cause <;> rfl

/-- An error about a token marks it. -/
theorem Fault.LiesIn.marks (h : Token.tokenize source = .ok tokens) (hlies : fault.LiesIn tokens) :
    (fault.error tokens).Marks source := by
  cases hlies with
  | @token cause token behind hsuffix hfits =>
    have hmem : token ∈ tokens := hsuffix.subset List.mem_cons_self
    cases cause with
    | unclosedGroup => trivial
    | _ => exact ⟨tokens, h, token, hmem, rfl, hfits⟩
  | ending => trivial

/-- An error about tokens points into the source that they are read from. -/
theorem marks_of_ofTokens {jsx : Bool} {error : Error} (h : Token.tokenize source = .ok tokens)
    (herror : ofTokens jsx tokens = .error error) :
    ∃ span, error.span? = some span ∧ span.PointsInto source ∧ error.Marks source := by
  cases hread : readAll jsx {} [] tokens with
  | ok => simp [ofTokens, hread, Except.mapError] at herror
  | error fault =>
    obtain rfl : fault.error tokens = error := by
      simpa [ofTokens, hread, Except.mapError] using herror
    have hlies := liesIn_of_readAll hread
    exact ⟨_, fault.span?_error tokens, pointsInto_of_liesIn h hlies, hlies.marks h⟩

end Statement

/-- Every error of an expansion points into the source. It is not about the options, and what it
marks is a range of whole characters, which is empty only behind the last one. A character that is
rejected is marked by itself, and a token that is wrong is marked as a whole. -/
theorem marks_of_expand (options : Options) (source : String) (error : Error)
    (h : expand options source = .error error) :
    error ≠ .optionsRejected ∧
      ∃ span, error.span? = some span ∧ span.PointsInto source ∧ error.Marks source := by
  have hmarks : ∃ span, error.span? = some span ∧ span.PointsInto source ∧ error.Marks source := by
    have hparse : Statement.parse options.jsx source = .error error := Except.map_eq_error_iff.1 h
    unfold Statement.parse at hparse
    split at hparse
    next tokens htokens => exact Statement.marks_of_ofTokens htokens hparse
    next herror =>
      cases hparse
      exact Token.marks_of_tokenize herror
  refine ⟨?_, hmarks⟩
  rintro rfl
  obtain ⟨span, hspan, -⟩ := hmarks
  cases hspan

/-- A quotation mark that nothing closes, behind a character that is two bytes wide. -/
theorem marks_of_expand_quote :
    expand {} "é[b=\x27c]" = .error (.unterminatedQuote ⟨5, 1⟩) ∧
      Error.unterminatedQuote ⟨5, 1⟩ ≠ .optionsRejected ∧
      ∃ span, (Error.unterminatedQuote ⟨5, 1⟩).span? = some span ∧
        span.PointsInto "é[b=\x27c]" ∧ (Error.unterminatedQuote ⟨5, 1⟩).Marks "é[b=\x27c]" := by
  have htokens : Token.tokenize "é[b=\x27c]" = .ok [⟨.literal "é", 0, 2⟩,
      ⟨.bracket .attributes true, 2, 3⟩, ⟨.literal "b", 3, 4⟩, ⟨.operator .equal, 4, 5⟩,
      ⟨.quote .single, 5, 6⟩, ⟨.literal "c]", 6, 8⟩] := by
    decide +kernel
  have helement : Statement.readElement? false [⟨.literal "é", 0, 2⟩,
      ⟨.bracket .attributes true, 2, 3⟩, ⟨.literal "b", 3, 4⟩, ⟨.operator .equal, 4, 5⟩,
      ⟨.quote .single, 5, 6⟩, ⟨.literal "c]", 6, 8⟩] = .error
        { cause := .unterminatedQuote
          rest := [⟨.quote .single, 5, 6⟩, ⟨.literal "c]", 6, 8⟩] } := by
    decide +kernel
  have hexpand : expand {} "é[b=\x27c]" = .error (.unterminatedQuote ⟨5, 1⟩) := by
    rw [expand, Statement.parse, htokens]
    dsimp only
    rw [Statement.ofTokens, Statement.readAll_of_error helement]
    rfl
  exact ⟨hexpand, marks_of_expand {} _ _ hexpand⟩

end Shorthand
