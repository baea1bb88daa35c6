import Shorthand.Proofs.Text.Boundary
import Shorthand.Proofs.Token.Progress

/-!
# Tokens divide the source

The tokens of an abbreviation cover it from end to end: each byte belongs to exactly one token,
and no token begins or ends inside a character. Reading comes to an end because each round moves
the cursor by whole characters.

## Main definitions

* `Covers`: tokens that stand one behind the other without a gap;
* `Partition`: tokens that divide a source among them.

## Main results

* `tokenize_partition`: the tokens of a source divide it, and each round of the reading moves the
  cursor from one character boundary to a later one.
-/

namespace Shorthand.Token

open Text (width)

/-- The tokens stand one behind the other without a gap, from byte `start` up to byte `stop`. -/
def Covers (start stop : Nat) : List Token → Prop
  | [] => start = stop
  | token :: tokens => token.start = start ∧ Covers token.stop stop tokens

/-- The characters of a source that a token covers. -/
def slice? (source : String) (token : Token) : Option (List Char) :=
  (Text.Cursor.ofString source).slice? token.start token.stop

/-- The tokens divide a source among them. -/
structure Partition (source : String) (tokens : List Token) : Prop where
  /-- The first token begins at the first byte, each other one where the one before it ends, and
  the last one ends behind the last byte. -/
  covers : Covers 0 source.utf8ByteSize tokens
  /-- No token is empty. -/
  nonempty : ∀ token ∈ tokens, token.start < token.stop
  /-- Every token begins and ends at a character boundary. -/
  boundaries : ∀ token ∈ tokens, (⟨token.start⟩ : String.Pos.Raw).IsValid source ∧
    (⟨token.stop⟩ : String.Pos.Raw).IsValid source
  /-- The slices that the tokens cover are the source, one after the other. -/
  rebuilds : ∃ texts : List (List Char),
    tokens.map (slice? source) = texts.map some ∧ texts.flatten = source.toList
  /-- Only an empty source has no tokens. -/
  eq_nil_iff : tokens = [] ↔ source = ""

/-- The byte offset of the cursor between what has been read and what is left. -/
def Progress.position (progress : Progress) : Nat :=
  width progress.read

/-! ## Places of lexemes -/

/-- The tokens of one place stop in one place. -/
theorem Covers.stop_unique {start stop stop' : Nat} {tokens : List Token}
    (h : Covers start stop tokens) (h' : Covers start stop' tokens) : stop = stop' := by
  induction tokens generalizing start with
  | nil => exact h.symm.trans h'
  | cons token tokens ih => exact ih h.2 h'.2

/-- Lexemes behind others are placed behind them. -/
theorem place_append (offset : Nat) (lexemes more : List Lexeme) :
    place offset (lexemes ++ more) =
      place offset lexemes ++ place (offset + width (lexemes.map Lexeme.text).flatten) more := by
  induction lexemes generalizing offset with
  | nil => rfl
  | cons lexeme lexemes ih =>
    simp only [List.cons_append, place, ih, List.map_cons, List.flatten_cons, Text.width_append,
      Nat.add_assoc]

/-- Lexemes are placed one behind the other. -/
theorem covers_place (offset : Nat) (lexemes : List Lexeme) :
    Covers offset (offset + width (lexemes.map Lexeme.text).flatten) (place offset lexemes) := by
  induction lexemes generalizing offset with
  | nil => simp [place, Covers]
  | cons lexeme lexemes ih =>
    refine ⟨rfl, ?_⟩
    have hmore := ih (offset + width lexeme.text)
    rw [List.map_cons, List.flatten_cons, Text.width_append, ← Nat.add_assoc]
    exact hmore

/-- A lexeme is placed where its characters stand, if the characters before it are as wide as the
offset. -/
theorem exists_split_of_mem_place (before after : List Char) {lexemes : List Lexeme}
    {token : Token} (hmem : token ∈ place (width before) lexemes) :
    ∃ lexeme ∈ lexemes, ∃ left right,
      before ++ (lexemes.map Lexeme.text).flatten ++ after = left ++ lexeme.text ++ right ∧
        token.start = width left ∧ token.stop = width (left ++ lexeme.text) := by
  induction lexemes generalizing before with
  | nil => simp [place] at hmem
  | cons lexeme lexemes ih =>
    simp only [place, List.mem_cons, ← Text.width_append] at hmem
    rcases hmem with rfl | hmem
    · refine ⟨lexeme, List.mem_cons_self, before, (lexemes.map Lexeme.text).flatten ++ after, ?_,
        rfl, rfl⟩
      simp only [List.map_cons, List.flatten_cons, List.append_assoc]
    · obtain ⟨found, hfound, left, right, hsplit, hplace⟩ := ih _ hmem
      refine ⟨found, List.mem_cons_of_mem _ hfound, left, right, ?_, hplace⟩
      rw [← hsplit]
      simp only [List.map_cons, List.flatten_cons, List.append_assoc]

/-- The slices that placed lexemes cover are their characters. -/
theorem map_slice?_place {source : String} {before after : List Char} {lexemes : List Lexeme}
    (hsource : source.toList = before ++ (lexemes.map Lexeme.text).flatten ++ after) :
    (place (width before) lexemes).map (slice? source) =
      (lexemes.map Lexeme.text).map some := by
  induction lexemes generalizing before with
  | nil => rfl
  | cons lexeme lexemes ih =>
    have hslice : slice? source ⟨lexeme.kind, width before, width (before ++ lexeme.text)⟩ =
        some lexeme.text := by
      rw [slice?, Text.Cursor.slice?_eq_some_iff]
      refine ⟨before, (lexemes.map Lexeme.text).flatten ++ after, ?_, rfl, rfl⟩
      rw [Text.Cursor.ofString, hsource]
      simp only [List.map_cons, List.flatten_cons, List.append_assoc]
    have hmore := @ih (before ++ lexeme.text) (by
      rw [hsource]
      simp only [List.map_cons, List.flatten_cons, List.append_assoc])
    simp only [place, List.map_cons, ← Text.width_append, hslice, hmore]

/-- The lexemes of a run through a whole source divide it. -/
theorem partition_of_run {source : String} {lexemes : List Lexeme} {last : Progress}
    (hrun : (Progress.start source.toList).Run lexemes last) (hend : last.rest = []) :
    Partition source (place 0 lexemes) := by
  have htexts : source.toList = (lexemes.map Lexeme.text).flatten := by
    have hrest := hrun.advances.2
    rwa [hend, List.append_nil] at hrest
  have hsource : source.toList = [] ++ (lexemes.map Lexeme.text).flatten ++ [] := by
    rw [htexts, List.nil_append, List.append_nil]
  refine ⟨?_, ?_, ?_, ?_, ?_⟩
  -- The tokens stand one behind the other.
  · have hcovers := covers_place 0 lexemes
    rwa [← htexts, Nat.zero_add, ← Text.utf8ByteSize_eq_width] at hcovers
  -- A round reads at least one character, and no character has width zero.
  · intro token hmem
    obtain ⟨lexeme, hlexeme, left, right, -, hstart, hstop⟩ :=
      exists_split_of_mem_place [] [] hmem
    have hpos : width lexeme.text ≠ 0 := by
      rw [ne_eq, Text.width_eq_zero_iff]
      exact hrun.text_ne_nil lexeme hlexeme
    rw [hstart, hstop, Text.width_append]
    omega
  -- Each token begins behind whole characters and ends behind whole characters.
  · intro token hmem
    obtain ⟨lexeme, -, left, right, hsplit, hstart, hstop⟩ :=
      exists_split_of_mem_place [] [] hmem
    rw [← hsource] at hsplit
    rw [hstart, hstop]
    have hstop : source.toList = left ++ (lexeme.text ++ right) := by
      rw [hsplit, List.append_assoc]
    exact ⟨Text.isValid_width hstop, Text.isValid_width hsplit⟩
  -- The slices are the texts of the lexemes.
  · exact ⟨lexemes.map Lexeme.text, map_slice?_place hsource, htexts.symm⟩
  · rw [← String.toList_eq_nil_iff, htexts]
    cases lexemes with
    | nil => simp [place]
    | cons lexeme lexemes =>
      have hne := hrun.text_ne_nil lexeme List.mem_cons_self
      simp [place, hne]

/-! ## The cursor -/

/-- The cursor is at a character boundary after any number of rounds. -/
theorem Progress.Run.isValid_position {source : String} {lexemes : List Lexeme}
    {progress : Progress} (hrun : (start source.toList).Run lexemes progress) :
    (⟨progress.position⟩ : String.Pos.Raw).IsValid source :=
  Text.isValid_width hrun.read_append_rest.symm

/-- A round moves the cursor by the width of its token. -/
theorem Progress.Step.position_eq {progress next : Progress} {lexeme : Lexeme}
    (hstep : progress.Step lexeme next) :
    next.position = progress.position + width lexeme.text := by
  rw [position, position, hstep.advances.1, Text.width_append]

/-- The tokens of a source divide it among them. On every source, also on one that is refused in
the end, each round that reads a token moves the cursor behind at least one whole character, from
one character boundary to another. -/
theorem tokenize_partition (source : String) :
    (∀ tokens, tokenize source = .ok tokens → Partition source tokens) ∧
      ∀ lexemes progress lexeme next, (Progress.start source.toList).Run lexemes progress →
        progress.Step lexeme next →
          (∃ text, text ≠ [] ∧ progress.rest = text ++ next.rest ∧
            next.position = progress.position + width text) ∧
          (⟨progress.position⟩ : String.Pos.Raw).IsValid source ∧
          (⟨next.position⟩ : String.Pos.Raw).IsValid source := by
  constructor
  · intro tokens htokens
    obtain ⟨lexemes, last, hrun, hend, rfl⟩ := tokenize_eq_ok_iff_exists_run.1 htokens
    exact partition_of_run hrun hend
  · intro lexemes progress lexeme next hrun hstep
    obtain ⟨-, hrest, hne⟩ := hstep.advances
    have hnext := hrun.append (.cons hstep (.nil next))
    exact ⟨⟨lexeme.text, hne, hrest, hstep.position_eq⟩, hrun.isValid_position,
      hnext.isValid_position⟩

/-- A source that can be read, and the first round on one that is refused at its second character:
the literal is two bytes wide. -/
theorem tokenize_partition_accented :
    Partition "é>p\x7b$#\x7d" [⟨.literal "é", 0, 2⟩, ⟨.operator .child, 2, 3⟩, ⟨.literal "p", 3, 4⟩,
        ⟨.bracket .expression true, 4, 5⟩, ⟨.placeholder, 5, 7⟩,
        ⟨.bracket .expression false, 7, 8⟩] ∧
      (⟨(⟨['é'], ['@'], {}⟩ : Progress).position⟩ : String.Pos.Raw).IsValid "é@" := by
  have hstep : (Progress.start "é@".toList).Step ⟨.literal "é", ['é'], {}⟩ ⟨['é'], ['@'], {}⟩ :=
    .intro (by decide +kernel : readNext {} none 'é' ['@'] = .ok (⟨.literal "é", ['é'], ['@']⟩, {}))
  refine ⟨(tokenize_partition _).1 _ (by decide +kernel), ?_⟩
  exact ((tokenize_partition "é@").2 [] _ _ _ (.nil _) hstep).2.2

end Shorthand.Token
