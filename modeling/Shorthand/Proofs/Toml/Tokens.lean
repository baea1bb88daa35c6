import Shorthand.Proofs.Text.Runs
import Shorthand.Proofs.Toml.Grammar
import Shorthand.Toml.Token

/-!
# Reading TOML tokens

The token with which a text begins, for the blanks, comments, strings and atoms of the grammar, and
what is left behind it.

## Main definitions

* `Ends`: what may follow a value or a key.

## Main results

* `SpellsString.exists_readToken?`: a string is read as the text that it spells;
* `readToken?_atom`, `readToken?_blank`, `readToken?_comment`: runs of characters are read as a
  whole.
-/

namespace Shorthand.Toml

open Text (SpellsHex takeWhile_run dropWhile_run)

variable {c : Char} {cs rest digits inside text : List Char} {n : Nat}

/-! ## Strings -/

theorem IsPlain.isControl_eq (h : IsPlain c) : isControl c = false := by
  rcases h with rfl | ⟨hlow, hdelete⟩
  · rfl
  · simp [isControl, hdelete, Nat.not_lt.2 hlow]

theorem readBasic?_plain (hmark : c ≠ '"') (hslash : c ≠ '\\') (hc : IsPlain c) :
    readBasic? false .plain (c :: cs) = push c (readBasic? false .plain cs) := by
  rw [readBasic?.eq_def]
  simp [hmark, hslash, hc.isControl_eq]

theorem readBasic?_mark : readBasic? false .plain ('"' :: rest) = some ([], rest) := by
  rw [readBasic?.eq_def]
  rfl

theorem readBasic?_slash :
    readBasic? false .plain ('\\' :: cs) = readBasic? false .escape cs := by
  rw [readBasic?.eq_def]
  rfl

theorem readBasic?_short {letter : Char} (h : (letter, c) ∈ escapes) :
    readBasic? false .escape (letter :: cs) = push c (readBasic? false .plain cs) := by
  have hletter : ∀ pair ∈ escapes, escapeLength? pair.1 = none ∧ escaped? pair.1 = some pair.2 := by
    decide
  obtain ⟨hlength, hescaped⟩ := hletter _ h
  rw [readBasic?.eq_def]
  simp only [hlength, hescaped]

theorem readBasic?_code {letter : Char} {length : Nat} (h : (letter, length) ∈ codeEscapes) :
    readBasic? false .escape (letter :: cs) = readBasic? false (.code length 0) cs := by
  have hletter : ∀ pair ∈ codeEscapes, escapeLength? pair.1 = some pair.2 := by
    decide
  rw [readBasic?.eq_def]
  simp only [hletter _ h]

/-- The digits of a code point are added up until one is left. -/
theorem readBasic?_digits (h : SpellsHex digits n) (left : Nat) (hleft : 0 < left) :
    readBasic? false (.code (left + digits.length) 0) (digits ++ cs) =
      readBasic? false (.code left n) cs := by
  -- The digits are taken apart from behind, since the last one counts least.
  induction h generalizing left cs with
  | nil => rfl
  | @snoc digits n c value _ hc ih =>
    have hlength : left + (digits ++ [c]).length = left + 1 + digits.length := by
      rw [List.length_append, List.length_singleton]
      omega
    rw [hlength, List.append_assoc, List.singleton_append, ih (left + 1) (Nat.succ_pos left),
      readBasic?.eq_def]
    simp only [hc.hexDigit?_eq]
    rw [if_neg (by omega), Nat.add_sub_cancel]

/-- The last digit of a code point completes a character. -/
theorem readBasic?_codePoint (h : SpellsHex digits n) (hne : digits ≠ []) (hc : c.toNat = n) :
    readBasic? false (.code digits.length 0) (digits ++ cs) =
      push c (readBasic? false .plain cs) := by
  cases h with
  | nil => exact absurd rfl hne
  | @snoc digits n d value h hd =>
    rw [List.length_append, List.length_singleton, Nat.add_comm, List.append_assoc,
      List.singleton_append, readBasic?_digits h 1 Nat.one_pos, readBasic?.eq_def]
    simp only [hd.hexDigit?_eq, ← hc, Nat.le_refl, if_true, Text.ofCodePoint?_toNat]

/-- A string is read up to its closing mark. -/
theorem SpellsText.readBasic?_eq (h : SpellsText inside text) :
    readBasic? false .plain (inside ++ '"' :: rest) = some (text, rest) := by
  induction h with
  | nil => exact readBasic?_mark
  | plain hmark hslash hc _ ih =>
    rw [List.cons_append, readBasic?_plain hmark hslash hc, ih]
    rfl
  | short hletter _ ih =>
    rw [List.cons_append, List.cons_append, readBasic?_slash, readBasic?_short hletter, ih]
    rfl
  | code hletter hdigits _ ih =>
    have hpos : ∀ pair ∈ codeEscapes, 0 < pair.2 := by decide
    rw [List.cons_append, List.cons_append, List.append_assoc, readBasic?_slash,
      readBasic?_code hletter,
      readBasic?_codePoint hdigits (List.length_pos_iff.1 (hpos _ hletter)) rfl, ih]
    rfl

/-- The closing mark of a string does not belong to three opening ones. -/
theorem SpellsText.take_two_ne (h : SpellsText inside text) (hrest : rest.head? ≠ some '"') :
    (inside ++ '"' :: rest).take 2 ≠ ['"', '"'] := by
  cases h with
  | nil =>
    cases rest with
    | nil => simp
    | cons c rest => simpa using hrest
  | plain hmark => simp [hmark]
  | short => simp
  | code => simp

theorem readToken?_quote : readToken? '"' cs =
    (readString? '"' (fun multiline => readBasic? multiline .plain) cs).map (Prod.map some id) :=
  rfl

theorem readToken?_apostrophe : readToken? '\x27' cs =
    (readString? '\x27' readLiteral? cs).map (Prod.map some id) :=
  rfl

theorem SpellsString.exists_readToken? {text : String} (h : SpellsString cs text)
    (hrest : rest.head? ≠ some '"') : ∃ cs', cs = '"' :: cs' ∧
      readToken? '"' (cs' ++ rest) = some (some (.string text false), rest) := by
  obtain ⟨inside, rfl, hinside⟩ := h
  refine ⟨_, rfl, ?_⟩
  rw [List.append_assoc, List.singleton_append, readToken?_quote, readString?,
    if_neg (hinside.take_two_ne hrest), hinside.readBasic?_eq]
  exact congrArg (fun text => some (some (Token.string text false), rest)) String.ofList_toList

/-! ## Runs -/

theorem isBlank_iff : isBlank c = true ↔ c = ' ' ∨ c = '\t' := by
  simp [isBlank]

/-- Blanks are read as long as they follow each other. -/
theorem readToken?_blank (hc : isBlank c = true) :
    readToken? c cs = some (some (.blank (c :: cs.takeWhile isBlank)), cs.dropWhile isBlank) := by
  have hglyph : glyph? c = none := by
    rcases isBlank_iff.1 hc with rfl | rfl <;> rfl
  rw [readToken?.eq_def, hglyph]
  exact if_pos hc

theorem readToken?_hash : readToken? '#' cs = (skipComment? cs).map (Prod.mk none) :=
  rfl

/-- A comment is dropped up to the end of its line. -/
theorem readToken?_comment {body : List Char} (hbody : ∀ c ∈ body, IsPlain c)
    (hrest : ∀ c ∈ rest.head?, c = '\n' ∨ c = '\r') :
    readToken? '#' (body ++ rest) = some (none, rest) := by
  have hinside : ∀ c ∈ body, (c != '\n' && c != '\r') = true := by
    intro c hc
    rcases hbody c hc with rfl | ⟨hlow, -⟩
    · rfl
    · rw [Bool.and_eq_true, bne_iff_ne, bne_iff_ne]
      exact ⟨by rintro rfl; exact absurd hlow (by decide),
        by rintro rfl; exact absurd hlow (by decide)⟩
  have hstop : ∀ c ∈ rest.head?, (c != '\n' && c != '\r') = false := by
    intro c hc
    rcases hrest c hc with rfl | rfl <;> rfl
  have hall : (body.all fun c => !isControl c) = true :=
    List.all_eq_true.2 fun c hc => by rw [(hbody c hc).isControl_eq]; rfl
  rw [readToken?_hash, skipComment?, takeWhile_run hinside hstop, dropWhile_run hinside hstop,
    if_pos hall, Option.map_some]

/-- An atom is read up to the first character that belongs to none. -/
theorem readToken?_atom (hcs : ∀ d ∈ c :: cs, isAtomChar d = true)
    (hrest : ∀ d ∈ rest.head?, isAtomChar d = false) :
    readToken? c (cs ++ rest) = some (some (.atom (c :: cs)), rest) := by
  obtain ⟨hc, hcs⟩ := List.forall_mem_cons.1 hcs
  simp only [isAtomChar, Bool.and_eq_true, Option.isNone_iff_eq_none, Bool.not_eq_true',
    bne_iff_ne] at hc
  obtain ⟨⟨⟨⟨⟨⟨hglyph, hblank⟩, hnewline⟩, hreturn⟩, hmark⟩, hquote⟩, hhash⟩ := hc
  rw [readToken?.eq_def, hglyph]
  simp only [hblank, Bool.false_eq_true, if_false, hnewline, hreturn, hmark, hquote, hhash,
    takeWhile_run hcs hrest, dropWhile_run hcs hrest]

/-- A character that belongs to no atom is a token of its own or begins blanks, a line break, a
string or a comment. -/
theorem of_isAtomChar_eq_false (h : isAtomChar c = false) : (∃ token, glyph? c = some token) ∨
    isBlank c = true ∨ c = '\n' ∨ c = '\r' ∨ c = '"' ∨ c = '\x27' ∨ c = '#' := by
  cases hglyph : glyph? c with
  | some token => exact .inl ⟨token, rfl⟩
  | none =>
    refine .inr ?_
    by_contra hnone
    simp only [not_or] at hnone
    simp [isAtomChar, hglyph, hnone] at h

/-! ## Ends -/

/-- What follows a key or a value, if anything does: neither a key nor a value goes on with it. -/
def Ends (rest : List Char) : Prop :=
  ∀ c ∈ rest.head?, isAtomChar c = false ∧ c ≠ '.' ∧ c ≠ '"'

theorem ends_nil : Ends [] :=
  nofun

theorem ends_cons (hc : isAtomChar c = false ∧ c ≠ '.' ∧ c ≠ '"') : Ends (c :: rest) := by
  rintro d ⟨⟩
  exact hc

theorem Ends.head?_ne (h : Ends rest) : rest.head? ≠ some '"' := fun hmark => (h _ hmark).2.2 rfl

theorem ends_blanks {blanks : List Char} (h : IsBlanks blanks) (hrest : Ends rest) :
    Ends (blanks ++ rest) := by
  cases blanks with
  | nil => exact hrest
  | cons c blanks =>
    refine ends_cons ?_
    rcases h c List.mem_cons_self with rfl | rfl <;> decide

theorem ends_comment {comment : List Char} (h : IsComment comment) (hrest : Ends rest) :
    Ends (comment ++ rest) := by
  rcases h with rfl | ⟨body, rfl, -⟩
  · exact hrest
  · exact ends_cons (by decide)

theorem ends_newline {newline : List Char} (h : IsNewline newline) : Ends (newline ++ rest) := by
  rcases h with rfl | rfl
  · exact ends_cons (by decide)
  · exact ends_cons (by decide)

theorem ends_gap {gap : List Char} (h : IsGap gap) (hrest : Ends rest) : Ends (gap ++ rest) := by
  cases h with
  | blanks h => exact ends_blanks h hrest
  | line hblanks hcomment hnewline =>
    simp only [List.append_assoc]
    exact ends_blanks hblanks (ends_comment hcomment (ends_newline hnewline))

end Shorthand.Toml
