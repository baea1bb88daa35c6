import Shorthand.Json.Reader
import Shorthand.Proofs.Json.Grammar
import Shorthand.Proofs.Text.Runs

/-!
# Reading JSON

A text that spells a document is read as that document. Each rule of the grammar takes the reader
from the state before a value to the state behind it, whatever follows the value. Only a number
could go on, so what follows a value must not be a character of a number.

## Main definitions

* `State.readOn`: where the reader gets to from a state on.

## Main results

* `Spells.readOn`: a value takes the reader to the state behind that value;
* `Spells.read?_eq`: a text is read as the document that it spells.
-/

namespace Shorthand.Json

open Text (takeWhile_run dropWhile_run)

variable {c : Char} {cs rest digits fraction exponent inside : List Char} {units : List Nat}
  {document : Document} {text? : Option String}

/-! ## Numbers -/

theorem Digits.isDigits_eq (h : Digits digits) : isDigits digits = true := by
  rw [isDigits, Bool.and_eq_true, Bool.not_eq_true', List.isEmpty_eq_false_iff, List.all_eq_true]
  exact h

theorem Whole.isNatural_eq (h : Whole digits) : isNatural digits = true := by
  rw [isNatural, h.1.isDigits_eq, Bool.true_and, Bool.or_eq_true, beq_iff_eq, bne_iff_ne]
  exact h.2

theorem Exponent.isExponent_eq (h : Exponent exponent) : isExponent exponent = true := by
  cases h with
  | none => rfl
  | @power letter sign digits hletter hsign hdigits =>
    have hletter : (letter == 'e' || letter == 'E') = true := by simpa using hletter
    obtain ⟨d, ds, rfl⟩ := List.exists_cons_of_ne_nil hdigits.1
    have hd : (d == '+' || d == '-') = false := by
      have hdigit := hdigits.2 d List.mem_cons_self
      rw [Bool.or_eq_false_iff, beq_eq_false_iff_ne, beq_eq_false_iff_ne]
      constructor <;> rintro rfl <;> cases hdigit
    rcases hsign with rfl | rfl | rfl
    · simp [isExponent, hletter, hd, hdigits.isDigits_eq]
    · simp [isExponent, hletter, hdigits.isDigits_eq]
    · simp [isExponent, hletter, hdigits.isDigits_eq]

/-- An exponent does not go on with the digits before it. -/
theorem Exponent.head? (h : Exponent exponent) : ∀ c ∈ exponent.head?, c.isDigit = false := by
  cases h with
  | none => nofun
  | power hletter =>
    rintro c ⟨⟩
    rcases hletter with rfl | rfl <;> rfl

theorem isFraction_append (hfraction : Fraction fraction) (hexponent : Exponent exponent) :
    isFraction (fraction ++ exponent) = true := by
  cases hfraction with
  | none =>
    rw [List.nil_append, isFraction.eq_2]
    · exact hexponent.isExponent_eq
    · rintro cs rfl
      cases hexponent with
      | power hletter => rcases hletter with h | h <;> cases h
  | point h =>
    rw [List.cons_append, isFraction, takeWhile_run h.2 hexponent.head?,
      dropWhile_run h.2 hexponent.head?, h.isDigits_eq, hexponent.isExponent_eq, Bool.true_and]

/-- A fraction and an exponent do not go on with the digits before them. -/
theorem head?_fraction_append (hfraction : Fraction fraction) (hexponent : Exponent exponent) :
    ∀ c ∈ (fraction ++ exponent).head?, c.isDigit = false := by
  cases hfraction with
  | none => exact hexponent.head?
  | point h =>
    rintro c ⟨⟩
    rfl

theorem number?_of_whole (h : Whole digits) :
    number? digits = some (.number (some (Nat.ofDigitChars 10 digits 0))) :=
  if_pos h.isNatural_eq

/-- A sign, a fraction or an exponent keeps a number from being written as a natural one. -/
theorem number?_of_more {sign whole : List Char} (hsign : sign = [] ∨ sign = ['-'])
    (hwhole : Whole whole) (hfraction : Fraction fraction) (hexponent : Exponent exponent)
    (hmore : sign ≠ [] ∨ fraction ≠ [] ∨ exponent ≠ []) :
    number? (sign ++ whole ++ fraction ++ exponent) = some (.number none) := by
  -- One of the three has a character that is no digit.
  have hnatural : isNatural (sign ++ whole ++ fraction ++ exponent) = false := by
    rw [Bool.eq_false_iff]
    intro hnatural
    rw [isNatural, isDigits, Bool.and_eq_true, Bool.and_eq_true, List.all_eq_true] at hnatural
    have hdigit := hnatural.1.2
    simp only [List.mem_append] at hdigit
    rcases hmore with hmore | hmore | hmore
    · obtain rfl := hsign.resolve_left hmore
      cases hdigit '-' (by simp)
    · cases hfraction with
      | none => exact hmore rfl
      | point => cases hdigit '.' (by simp)
    · cases hexponent with
      | none => exact hmore rfl
      | power hletter =>
        rcases hletter with rfl | rfl
        · cases hdigit 'e' (by simp)
        · cases hdigit 'E' (by simp)
  -- Without a sign the number begins with a digit, so nothing is taken off.
  have hunsigned : (if (sign ++ whole ++ fraction ++ exponent).head? = some '-' then
      (sign ++ whole ++ fraction ++ exponent).tail else sign ++ whole ++ fraction ++ exponent) =
      whole ++ (fraction ++ exponent) := by
    rcases hsign with rfl | rfl
    · obtain ⟨d, ds, rfl⟩ := List.exists_cons_of_ne_nil hwhole.1.1
      rw [if_neg]
      · simp
      · rintro ⟨⟩
        cases hwhole.1.2 '-' (by simp)
    · simp
  have hhead := head?_fraction_append hfraction hexponent
  simp only [number?, hunsigned, hnatural, takeWhile_run hwhole.1.2 hhead,
    dropWhile_run hwhole.1.2 hhead, hwhole.isNatural_eq, isFraction_append hfraction hexponent]
  rfl

/-- A character with which no number goes on stands behind, if anything does. -/
def Ends (rest : List Char) : Prop :=
  ∀ c ∈ rest.head?, isNumberChar c = false

theorem ends_nil : Ends [] :=
  nofun

theorem ends_cons (hc : isNumberChar c = false) : Ends (c :: rest) := by
  rintro d ⟨⟩
  exact hc

theorem isNumberChar_of_isDigit (h : c.isDigit = true) : isNumberChar c = true := by
  simp [isNumberChar, h]

theorem SpellsNumber.isNumberChar (h : SpellsNumber cs document) :
    ∀ c ∈ cs, isNumberChar c = true := by
  have hdigits {digits : List Char} (h : Digits digits) :
      ∀ c ∈ digits, Json.isNumberChar c = true := fun c hc => isNumberChar_of_isDigit (h.2 c hc)
  cases h with
  | natural h => exact hdigits h.1
  | other hsign hwhole hfraction hexponent =>
    simp only [List.forall_mem_append]
    refine ⟨⟨⟨?_, hdigits hwhole.1⟩, ?_⟩, ?_⟩
    · rcases hsign with rfl | rfl
      · nofun
      · exact List.forall_mem_singleton.2 rfl
    · cases hfraction with
      | none => nofun
      | point h => exact List.forall_mem_cons.2 ⟨rfl, hdigits h⟩
    · cases hexponent with
      | none => nofun
      | power hletter hsign h =>
        refine List.forall_mem_cons.2 ⟨?_, List.forall_mem_append.2 ⟨?_, hdigits h⟩⟩
        · rcases hletter with rfl | rfl <;> rfl
        · rcases hsign with rfl | rfl | rfl
          · nofun
          · exact List.forall_mem_singleton.2 rfl
          · exact List.forall_mem_singleton.2 rfl

/-- A number begins with a digit or a minus sign. -/
theorem SpellsNumber.exists_cons (h : SpellsNumber cs document) :
    ∃ c cs', cs = c :: cs' ∧ (c.isDigit = true ∨ c = '-') := by
  have hwhole {whole : List Char} (h : Whole whole) (rest : List Char) :
      ∃ c cs', whole ++ rest = c :: cs' ∧ (c.isDigit = true ∨ c = '-') := by
    obtain ⟨d, ds, rfl⟩ := List.exists_cons_of_ne_nil h.1.1
    exact ⟨d, ds ++ rest, rfl, .inl (h.1.2 d List.mem_cons_self)⟩
  cases h with
  | natural h => exact List.append_nil cs ▸ hwhole h []
  | other hsign h =>
    rcases hsign with rfl | rfl
    · simp only [List.nil_append, List.append_assoc]
      exact hwhole h _
    · exact ⟨'-', _, rfl, .inr rfl⟩

/-- The token of a number stands for the document that the number spells. -/
theorem SpellsNumber.exists_number? (h : SpellsNumber cs document) :
    ∃ token, number? cs = some token ∧
      ∀ stack, State.beginValue stack token = State.finish stack document := by
  cases h with
  | natural h => exact ⟨_, number?_of_whole h, fun _ => rfl⟩
  | other hsign hwhole hfraction hexponent hmore =>
    exact ⟨_, number?_of_more hsign hwhole hfraction hexponent hmore, fun _ => rfl⟩

theorem first_of_number (hc : c.isDigit = true ∨ c = '-') :
    glyph? c = none ∧ isSpace c = false ∧ c ≠ '"' ∧ c ≠ 'e' ∧ c ≠ 'E' := by
  rcases hc with hc | rfl
  · have hne {d : Char} (hd : d.isDigit = false) : c ≠ d := by
      rintro rfl
      cases hc.symm.trans hd
    refine ⟨?_, ?_, hne rfl, hne rfl, hne rfl⟩
    · unfold glyph?
      split
      -- No bracket and no separator is a digit.
      all_goals first | cases hc | rfl
    · simp [isSpace, hne (d := ' ') rfl, hne (d := '\t') rfl, hne (d := '\n') rfl,
        hne (d := '\r') rfl]
  · decide

/-- A number is read up to the first character with which none goes on. -/
theorem SpellsNumber.exists_readToken? (h : SpellsNumber cs document) (hrest : Ends rest) :
    ∃ c cs' token, cs = c :: cs' ∧ isSpace c = false ∧
      readToken? c (cs' ++ rest) = some (token, rest) ∧
        ∀ stack, State.beginValue stack token = State.finish stack document := by
  obtain ⟨token, htoken, hbegin⟩ := h.exists_number?
  obtain ⟨c, cs, rfl, hc⟩ := h.exists_cons
  obtain ⟨hchar, hchars⟩ := List.forall_mem_cons.1 h.isNumberChar
  obtain ⟨hglyph, hspace, hmark, he, hE⟩ := first_of_number hc
  refine ⟨c, cs, token, rfl, hspace, ?_, hbegin⟩
  rw [readToken?, hglyph]
  simp [hmark, hchar, he, hE, takeWhile_run hchars hrest, dropWhile_run hchars hrest, htoken]

/-! ## Strings -/

theorem escaped?_of_mem {letter : Char} (h : (letter, c) ∈ escapes) :
    letter ≠ 'u' ∧ escaped? letter = some c := by
  have : ∀ pair ∈ escapes, pair.1 ≠ 'u' ∧ escaped? pair.1 = some pair.2 := by decide
  exact this _ h

theorem SpellsUnits.readString?_append (h : SpellsUnits inside units) :
    readString? (inside ++ '"' :: rest) = some (units, rest) := by
  induction h with
  | nil =>
    rw [List.nil_append, readString?.eq_def]
    rfl
  | plain hmark hslash hcontrol _ ih =>
    rw [List.cons_append, readString?.eq_def]
    simp only [if_neg hmark, if_neg hslash, if_neg (Nat.not_lt.2 hcontrol), ih, Option.map_some]
  | short hletter _ ih =>
    obtain ⟨hu, hescaped⟩ := escaped?_of_mem hletter
    rw [List.cons_append, List.cons_append, readString?.eq_def]
    simp only [Char.reduceEq, if_false, if_true, if_neg hu, hescaped, ih]
  | @code digits cs unit units hlength hdigits _ ih =>
    -- The reader matches four digits, so the list has to be taken apart.
    obtain ⟨h₁, h₂, h₃, h₄, rfl⟩ : ∃ h₁ h₂ h₃ h₄, digits = [h₁, h₂, h₃, h₄] := by
      rcases digits with _ | ⟨h₁, _ | ⟨h₂, _ | ⟨h₃, _ | ⟨h₄, _ | ⟨_, _⟩⟩⟩⟩⟩ <;> simp at hlength
      exact ⟨h₁, h₂, h₃, h₄, rfl⟩
    rw [readString?.eq_def]
    simp only [List.cons_append, List.nil_append, Char.reduceEq, if_false, if_true,
      hdigits.ofHex?_eq, ih]

/-- A string is read up to its closing mark. -/
theorem SpellsString.exists_readToken? (h : SpellsString cs text?) :
    ∃ cs', cs = '"' :: cs' ∧
      ∀ rest, readToken? '"' (cs' ++ rest) = some (.string text?, rest) := by
  obtain ⟨inside, units, rfl, hinside, htext⟩ := h
  refine ⟨_, rfl, fun rest => ?_⟩
  have htext? : (Text.ofUnits? units).map String.ofList = text? := by
    refine Option.ext fun text => ?_
    rw [htext, ← Text.ofUnits?_eq_some_iff, Option.map_eq_some_iff]
    constructor
    · rintro ⟨cs, hcs, rfl⟩
      rwa [String.toList_ofList]
    · intro h
      exact ⟨_, h, String.ofList_toList⟩
  have hglyph : glyph? '"' = none := rfl
  simp only [Json.readToken?, hglyph, if_true, List.append_assoc, List.singleton_append,
    hinside.readString?_append, Option.map_some, htext?]

/-! ## Tokens -/

theorem isSpace_iff : isSpace c = true ↔ c ∈ [' ', '\t', '\n', '\r'] := by
  simp [isSpace, or_assoc]

theorem tokens?_cons {token : Token} (hspace : isSpace c = false)
    (hread : readToken? c cs = some (token, rest)) :
    tokens? (c :: cs) = (tokens? rest).map (token :: ·) := by
  rw [tokens?, if_neg (by rw [hspace]; exact Bool.false_ne_true)]
  split
  next hnone => cases hread.symm.trans hnone
  next hsome =>
    obtain ⟨rfl, rfl⟩ := Prod.mk.inj (Option.some.inj (hread.symm.trans hsome))
    rfl

namespace State

variable {s s' : State} {stack : List Frame} {phase : Phase}

/-- Where the reader gets to from a state on. -/
def readOn (s : State) (text : List Char) : Option State :=
  (tokens? text).bind fun tokens => tokens.foldlM step s

theorem readOn_nil (s : State) : s.readOn [] = some s := by
  rw [readOn, tokens?]
  rfl

theorem readOn_token {token : Token} (hspace : isSpace c = false)
    (hread : readToken? c cs = some (token, rest)) (hstep : step s token = some s') :
    s.readOn (c :: cs) = s'.readOn rest := by
  rw [readOn, readOn, tokens?_cons hspace hread]
  cases tokens? rest with
  | none => rfl
  | some tokens =>
    rw [Option.map_some, Option.bind_some, Option.bind_some, List.foldlM_cons, hstep]
    rfl

/-- White space makes no difference. -/
theorem readOn_spaces {spaces : List Char} (h : IsSpaces spaces) :
    s.readOn (spaces ++ rest) = s.readOn rest := by
  induction spaces with
  | nil => rfl
  | cons c spaces ih =>
    obtain ⟨hc, hspaces⟩ := List.forall_mem_cons.1 h
    rw [List.cons_append, readOn, tokens?, if_pos (isSpace_iff.2 hc), ← readOn]
    exact ih hspaces

/-- A bracket or a separator is a token. -/
theorem readOn_glyph {token : Token} (hglyph : glyph? c = some token) (hspace : isSpace c = false)
    (hstep : step s token = some s') : s.readOn (c :: rest) = s'.readOn rest := by
  refine readOn_token hspace ?_ hstep
  rw [readToken?, hglyph]

/-- The state before a value. Behind an opening bracket it may be the first item. -/
def AwaitsValue (phase : Phase) : Prop :=
  phase = .value ∨ phase = .firstItem

/-- The first token of a value takes the reader into the value, wherever it stands. -/
theorem step_of_beginValue {token : Token} (hphase : AwaitsValue phase)
    (h : beginValue stack token = some s) : step { stack, phase } token = some s := by
  rcases hphase with rfl | rfl
  · exact h
  · rw [step]
    dsimp only
    rw [if_neg]
    · exact h
    · rintro rfl
      cases h

end State

theorem ends_spaces {spaces : List Char} (h : IsSpaces spaces) (hrest : Ends rest) :
    Ends (spaces ++ rest) := by
  cases spaces with
  | nil => exact hrest
  | cons c spaces =>
    have hnone : ∀ c ∈ [' ', '\t', '\n', '\r'], isNumberChar c = false := by
      simp [isNumberChar]
    exact ends_cons (hnone c (h c List.mem_cons_self))

/-! ## Values -/

open State

/-- A key with its colon takes the reader to the state before the value. -/
theorem SpellsKey.readOn {name : List Char} {key : Option String} (h : SpellsKey name key)
    {stack : List Frame} {phase : Phase} (hphase : phase = .key ∨ phase = .firstKey)
    (done : List (Option String × Document)) (rest : List Char) :
    State.readOn { stack := .table done :: stack, phase } (name ++ ':' :: rest) =
      State.readOn { stack := .entry done key :: stack, phase := .value } rest := by
  obtain ⟨before, string, after, rfl, hbefore, hstring, hafter⟩ := h
  obtain ⟨cs, rfl, hread⟩ := hstring.exists_readToken?
  have hstep : step { stack := .table done :: stack, phase } (.string key) =
      some { stack := .entry done key :: stack, phase := .colon } := by
    rcases hphase with rfl | rfl <;> rfl
  simp only [List.append_assoc, List.cons_append]
  rw [readOn_spaces hbefore, readOn_token rfl (hread _) hstep, readOn_spaces hafter,
    readOn_glyph rfl rfl rfl]

-- By recursion over the derivations. Items and entries stand inside lists and tables, so the stack
-- and the phase before a value are any.
mutual

/-- A value takes the reader to the state behind that value. -/
theorem Spells.readOn : ∀ {cs : List Char} {document : Document}, Spells cs document →
    ∀ {stack : List Frame} {phase : Phase} {s : State} {rest : List Char}, AwaitsValue phase →
      finish stack document = some s → Ends rest →
        State.readOn { stack, phase } (cs ++ rest) = s.readOn rest
  | _, _, .spaced hbefore h hafter, _, _, _, _, hphase, hfinish, hrest => by
    rw [List.append_assoc, List.append_assoc, readOn_spaces hbefore,
      h.readOn hphase hfinish (ends_spaces hafter hrest), readOn_spaces hafter]
  | _, _, .null, _, _, _, _, hphase, hfinish, _ =>
    readOn_token rfl rfl (step_of_beginValue hphase hfinish)
  | _, _, .boolTrue, _, _, _, _, hphase, hfinish, _ =>
    readOn_token rfl rfl (step_of_beginValue hphase hfinish)
  | _, _, .boolFalse, _, _, _, _, hphase, hfinish, _ =>
    readOn_token rfl rfl (step_of_beginValue hphase hfinish)
  | _, _, .number h, _, _, _, _, hphase, hfinish, hrest => by
    obtain ⟨c, cs, token, rfl, hspace, hread, hbegin⟩ := h.exists_readToken? hrest
    exact readOn_token hspace hread (step_of_beginValue hphase ((hbegin _).trans hfinish))
  | _, _, .string h, _, _, _, rest, hphase, hfinish, _ => by
    obtain ⟨cs, rfl, hread⟩ := h.exists_readToken?
    exact readOn_token rfl (hread rest) (step_of_beginValue hphase hfinish)
  | _, _, .emptyList h, _, _, _, _, hphase, hfinish, _ => by
    rw [List.cons_append, List.append_assoc,
      readOn_glyph rfl rfl (step_of_beginValue hphase rfl), readOn_spaces h]
    exact readOn_glyph rfl rfl hfinish
  | _, _, .list h, _, _, _, _, hphase, hfinish, _ => by
    rw [List.cons_append, List.append_assoc, List.singleton_append,
      readOn_glyph rfl rfl (step_of_beginValue hphase rfl),
      h.readOn (.inr rfl) [] (ends_cons rfl)]
    exact readOn_glyph rfl rfl hfinish
  | _, _, .emptyTable h, _, _, _, _, hphase, hfinish, _ => by
    rw [List.cons_append, List.append_assoc,
      readOn_glyph rfl rfl (step_of_beginValue hphase rfl), readOn_spaces h]
    exact readOn_glyph rfl rfl hfinish
  | _, _, .table h, _, _, _, _, hphase, hfinish, _ => by
    rw [List.cons_append, List.append_assoc, List.singleton_append,
      readOn_glyph rfl rfl (step_of_beginValue hphase rfl),
      h.readOn (.inr rfl) [] (ends_cons rfl)]
    exact readOn_glyph rfl rfl hfinish

/-- Items are added to those of the list that have been read. -/
theorem SpellsItems.readOn : ∀ {cs : List Char} {items : List Document}, SpellsItems cs items →
    ∀ {stack : List Frame} {phase : Phase} {rest : List Char}, AwaitsValue phase →
      ∀ done : List Document, Ends rest →
        State.readOn { stack := .list done :: stack, phase } (cs ++ rest) =
          State.readOn { stack := .list (done ++ items) :: stack, phase := .separator } rest
  | _, _, .last h, _, _, _, hphase, _, hrest => h.readOn hphase rfl hrest
  | _, _, @SpellsItems.cons _ _ document _ h hmore, _, _, _, hphase, done, hrest => by
    rw [List.append_assoc, List.cons_append, h.readOn hphase rfl (ends_cons rfl),
      readOn_glyph rfl rfl rfl, hmore.readOn (.inl rfl) (done ++ [document]) hrest,
      List.append_assoc]
    rfl

/-- Entries are added to those of the table that have been read. -/
theorem SpellsEntries.readOn : ∀ {cs : List Char} {entries : List (Option String × Document)},
    SpellsEntries cs entries → ∀ {stack : List Frame} {phase : Phase} {rest : List Char},
      phase = .key ∨ phase = .firstKey → ∀ done : List (Option String × Document), Ends rest →
        State.readOn { stack := .table done :: stack, phase } (cs ++ rest) =
          State.readOn { stack := .table (done ++ entries) :: stack, phase := .separator } rest
  | _, _, .last hkey h, _, _, _, hphase, _, hrest => by
    rw [List.append_assoc, List.cons_append, hkey.readOn hphase]
    exact h.readOn (.inl rfl) rfl hrest
  | _, _, @SpellsEntries.cons _ _ _ key document _ hkey h hmore, _, _, _, hphase, done, hrest => by
    rw [List.append_assoc, List.cons_append, List.append_assoc, List.cons_append,
      hkey.readOn hphase, h.readOn (.inl rfl) rfl (ends_cons rfl), readOn_glyph rfl rfl rfl,
      hmore.readOn (.inl rfl) (done ++ [(key, document)]) hrest, List.append_assoc]
    rfl

end

/-- A text is read as the document that it spells. -/
theorem Spells.read?_eq {text : String} (h : Spells text.toList document) :
    read? text = some document := by
  have hread : State.start.readOn (text.toList ++ []) = some _ :=
    (h.readOn (.inl rfl) rfl ends_nil).trans (readOn_nil _)
  rw [List.append_nil, State.readOn] at hread
  obtain ⟨tokens, htokens, hsteps⟩ := Option.bind_eq_some_iff.1 hread
  rw [read?, htokens, Option.bind_some, ofTokens?, hsteps]
  rfl

/-- Documents are read as the grammar says. -/
theorem isReader_read? : IsReader read? := fun _ _ h => h.read?_eq

end Shorthand.Json
