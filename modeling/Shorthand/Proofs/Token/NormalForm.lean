import Shorthand.Proofs.Token.Spelling
import Shorthand.Token.Printer

/-!
# Normal forms of tokens

A token is written in its normal form, whatever it was read from: without zeros in front of its
numbers, with no number above the greatest count, without modifiers that say nothing, and without a
colon that no placeholder follows. The normal form spells the token by the same rules as the
characters that were read. Where a token can be read at all, its spelling alone is read as that
token and nothing is left of it; so the normal form is read back as the token that it was made from.

Literals are left out. They are written without the backslashes that escaped their characters.

## Main definitions

* `Admits`: a token of this kind can be read in a context;
* `Rereads`: in a context, the normal form of a token is read as the token.

## Main results

* `Token.spells_text`: the normal form of a token spells it;
* `Token.readNext_of_spells`: what spells a token is read as that token;
* `Token.rereads_of_mem_tokenize`: the normal form of every token of a source is read as the token
  in the context in which the token was read.
-/

namespace Shorthand

open Text (isDigit isSpace)

/-! ## Numbers -/

/-- The digits of a count spell it. -/
theorem numeral_digits {n : Nat} (h : n ≤ Count.greatest) : Numeral (Count.digits n) n where
  ne_nil := Nat.toDigits_ne_nil
  forall_isDigit _ hmem := Nat.isDigit_of_mem_toDigits (by decide) (by decide) hmem
  number_eq := by
    rw [← ofDigitChars_eq_decimalValue]
    exact (Count.ofDigits_digits h).symm

/-- A number that some digits spell is also spelled by its own. -/
theorem Numeral.digits {digits : List Char} {number : Nat} (h : Numeral digits number) :
    Numeral (Count.digits number) number := by
  refine numeral_digits ?_
  rw [h.number_eq]
  exact Nat.min_le_right _ _

theorem Count.toList_text (n : Nat) : (Count.text n).toList = Count.digits n :=
  String.toList_ofList

/-! ## Normal forms -/

/-- A tab stop without a placeholder is spelled by its index. -/
theorem Field.spells_text_index {digits : List Char} {index : Nat} (h : Numeral digits index) :
    Token.Spells (Field.tabStop index "").text.toList (.field (.tabStop index "")) := by
  have hindex : Closes 0 (Count.digits index ++ []) := h.digits.noBraces.closes_append_iff.2 rfl
  rw [List.append_nil] at hindex
  have hspells := Token.Spells.field hindex.balanced (.index h.digits)
  simpa [Field.text, Count.toList_text] using hspells

/-- A field is spelled by its index and its name, whatever digits the index was read from. -/
theorem Field.spells_text {field : Field} {body : List Char} (hbalanced : Balanced body)
    (h : field.Spells body) : Token.Spells field.text.toList (.field field) := by
  cases h with
  | empty => exact .field hbalanced .empty
  | index h => exact spells_text_index h
  | @named _ index h name =>
    by_cases hempty : name = []
    · subst hempty
      exact spells_text_index h
    -- Neither the digits nor the colon are braces, so that the name is what is balanced.
    · have hname := h.noBraces.closes_append_iff.1 hbalanced.closes
      have hbody := h.digits.noBraces.closes_append_iff.2 hname
      have hspells := Token.Spells.field hbody.balanced (.named h.digits name)
      simpa [Field.text, Count.toList_text, hempty] using hspells
  | reference h cs =>
    have hspells := Token.Spells.field hbalanced (.reference h cs)
    simpa [Field.text] using hspells

theorem Numbering.toList_modifiers (numbering : Numbering) :
    numbering.modifiers.toList = '@' :: (List.replicate numbering.climb '^' ++
      ((if numbering.reverse then ['-'] else []) ++
        if numbering.base = 1 then [] else Count.digits numbering.base)) := by
  cases hreverse : numbering.reverse <;> by_cases hbase : numbering.base = 1 <;>
    simp [modifiers, hreverse, hbase, Count.toList_text]

/-- Modifiers are only written where one of them says something, and the first number only if it is
not one. -/
theorem Numbering.spells_text {numbering : Numbering} (hsize : numbering.size ≠ 0)
    {digits : List Char} (hbase : NumeralOrOne digits numbering.base) :
    Token.Spells numbering.text.toList (.numbering numbering) := by
  obtain ⟨size, reverse, base, climb⟩ := numbering
  by_cases hplain : reverse = false ∧ base = 1 ∧ climb = 0
  · obtain ⟨rfl, rfl, rfl⟩ := hplain
    simpa [Numbering.text] using Token.Spells.numbering hsize
  · have hwritten : NumeralOrOne (if base = 1 then [] else Count.digits base) base := by
      split
      next hone => exact .inl ⟨rfl, hone⟩
      next hne =>
        rcases hbase with ⟨-, hone⟩ | hnumeral
        · exact absurd hone hne
        · exact .inr hnumeral.digits
    have hspells := Token.Spells.modified hsize hwritten climb reverse
    have hmodified : (reverse || base != 1 || climb != 0) = true := by
      by_contra hnone
      exact hplain (by simpa [and_assoc] using hnone)
    rw [Numbering.text, if_pos hmodified, String.toList_append, String.toList_ofList,
      toList_modifiers]
    exact hspells

namespace Token

/-- The normal form of a token spells it by the same rules as what it was read from. -/
theorem spells_text {text : List Char} {kind : Kind} (h : Spells text kind)
    (hliteral : ∀ value, kind ≠ .literal value) : Spells kind.text.toList kind := by
  cases h with
  | literal h => exact absurd rfl (hliteral _)
  | blank hne h => simpa [Kind.text] using Spells.blank hne h
  | quote mark => simpa [Kind.text] using Spells.quote mark
  | bracket bracket opening => simpa [Kind.text] using Spells.bracket bracket opening
  | operator operator => simpa [Kind.text] using Spells.operator operator
  | @repeater digits count h =>
    rcases h with ⟨rfl, rfl⟩ | h
    · exact .repeater (.inl ⟨rfl, rfl⟩)
    · have hspells := Spells.repeater (.inr h.digits)
      have hne : digits.isEmpty = false := by simpa using h.ne_nil
      have hne' : (Count.digits count).isEmpty = false := by simpa using h.digits.ne_nil
      rw [hne'] at hspells
      simpa [Kind.text, Repeater.text, hne, Count.toList_text] using hspells
  | numbering hsize => exact Numbering.spells_text hsize (.inl ⟨rfl, rfl⟩)
  | modified hsize hbase climb reverse => exact Numbering.spells_text hsize hbase
  | placeholder => exact .placeholder
  | field hbalanced h => exact Field.spells_text hbalanced h

end Token

/-! ## Reading what spells a token -/

namespace NumeralOrOne

variable {digits : List Char} {number : Nat}

theorem forall_isDigit (h : NumeralOrOne digits number) : ∀ c ∈ digits, isDigit c = true := by
  rcases h with ⟨rfl, -⟩ | h
  · exact List.forall_mem_nil _
  · exact h.forall_isDigit

/-- Digits begin with no other character. -/
theorem head?_ne (h : NumeralOrOne digits number) {c : Char} (hc : isDigit c = false) :
    digits.head? ≠ some c := by
  intro hhead
  obtain ⟨more, rfl⟩ := List.head?_eq_some_iff.1 hhead
  exact Bool.false_ne_true (hc.symm.trans (h.forall_isDigit c List.mem_cons_self))

/-- Digits with nothing behind them are read to their end. -/
theorem takeWhile_eq (h : NumeralOrOne digits number) :
    digits.takeWhile isDigit = digits ∧ digits.dropWhile isDigit = [] :=
  ⟨List.takeWhile_eq_self_iff.2 h.forall_isDigit, List.dropWhile_eq_nil_iff.2 h.forall_isDigit⟩

/-- Digits are read as the number that they spell, and no digits as one. -/
theorem ite_eq (h : NumeralOrOne digits number) :
    (if digits.isEmpty then 1 else Count.ofDigits digits) = number := by
  rcases h with ⟨rfl, rfl⟩ | h
  · rfl
  · rw [if_neg (by simpa using h.ne_nil), h.eq_ofDigits]

end NumeralOrOne

namespace Atom

/-- A run of one character ends where another one follows. -/
theorem takeWhile_replicate_append {d : Char} (n : Nat) {cs : List Char} (h : cs.head? ≠ some d) :
    (List.replicate n d ++ cs).takeWhile (· == d) = List.replicate n d ∧
      (List.replicate n d ++ cs).dropWhile (· == d) = cs := by
  have hall : ∀ c ∈ List.replicate n d, (c == d) = true := by simp
  rw [List.takeWhile_append_of_pos hall, List.dropWhile_append_of_pos hall]
  cases cs with
  | nil => simp
  | cons c cs =>
    have hc : ¬(c == d) = true := by simpa using h
    simp [hc]

/-- Modifiers with nothing behind them are read to their end. -/
theorem modifiedNumbering_eq {digits : List Char} {base : Nat} (h : NumeralOrOne digits base)
    (dollars : List Char) (climb : Nat) (reverse : Bool) :
    modifiedNumbering dollars
        (List.replicate climb '^' ++ ((if reverse then ['-'] else []) ++ digits)) =
      { kind := .numbering { size := dollars.length, reverse, base, climb }
        text := dollars ++ '@' ::
          (List.replicate climb '^' ++ ((if reverse then ['-'] else []) ++ digits))
        rest := [] } := by
  generalize hsign : (if reverse then ['-'] else []) = sign
  have hcaret : (sign ++ digits).head? ≠ some '^' := by
    subst hsign
    cases reverse with
    | false => exact h.head?_ne (by decide)
    | true => simp
  -- A digit is no sign, so that the sign that is read is the one that is there.
  have hminus : ((sign ++ digits).take 1).filter (· == '-') = sign := by
    subst hsign
    cases reverse with
    | true => rfl
    | false =>
      cases digits with
      | nil => rfl
      | cons c digits =>
        have hc : c ≠ '-' := by simpa using h.head?_ne (c := '-') (by decide)
        simp [hc]
  have hreverse : (!sign.isEmpty) = reverse := by
    subst hsign
    cases reverse <;> rfl
  obtain ⟨htake, hdrop⟩ := takeWhile_replicate_append climb hcaret
  obtain ⟨hdigits, hnothing⟩ := h.takeWhile_eq
  simp only [modifiedNumbering, htake, hdrop, hminus, List.drop_left, hdigits, hnothing, hreverse,
    h.ite_eq, List.length_replicate]

/-- Dollar signs are numbering, unless a hash sign stands behind the first one. -/
theorem read?_dollar {cs : List Char} (h : cs.head? ≠ some '#') :
    read? '$' cs = some (numbering ('$' :: cs)) := by
  rw [read?, if_pos rfl]
  rintro rest rfl
  exact h rfl

/-- Dollar signs with nothing behind them are read to their end. -/
theorem read?_dollars (size : Nat) :
    read? '$' (List.replicate size '$') =
      some { kind := .numbering { size := size + 1, reverse := false, base := 1, climb := 0 }
             text := '$' :: List.replicate size '$'
             rest := [] } := by
  have hend : ([] : List Char).head? ≠ some '$' := by simp
  obtain ⟨htake, hdrop⟩ := takeWhile_replicate_append (size + 1) hend
  rw [List.append_nil, List.replicate_succ] at htake hdrop
  rw [read?_dollar (by cases size <;> simp [List.replicate_succ]), numbering, htake, hdrop]
  simp

/-- Dollar signs with modifiers behind them are read to their end. -/
theorem read?_modified {digits : List Char} {base : Nat} (h : NumeralOrOne digits base)
    (size climb : Nat) (reverse : Bool) :
    read? '$' (List.replicate size '$' ++ '@' ::
        (List.replicate climb '^' ++ ((if reverse then ['-'] else []) ++ digits))) =
      some { kind := .numbering { size := size + 1, reverse, base, climb }
             text := '$' :: (List.replicate size '$' ++ '@' ::
               (List.replicate climb '^' ++ ((if reverse then ['-'] else []) ++ digits)))
             rest := [] } := by
  generalize hmodifiers :
    List.replicate climb '^' ++ ((if reverse then ['-'] else []) ++ digits) = modifiers
  have hat : ('@' :: modifiers).head? ≠ some '$' := by simp
  obtain ⟨htake, hdrop⟩ := takeWhile_replicate_append (size + 1) hat
  rw [List.replicate_succ, List.cons_append] at htake hdrop
  have hmodified := modifiedNumbering_eq h ('$' :: List.replicate size '$') climb reverse
  rw [hmodifiers] at hmodified
  rw [read?_dollar (by cases size <;> simp [List.replicate_succ]), numbering, htake, hdrop]
  simp [hmodified]

/-- A star with digits or nothing behind it is read to its end. -/
theorem read?_star {digits : List Char} {count : Nat} (h : NumeralOrOne digits count) :
    read? '*' digits = some { kind := .repeater { count, index := 0, implicit := digits.isEmpty }
                              text := '*' :: digits
                              rest := [] } := by
  obtain ⟨hdigits, hnothing⟩ := h.takeWhile_eq
  simp [read?, repeater, hdigits, hnothing, ← h.ite_eq]

/-- White space with nothing behind it is read to its end. -/
theorem read?_space {c : Char} {cs : List Char} (h : ∀ d ∈ c :: cs, isSpace d = true) :
    read? c cs =
      some { kind := .blank (String.ofList (c :: cs)), text := c :: cs, rest := [] } := by
  have hc := h c List.mem_cons_self
  have hdollar : c ≠ '$' := by rintro rfl; cases hc
  have hstar : c ≠ '*' := by rintro rfl; cases hc
  have htake : (c :: cs).takeWhile isSpace = c :: cs := List.takeWhile_eq_self_iff.2 h
  have hdrop : (c :: cs).dropWhile isSpace = [] := List.dropWhile_eq_nil_iff.2 h
  simp only [read?, if_neg hdollar, if_neg hstar, if_pos hc, blank, htake, hdrop]

end Atom

namespace Token

variable {context : Context} {c : Char} {cs : List Char} {kind : Kind}

/-- A token of this kind, which is no literal, can be read in the context. -/
def Admits (context : Context) : Kind → Prop
  -- Where plain text does not end before such a character, it is part of a literal.
  | .quote mark => Literal.endsBefore context 0 mark.glyph = true
  | .bracket bracket opening => Literal.endsBefore context 0 (bracket.glyph opening) = true
  | .operator op => Literal.endsBefore context 0 op.glyph = true
  | .field _ => context.allowsField = true
  | _ => True

/-- A token of one character is read where plain text ends before the character. -/
theorem readNext_of_endsBefore {reading : Reading} (h : readGlyph? c cs = some reading)
    (hends : Literal.endsBefore context 0 c = true) :
    readNext context none c cs = .ok (reading, context.after reading.kind) := by
  refine readNext_eq_glyph h (Literal.read?_eq_none_iff.2 ⟨?_, ?_, hends⟩)
  · rintro rfl
    cases h
  · simp [Literal.isFraction]

/-- What spells a token is read as that token in each context that admits it, and nothing is left of
it. -/
theorem readNext_of_spells (h : Spells (c :: cs) kind) (hliteral : ∀ value, kind ≠ .literal value)
    (hadmits : Admits context kind) :
    readNext context none c cs =
      .ok ({ kind, text := c :: cs, rest := [] }, context.after kind) := by
  generalize htext : c :: cs = text at h
  cases h with
  | literal => exact absurd rfl (hliteral _)
  | blank _ h =>
    subst htext
    have hc := h c List.mem_cons_self
    exact readNext_eq_atom (by rintro rfl; cases hc) (Atom.read?_space h)
  | quote mark =>
    obtain ⟨rfl, rfl⟩ := List.cons.inj htext
    exact readNext_of_endsBefore (readGlyph?_quote mark []) hadmits
  | bracket bracket opening =>
    obtain ⟨rfl, rfl⟩ := List.cons.inj htext
    exact readNext_of_endsBefore (readGlyph?_bracket bracket opening []) hadmits
  | operator op =>
    obtain ⟨rfl, rfl⟩ := List.cons.inj htext
    exact readNext_of_endsBefore (readGlyph?_operator op []) hadmits
  | repeater h =>
    obtain ⟨rfl, rfl⟩ := List.cons.inj htext
    exact readNext_eq_atom (by simp) (Atom.read?_star h)
  | @numbering size hsize =>
    obtain ⟨size, rfl⟩ := Nat.exists_eq_succ_of_ne_zero hsize
    obtain ⟨rfl, rfl⟩ := List.cons.inj (htext.trans List.replicate_succ)
    -- No brace follows the first dollar sign, so it begins no field.
    refine readNext_eq_atom (fun _ => ?_) (Atom.read?_dollars size)
    cases size <;> simp [List.replicate_succ]
  | @modified size base digits hsize hbase climb reverse =>
    obtain ⟨size, rfl⟩ := Nat.exists_eq_succ_of_ne_zero hsize
    rw [Nat.succ_eq_add_one, List.replicate_succ, List.cons_append] at htext
    obtain ⟨rfl, rfl⟩ := List.cons.inj htext
    refine readNext_eq_atom (fun _ => ?_) (Atom.read?_modified hbase size climb reverse)
    cases size <;> simp [List.replicate_succ]
  | placeholder =>
    obtain ⟨rfl, rfl⟩ := List.cons.inj htext
    exact readNext_eq_atom (by simp) rfl
  | @field body field hbalanced h =>
    obtain ⟨rfl, rfl⟩ := List.cons.inj htext
    have hallows : context.allowsField = true := hadmits
    simp only [readNext, hallows, List.head?_cons, List.tail_cons, beq_self_eq_true, Bool.and_self,
      if_true, Field.read_of_spells hbalanced h []]
    rfl

/-- Atoms are admitted anywhere. -/
theorem admits_of_read?_atom (context : Context) {reading : Reading}
    (h : Atom.read? c cs = some reading) : Admits context reading.kind := by
  unfold Atom.read? at h
  split at h
  next =>
    split at h
    next => cases h; trivial
    next =>
      cases h
      unfold Atom.numbering
      split <;> trivial
  next =>
    split at h
    next => cases h; trivial
    next =>
      split at h
      next => cases h; trivial
      next => cases h

/-- A token of one character is admitted where plain text ends before the character. -/
theorem admits_of_readGlyph? {reading : Reading} (h : readGlyph? c cs = some reading)
    (hends : Literal.endsBefore context 0 c = true) : Admits context reading.kind := by
  simp only [readGlyph?, Option.map_eq_some_iff] at h
  obtain ⟨kind, hkind, rfl⟩ := h
  split at hkind
  next _ _ _ hop =>
    cases hkind
    rwa [Operator.ofChar?_eq_some_iff.1 hop] at hends
  next _ _ _ hmark =>
    cases hkind
    rwa [QuoteMark.ofChar?_eq_some_iff.1 hmark] at hends
  next _ _ _ _ hbracket =>
    cases hkind
    rwa [Bracket.ofChar?_eq_some_iff.1 hbracket] at hends
  next => cases hkind

/-- What is read in a context is admitted by it, whatever stands before. -/
theorem admits_of_readNext {before : Option Char} {reading : Reading} {next : Context}
    (h : readNext context before c cs = .ok (reading, next)) : Admits context reading.kind := by
  unfold readNext at h
  split at h
  next hfield =>
    obtain ⟨read, hread, heq⟩ := Except.map_eq_ok_iff.1 h
    cases heq
    obtain ⟨field, hkind⟩ := exists_field_of_read hread
    simp only [Bool.and_eq_true] at hfield
    rw [hkind]
    exact hfield.1.1
  next =>
    split at h
    next hatom => cases h; exact admits_of_read?_atom context hatom
    next =>
      split at h
      next hliteral =>
        cases h
        rw [Literal.read?] at hliteral
        split at hliteral
        next => cases hliteral
        next => cases hliteral; trivial
      next hliteral =>
        split at h
        next hglyph =>
          cases h
          exact admits_of_readGlyph? hglyph (Literal.read?_eq_none_iff.1 hliteral).2.2
        next => cases h

/-! ## Reading normal forms -/

/-- In the context, the normal form of a token is read as the token, and nothing is left of it. -/
def Rereads (context : Context) (kind : Kind) : Prop :=
  ∃ c cs, kind.text.toList = c :: cs ∧
    readNext context none c cs =
      .ok ({ kind, text := c :: cs, rest := [] }, context.after kind)

/-- No token is spelled by nothing. -/
theorem Spells.ne_nil {text : List Char} (h : Spells text kind) : text ≠ [] := by
  cases h with
  | literal hne => exact hne
  | blank hne => exact hne
  | numbering hsize => simpa using hsize
  | modified => simp
  | _ => exact List.cons_ne_nil _ _

/-- What is read in one round, and is no literal, has a normal form that is read as it is. -/
theorem rereads_of_readNext {before : Option Char} {reading : Reading} {next : Context}
    (h : readNext context before c cs = .ok (reading, next))
    (hliteral : ∀ value, reading.kind ≠ .literal value) : Rereads context reading.kind := by
  have hspells := spells_text (spells_of_readNext h).1 hliteral
  obtain ⟨d, ds, htext⟩ := List.exists_cons_of_ne_nil hspells.ne_nil
  rw [htext] at hspells
  exact ⟨d, ds, htext, readNext_of_spells hspells hliteral (admits_of_readNext h)⟩

/-- Every token of a source that is no literal is given back by its normal form: read alone, in the
context in which the token was read, it is that token, and nothing is left of it. -/
theorem rereads_of_mem_tokenize {source : String} {tokens : List Token}
    (h : tokenize source = .ok tokens) {token : Token} (hmem : token ∈ tokens)
    (hliteral : ∀ value, token.kind ≠ .literal value) :
    ∃ context, contextAt? source token.start = some context ∧ Rereads context token.kind := by
  obtain ⟨lexemes, progress, lexeme, next, -, hstep, hkind, -, -, hcontext⟩ :=
    exists_step_of_mem_tokenize h hmem
  refine ⟨progress.context, hcontext, ?_⟩
  rw [hkind] at hliteral ⊢
  obtain ⟨hnext⟩ := hstep
  exact rereads_of_readNext hnext hliteral

/-- A numbering whose modifiers say nothing, a tab stop with a zero in front of its index and no
placeholder behind the colon, and a count beyond the greatest one. -/
theorem rereads_of_mem_tokenize_saturated :
    (∃ context, contextAt? "p\x7b$$@01$\x7b02:\x7d\x7d*18446744073709551616" 2 = some context ∧
        Rereads context (.numbering ⟨2, false, 1, 0⟩)) ∧
      (∃ context, contextAt? "p\x7b$$@01$\x7b02:\x7d\x7d*18446744073709551616" 7 = some context ∧
        Rereads context (.field (.tabStop 2 ""))) ∧
      ∃ context, contextAt? "p\x7b$$@01$\x7b02:\x7d\x7d*18446744073709551616" 14 = some context ∧
        Rereads context (.repeater ⟨18446744073709551615, 0, false⟩) := by
  have htokens : tokenize "p\x7b$$@01$\x7b02:\x7d\x7d*18446744073709551616" = .ok
      [⟨.literal "p", 0, 1⟩, ⟨.bracket .expression true, 1, 2⟩,
        ⟨.numbering ⟨2, false, 1, 0⟩, 2, 7⟩, ⟨.field (.tabStop 2 ""), 7, 13⟩,
        ⟨.bracket .expression false, 13, 14⟩,
        ⟨.repeater ⟨18446744073709551615, 0, false⟩, 14, 35⟩] := by
    decide +kernel
  exact ⟨@rereads_of_mem_tokenize _ _ htokens ⟨.numbering ⟨2, false, 1, 0⟩, 2, 7⟩ (by simp)
      (by simp),
    @rereads_of_mem_tokenize _ _ htokens ⟨.field (.tabStop 2 ""), 7, 13⟩ (by simp) (by simp),
    @rereads_of_mem_tokenize _ _ htokens ⟨.repeater ⟨18446744073709551615, 0, false⟩, 14, 35⟩
      (by simp) (by simp)⟩

end Token

end Shorthand
