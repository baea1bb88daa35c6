import Mathlib.Data.Nat.Digits.Defs
import Shorthand.Proofs.Token.BalancedText
import Shorthand.Proofs.Token.Nesting

/-!
# How tokens are spelled

What the characters of a token say is what its kind says. The rules of spelling are those of the
notation, one for each kind of token, and they know nothing of how a source is read: a number is
the value of its decimal digits, as far as that is a count, and the value of a literal is what is
left of it without the backslashes that escape a character.

## Main definitions

* `unescape`, `dangles`: a text without its escaping backslashes, and a text that ends with a
  backslash that escapes nothing;
* `Numeral`: digits that spell a number;
* `Spells`: characters that spell a token of some kind;
* `SpelledIn`: the slice that a token covers spells it.

## Main results

* `Field.closes_of_readBalanced`, `Field.readBalanced_of_closes`: the text up to the brace that ends
  a name or a placeholder is the one whose braces are balanced;
* `Field.read_of_spells`: a balanced text that spells a field is read as that field;
* `spells_of_readNext`: one round reads characters that spell its token;
* `spelledIn_of_mem_tokenize`: every token of a source is spelled by the slice that it covers.
-/

namespace Shorthand

open Text (isDigit isLetter isSpace width)

/-! ## Rules -/

/-- The text without its escaping backslashes. The character behind such a backslash is kept, also
if it is a backslash, and so is a backslash with nothing behind it. -/
def unescape : List Char → List Char
  | [] => []
  | c :: cs =>
    if c = '\\' then
      match cs with
      | [] => ['\\']
      | escaped :: cs => escaped :: unescape cs
    else c :: unescape cs

/-- Whether the text ends with a backslash that is not escaped itself. -/
def dangles : List Char → Bool
  | [] => false
  | c :: cs =>
    if c = '\\' then
      match cs with
      | [] => true
      | _ :: cs => dangles cs
    else dangles cs

theorem unescape_cons {c : Char} (h : c ≠ '\\') (cs : List Char) :
    unescape (c :: cs) = c :: unescape cs := by
  rw [unescape.eq_def]
  exact if_neg h

theorem dangles_cons {c : Char} (h : c ≠ '\\') (cs : List Char) :
    dangles (c :: cs) = dangles cs := by
  rw [dangles.eq_def]
  exact if_neg h

/-- The number that decimal digits spell. -/
def decimalValue (digits : List Char) : Nat :=
  Nat.ofDigits 10 (digits.map fun c => c.toNat - '0'.toNat).reverse

/-- The digits spell the number, which is the greatest count if they spell more. -/
structure Numeral (digits : List Char) (number : Nat) : Prop where
  ne_nil : digits ≠ []
  forall_isDigit : ∀ c ∈ digits, isDigit c = true
  number_eq : number = min (decimalValue digits) (2 ^ 64 - 1)

/-- The digits spell the number, which is one if there are no digits. -/
def NumeralOrOne (digits : List Char) (number : Nat) : Prop :=
  digits = [] ∧ number = 1 ∨ Numeral digits number

/-- What can stand between the braces of a field. -/
inductive Field.Spells : List Char → Field → Prop
  | empty : Spells [] (.reference "")
  | index {digits : List Char} {index : Nat} (h : Numeral digits index) :
      Spells digits (.tabStop index "")
  | named {digits : List Char} {index : Nat} (h : Numeral digits index) (name : List Char) :
      Spells (digits ++ ':' :: name) (.tabStop index (String.ofList name))
  | reference {c : Char} (h : isLetter c = true) (cs : List Char) :
      Spells (c :: cs) (.reference (String.ofList (c :: cs)))

/-- The characters with which tokens of each kind are written. -/
inductive Token.Spells : List Char → Token.Kind → Prop
  | literal {text : List Char} (h : text ≠ []) :
      Spells text (.literal (String.ofList (unescape text)))
  | blank {text : List Char} (hne : text ≠ []) (h : ∀ c ∈ text, isSpace c = true) :
      Spells text (.blank (String.ofList text))
  | quote (mark : QuoteMark) : Spells [mark.glyph] (.quote mark)
  | bracket (bracket : Bracket) (opening : Bool) :
      Spells [bracket.glyph opening] (.bracket bracket opening)
  | operator (operator : Operator) : Spells [operator.glyph] (.operator operator)
  | repeater {digits : List Char} {count : Nat} (h : NumeralOrOne digits count) :
      Spells ('*' :: digits) (.repeater { count, index := 0, implicit := digits.isEmpty })
  /-- Dollar signs alone count upward from one. -/
  | numbering {size : Nat} (h : size ≠ 0) :
      Spells (List.replicate size '$')
        (.numbering { size, reverse := false, base := 1, climb := 0 })
  | modified {size base : Nat} {digits : List Char} (hsize : size ≠ 0)
      (hbase : NumeralOrOne digits base) (climb : Nat) (reverse : Bool) :
      Spells (List.replicate size '$' ++ '@' :: (List.replicate climb '^' ++
          ((if reverse then ['-'] else []) ++ digits)))
        (.numbering { size, reverse, base, climb })
  | placeholder : Spells ['$', '#'] .placeholder
  | field {body : List Char} {field : Field} (hbalanced : Balanced body)
      (h : field.Spells body) : Spells ('$' :: '{' :: (body ++ ['}'])) (.field field)

/-! ## Numbers -/

theorem ofDigitChars_eq_decimalValue (digits : List Char) :
    Nat.ofDigitChars 10 digits 0 = decimalValue digits := by
  induction digits with
  | nil => rfl
  | cons c cs ih =>
    rw [Nat.ofDigitChars_cons, Nat.ofDigitChars_eq_ofDigitChars_zero, ih, decimalValue,
      decimalValue, List.map_cons, Nat.ofDigits_reverse_cons, List.length_map]
    ring

/-- The digits with which a text begins spell the number that is read. -/
theorem numeral_takeWhile {source : List Char} (hne : source.takeWhile isDigit ≠ []) :
    Numeral (source.takeWhile isDigit) (Count.ofDigits (source.takeWhile isDigit)) where
  ne_nil := hne
  forall_isDigit _ hmem := List.mem_takeWhile_imp hmem
  number_eq := by
    rw [Count.ofDigits, ofDigitChars_eq_decimalValue]
    rfl

/-- Digits are read as the number that they spell. -/
theorem Numeral.eq_ofDigits {digits : List Char} {number : Nat} (h : Numeral digits number) :
    number = Count.ofDigits digits := by
  rw [h.number_eq, Count.ofDigits, ofDigitChars_eq_decimalValue]
  rfl

theorem Numeral.noBraces {digits : List Char} {number : Nat} (h : Numeral digits number) :
    NoBraces digits :=
  noBraces_of_forall (by decide) (by decide) h.forall_isDigit

/-- Digits are read up to the first character that is none. -/
theorem Numeral.takeWhile_append {digits : List Char} {number : Nat} (h : Numeral digits number)
    {c : Char} (hc : isDigit c = false) (rest : List Char) :
    (digits ++ c :: rest).takeWhile isDigit = digits ∧
      (digits ++ c :: rest).dropWhile isDigit = c :: rest := by
  rw [List.takeWhile_append_of_pos h.forall_isDigit, List.dropWhile_append_of_pos h.forall_isDigit]
  simp [hc]

theorem numeralOrOne_takeWhile (source : List Char) :
    NumeralOrOne (source.takeWhile isDigit)
      (if (source.takeWhile isDigit).isEmpty then 1
        else Count.ofDigits (source.takeWhile isDigit)) := by
  split
  next hempty => exact .inl ⟨List.isEmpty_iff.1 hempty, rfl⟩
  next hne => exact .inr (numeral_takeWhile (by simpa using hne))

/-! ## Atoms -/

namespace Atom

theorem takeWhile_beq_eq_replicate (d : Char) (source : List Char) :
    source.takeWhile (· == d) = List.replicate (source.takeWhile (· == d)).length d :=
  List.eq_replicate_of_mem fun _ hmem => by simpa using List.mem_takeWhile_imp hmem

/-- Characters behind an at sign spell the modifiers of a numbering. -/
theorem spells_modifiedNumbering {size : Nat} (hsize : size ≠ 0) (source : List Char) :
    Token.Spells (modifiedNumbering (List.replicate size '$') source).text
      (modifiedNumbering (List.replicate size '$') source).kind := by
  simp only [modifiedNumbering, List.length_replicate]
  generalize hclimbs : source.takeWhile (· == '^') = climbs
  generalize source.dropWhile (· == '^') = rest
  generalize hminus : (rest.take 1).filter (· == '-') = minus
  -- The minus sign is there or not, as the numbering says.
  have hreverse : minus = if !minus.isEmpty then ['-'] else [] := by
    rw [← hminus]
    cases rest with
    | nil => rfl
    | cons c rest => by_cases hc : c = '-' <;> simp [hc]
  have hspells := Token.Spells.modified hsize (numeralOrOne_takeWhile (rest.drop minus.length))
    climbs.length (!minus.isEmpty)
  rwa [← hreverse, ← hclimbs, ← takeWhile_beq_eq_replicate, hclimbs] at hspells

/-- Dollar signs, and the modifiers behind them, spell a numbering. -/
theorem spells_numbering (cs : List Char) :
    Token.Spells (numbering ('$' :: cs)).text (numbering ('$' :: cs)).kind := by
  have hsize : (('$' :: cs).takeWhile (· == '$')).length ≠ 0 := by simp
  unfold numbering
  dsimp only
  split
  next rest hrest =>
    rw [takeWhile_beq_eq_replicate '$' ('$' :: cs)]
    exact spells_modifiedNumbering hsize rest
  next =>
    dsimp only
    rw [takeWhile_beq_eq_replicate '$' ('$' :: cs), List.length_replicate]
    exact .numbering hsize

/-- An atom is spelled by the characters that it is read from. -/
theorem spells_of_read? {c : Char} {cs : List Char} {reading : Reading}
    (h : read? c cs = some reading) : Token.Spells reading.text reading.kind := by
  unfold read? at h
  split at h
  next hc =>
    subst hc
    split at h
    next => cases h; exact .placeholder
    next => cases h; exact spells_numbering cs
  next =>
    split at h
    next => cases h; exact .repeater (numeralOrOne_takeWhile cs)
    next =>
      split at h
      next hspace =>
        cases h
        exact .blank (splits_blank cs hspace).2 fun _ hmem => List.mem_takeWhile_imp hmem
      next => cases h

end Atom

/-! ## Fields -/

namespace Field

theorem length_openedBehind {opened : List (List Char)} {c : Char} (cs : List Char) :
    (openedBehind opened c cs).length = depthAfter opened.length c := by
  unfold openedBehind depthAfter
  split
  next => rfl
  next =>
    split
    next => exact List.length_tail
    next => rfl

/-- The text up to a brace that closes more than was opened closes what it opens. -/
theorem closes_of_readBalanced {opened : List (List Char)} {source text rest : List Char}
    (h : readBalanced opened source = .ok (text, rest)) : Closes opened.length text := by
  induction source generalizing opened text with
  | nil =>
    cases opened with
    | nil => cases h; rfl
    | cons => cases h
  | cons c cs ih =>
    rcases readBalanced_cons_eq_ok h with ⟨-, rfl, rfl, -⟩ | ⟨hgo, more, hmore, rfl⟩
    · rfl
    · refine ⟨fun hc hnone => hgo ⟨hc, List.length_eq_zero_iff.1 hnone⟩, ?_⟩
      rw [← length_openedBehind cs]
      exact ih hmore

/-- A text that closes what it opens is read up to the brace behind it. -/
theorem readBalanced_of_closes {opened : List (List Char)} {text : List Char}
    (h : Closes opened.length text) (rest : List Char) :
    readBalanced opened (text ++ '}' :: rest) = .ok (text, '}' :: rest) := by
  induction text generalizing opened with
  | nil =>
    obtain rfl := List.length_eq_zero_iff.1 h
    rfl
  | cons c cs ih =>
    obtain ⟨hclose, hcs⟩ := h
    have hgo : ¬(c = '}' ∧ opened = []) := fun hstop => hclose hstop.1 (by rw [hstop.2]; rfl)
    rw [← length_openedBehind (cs ++ '}' :: rest)] at hcs
    rw [List.cons_append, readBalanced_cons, if_neg hgo, ih hcs]
    rfl

theorem isDigit_of_isLetter {c : Char} (h : isLetter c = true) : isDigit c = false := by
  -- Both the capital and the small letters come behind the digits.
  have hbehind : '9'.val < c.val := by
    rcases Bool.or_eq_true_iff.1 h with hupper | hlower
    · have hle : 'A'.val ≤ c.val := (of_decide_eq_true hupper).1
      exact UInt32.lt_of_lt_of_le (by decide) hle
    · have hle : 'a'.val ≤ c.val := of_decide_eq_true (Bool.and_eq_true_iff.1 hlower).1
      exact UInt32.lt_of_lt_of_le (by decide) hle
  refine Bool.eq_false_iff.2 fun hdigit => ?_
  have hle : c.val ≤ '9'.val := of_decide_eq_true (Bool.and_eq_true_iff.1 hdigit).2
  exact UInt32.not_lt.2 hle hbehind

/-- A letter is part of the name that begins with it. -/
theorem exists_cons_of_readBalanced {c : Char} {cs text rest : List Char} (hc : isLetter c = true)
    (h : readBalanced [] (c :: cs) = .ok (text, rest)) : ∃ more, text = c :: more := by
  rcases readBalanced_cons_eq_ok h with ⟨rfl, -⟩ | ⟨-, more, -, htext⟩
  · cases hc
  · exact ⟨more, htext⟩

/-- A field is closed where its body ends. -/
theorem spells_of_close {field : Field} {body rest : List Char} {reading : Reading}
    (hbalanced : Balanced body) (hfield : field.Spells body)
    (h : close field ('$' :: '{' :: body) rest = .ok reading) :
    Token.Spells reading.text reading.kind := by
  unfold close at h
  split at h
  next => cases h; exact .field hbalanced hfield
  next => cases h

theorem spells_of_readTabStop {digits rest : List Char} {reading : Reading}
    (hdigits : Numeral digits (Count.ofDigits digits)) (h : readTabStop digits rest = .ok reading) :
    Token.Spells reading.text reading.kind := by
  have hbraces := hdigits.noBraces
  unfold readTabStop at h
  dsimp only at h
  split at h
  next source =>
    split at h
    next name rest hread =>
      -- A colon is no brace either.
      have hcolon : Closes 0 (':' :: name) := ⟨by decide, closes_of_readBalanced hread⟩
      have hname := hbraces.closes_append_iff.2 hcolon
      exact spells_of_close hname.balanced (.named hdigits name) h
    next => cases h
  next =>
    have hindex : Closes 0 (digits ++ []) := hbraces.closes_append_iff.2 rfl
    rw [List.append_nil] at hindex
    exact spells_of_close hindex.balanced (.index hdigits) h

theorem spells_of_readReference {body : List Char} {reading : Reading}
    (h : readReference body = .ok reading) : Token.Spells reading.text reading.kind := by
  unfold readReference at h
  split at h
  next hletter =>
    split at h
    next name rest hread =>
      have hname := closes_of_readBalanced hread
      cases body with
      | nil => cases hletter
      | cons c cs =>
        -- A letter is no brace, so the name begins with it.
        obtain ⟨cs, rfl⟩ := exists_cons_of_readBalanced hletter hread
        exact spells_of_close hname.balanced (.reference hletter cs) h
    next => cases h
  next => exact spells_of_close (by decide) .empty h

/-- A field is spelled by the characters that it is read from. -/
theorem spells_of_read {body : List Char} {reading : Reading} (h : read body = .ok reading) :
    Token.Spells reading.text reading.kind := by
  unfold read at h
  dsimp only at h
  split at h
  next => exact spells_of_readReference h
  next hne => exact spells_of_readTabStop (numeral_takeWhile (by simpa using hne)) h

/-- A body that spells a field is read as that field, if a brace closes it. -/
theorem read_of_spells {body : List Char} {field : Field} (hbalanced : Balanced body)
    (h : field.Spells body) (rest : List Char) :
    read (body ++ '}' :: rest) =
      .ok { kind := .field field, text := '$' :: '{' :: (body ++ ['}']), rest } := by
  have hbody := hbalanced.closes
  cases h with
  | empty => rfl
  | @index digits index hindex =>
    obtain ⟨htake, hdrop⟩ := hindex.takeWhile_append (c := '}') (by decide) rest
    rw [read, htake, hdrop, if_neg (by simpa using hindex.ne_nil), hindex.eq_ofDigits]
    rfl
  | @named digits index hindex name =>
    obtain ⟨htake, hdrop⟩ := hindex.takeWhile_append (c := ':') (by decide) (name ++ '}' :: rest)
    -- Neither the digits nor the colon are braces, so the name is as balanced as the body.
    have hname : Closes 0 name := (hindex.noBraces.closes_append_iff.1 hbody).2
    rw [List.append_assoc, List.cons_append, read, htake, hdrop,
      if_neg (by simpa using hindex.ne_nil), hindex.eq_ofDigits, readTabStop,
      @readBalanced_of_closes [] name hname]
    rfl
  | @reference c hc cs =>
    have hread : readBalanced [] (c :: (cs ++ '}' :: rest)) = .ok (c :: cs, '}' :: rest) :=
      @readBalanced_of_closes [] (c :: cs) hbody rest
    -- The body begins with no digit, so it is read as a name.
    rw [List.cons_append, read, List.takeWhile_cons_of_neg (by simp [isDigit_of_isLetter hc])]
    simp only [List.isEmpty_nil, if_true, readReference, List.head?_cons, Option.any_some, hc,
      hread]
    rfl

end Field

/-! ## Literals -/

namespace Literal

/-- The value of a run of plain text is what is left of it without its escaping backslashes. -/
theorem value_run (context : Context) (before : Option Char) (opened : Nat) (source : List Char) :
    (run context before opened source).value =
      unescape (run context before opened source).text := by
  fun_induction run context before opened source with
  | case1 => rfl
  | case2 => rfl
  | case3 before opened escaped cs ih => simp [Run.escape, unescape, ih]
  | case4 before opened c cs hc hgo ih => simp [Run.keep, unescape_cons hc, ih]
  | case5 => rfl

/-- A backslash that escapes nothing stands at the end of the source. -/
theorem rest_run_of_dangles {context : Context} {before : Option Char} {opened : Nat}
    {source : List Char} (h : dangles (run context before opened source).text = true) :
    (run context before opened source).rest = [] := by
  fun_induction run context before opened source with
  | case1 => rfl
  | case2 => rfl
  | case3 before opened escaped cs ih => exact ih (by simpa [Run.escape, dangles] using h)
  | case4 before opened c cs hc hgo ih => exact ih (by simpa [Run.keep, dangles_cons hc] using h)
  | case5 => simp [Run.stop, dangles] at h

end Literal

/-! ## Tokens -/

namespace Token

variable {context next : Context} {before : Option Char} {c : Char} {cs : List Char}
  {reading : Reading}

theorem spells_of_readGlyph? (h : readGlyph? c cs = some reading) :
    Spells reading.text reading.kind := by
  simp only [readGlyph?, Option.map_eq_some_iff] at h
  obtain ⟨kind, hkind, rfl⟩ := h
  split at hkind
  next _ _ op hop =>
    cases hkind
    rw [Operator.ofChar?_eq_some_iff.1 hop]
    exact .operator op
  next mark _ hmark =>
    cases hkind
    rw [QuoteMark.ofChar?_eq_some_iff.1 hmark]
    exact .quote mark
  next bracket opening _ _ hbracket =>
    cases hkind
    rw [Bracket.ofChar?_eq_some_iff.1 hbracket]
    exact .bracket bracket opening
  next => cases hkind

/-- One round reads characters that spell its token. If they end with a backslash that escapes
nothing, the source ends there. -/
theorem spells_of_readNext (h : readNext context before c cs = .ok (reading, next)) :
    Spells reading.text reading.kind ∧ ∀ value, reading.kind = .literal value →
      dangles reading.text = true → reading.rest = [] := by
  constructor
  · rcases readBy_of_readNext h with hfield | hatom | hliteral | ⟨-, hglyph⟩
    · exact Field.spells_of_read hfield
    · exact Atom.spells_of_read? hatom
    · rw [Literal.read?] at hliteral
      split at hliteral
      next => cases hliteral
      next hne =>
        cases hliteral
        rw [Literal.value_run]
        exact .literal (by simpa using hne)
    · exact spells_of_readGlyph? hglyph
  · intro value hkind hdangles
    have hliteral := read?_literal_of_readNext hkind h
    rw [Literal.read?] at hliteral
    split at hliteral
    next => cases hliteral
    next =>
      cases hliteral
      exact Literal.rest_run_of_dangles hdangles

/-- The slice of the source that the token covers spells the token. If the token is a literal and
the slice ends with a backslash that escapes nothing, the source ends there. -/
def SpelledIn (source : String) (token : Token) : Prop :=
  ∃ text, slice? source token = some text ∧ Spells text token.kind ∧
    ∀ value, token.kind = .literal value → dangles text = true →
      token.stop = source.utf8ByteSize

/-- Every token of a source is spelled by the slice that it covers. -/
theorem spelledIn_of_mem_tokenize {source : String} {tokens : List Token}
    (h : tokenize source = .ok tokens) {token : Token} (hmem : token ∈ tokens) :
    SpelledIn source token := by
  obtain ⟨lexemes, progress, lexeme, next, hrun, hstep, hkind, hstart, hstop, -⟩ :=
    exists_step_of_mem_tokenize h hmem
  have hsource := hrun.read_append_rest
  obtain ⟨-, hrest, -⟩ := hstep.advances
  obtain ⟨hnext⟩ := hstep
  rename_i read cs c context behind reading
  obtain ⟨hspells, hlast⟩ := spells_of_readNext hnext
  have hsplit : source.toList = read ++ reading.text ++ reading.rest := by
    rw [List.append_assoc, ← hrest]
    exact hsource.symm
  have hstop' : token.stop = width (read ++ reading.text) := by
    rw [hstop, Progress.position, Text.width_append]
  refine ⟨reading.text, ?_, hkind ▸ hspells, fun value hvalue hdangles => ?_⟩
  · rw [slice?, Text.Cursor.slice?_eq_some_iff]
    exact ⟨read, reading.rest, hsplit, hstart.symm, hstop'.symm⟩
  -- Behind a backslash that escapes nothing, nothing is left of the source.
  · rw [hstop', Text.utf8ByteSize_eq_width, hsplit,
      hlast value (hkind.symm.trans hvalue) hdangles, List.append_nil]

/-- An escaped star, a count beyond the greatest one, a numbering with all modifiers, a field with
braces in its placeholder, and a backslash at the end. -/
theorem spelledIn_of_mem_tokenize_escaped :
    SpelledIn "a\\*b*18446744073709551616 $$@^-07[$\x7b2:\x7bé\x7d\x7d]\\"
        ⟨.literal "a*b", 0, 4⟩ ∧
      SpelledIn "a\\*b*18446744073709551616 $$@^-07[$\x7b2:\x7bé\x7d\x7d]\\"
        ⟨.repeater ⟨18446744073709551615, 0, false⟩, 4, 25⟩ ∧
      SpelledIn "a\\*b*18446744073709551616 $$@^-07[$\x7b2:\x7bé\x7d\x7d]\\"
        ⟨.numbering ⟨2, true, 7, 1⟩, 26, 33⟩ ∧
      SpelledIn "a\\*b*18446744073709551616 $$@^-07[$\x7b2:\x7bé\x7d\x7d]\\"
        ⟨.field (.tabStop 2 "\x7bé\x7d"), 34, 43⟩ ∧
      SpelledIn "a\\*b*18446744073709551616 $$@^-07[$\x7b2:\x7bé\x7d\x7d]\\"
        ⟨.literal "\\", 44, 45⟩ := by
  have htokens : tokenize "a\\*b*18446744073709551616 $$@^-07[$\x7b2:\x7bé\x7d\x7d]\\" = .ok
      [⟨.literal "a*b", 0, 4⟩, ⟨.repeater ⟨18446744073709551615, 0, false⟩, 4, 25⟩,
        ⟨.blank " ", 25, 26⟩, ⟨.numbering ⟨2, true, 7, 1⟩, 26, 33⟩,
        ⟨.bracket .attributes true, 33, 34⟩, ⟨.field (.tabStop 2 "\x7bé\x7d"), 34, 43⟩,
        ⟨.bracket .attributes false, 43, 44⟩, ⟨.literal "\\", 44, 45⟩] := by
    decide +kernel
  exact ⟨spelledIn_of_mem_tokenize htokens (by simp), spelledIn_of_mem_tokenize htokens (by simp),
    spelledIn_of_mem_tokenize htokens (by simp), spelledIn_of_mem_tokenize htokens (by simp),
    spelledIn_of_mem_tokenize htokens (by simp)⟩

end Token

end Shorthand
