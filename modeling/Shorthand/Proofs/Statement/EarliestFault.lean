import Shorthand.Proofs.Statement.Locality.Elements
import Shorthand.Proofs.Statement.Reading

/-!
# Faults are noticed as early as possible

A fault in tokens is reported at the first token that cannot follow those before it: no tokens
behind it mend the fault, and with other tokens in its place it would not be there. A quotation mark
that is not closed and a group that the tokens end in are different, since they are noticed only
at the end.

## Main definitions

* `FailsEarly`: a reader fails at a token, whatever stands behind it, but could have gone on with
  another one in its place.

## Main results

* `continues_readAll_element`, `continues_readAll_closing`: one step of reading statements depends
  on no more tokens than it takes, and on the one behind them;
* `failsEarly_readAll`: the reader of statements fails early;
* `exists_earliest_fault`: the faulty token is the first one that does not belong there.
-/

namespace Shorthand.Statement

variable {α : Type} {jsx present : Bool} {element : Element} {tokens value rest behind : List Token}
  {token : Token} {fault : Fault} {cause : Cause}

/-! ## Statements -/

theorem continues_readLink {link : Link} (h : readLink tokens = (link, rest)) :
    Continues false readLink tokens (fun behind => (link, behind)) rest := by
  cases readLink_eq_iff.1 h with
  | child hmark => exact ⟨[_], rfl, fun behind _ => readLink_eq_iff.2 (.child hmark)⟩
  | sibling hmark => exact ⟨[_], rfl, fun behind _ => readLink_eq_iff.2 (.sibling hmark)⟩
  | nothing hnone =>
    refine ⟨[], rfl, fun behind hin => readLink_eq_iff.2 (.nothing ?_)⟩
    exact hin.forall_head hnone (by simp +contextual) (by simp +contextual)
  | climb hne hmarks hrest =>
    refine ⟨_, rfl, fun behind hin => readLink_eq_iff.2 (.climb hne hmarks ?_)⟩
    exact hin.forall_head hrest (by simp +contextual) (by simp +contextual)

variable {level enclosing : Level} {outer : List Level} {link : Link}

/-- Behind an element and its link, the level is read on with one more statement. -/
theorem continues_readAll_element (h : readElement? jsx tokens = .ok (some (element, value)))
    (hlink : readLink value = (link, rest)) :
    Continues false (readAll jsx level outer) tokens
      (readAll jsx (level.add (.element element []) link) outer) rest := by
  obtain ⟨taken, rfl, htaken⟩ := continues_readElement? h
  have helement : Continues false (readAll jsx level outer) (taken ++ value)
      (fun behind => readAll jsx (level.add (.element element []) (readLink behind).1) outer
        (readLink behind).2) value :=
    ⟨taken, rfl, fun behind hin => readAll_of_readElement? (htaken behind hin)⟩
  exact helement.trans ((continues_readLink hlink).map fun linked =>
    readAll jsx (level.add (.element element []) linked.1) outer linked.2)

/-- Behind an opening bracket, a level inside the one before it is read. -/
theorem continues_readAll_opening (h : token.kind = .bracket .group true) :
    Continues false (readAll jsx level outer) (token :: tokens) (readAll jsx {} (level :: outer))
      tokens :=
  ⟨[token], rfl, fun _ _ => readAll_opening h⟩

/-- Behind a closing bracket, the repeater and the link of the group, the level around it is read
on. -/
theorem continues_readAll_closing {repeater : Option Repeater}
    (h : token.kind = .bracket .group false) (hrepeater : readRepeater tokens = (repeater, value))
    (hlink : readLink value = (link, rest)) :
    Continues false (readAll jsx level (enclosing :: outer)) (token :: tokens)
      (readAll jsx (enclosing.add (.group repeater level.statements) link) outer) rest := by
  have hclosing : Continues false (readAll jsx level (enclosing :: outer)) (token :: tokens)
      (fun behind => readAll jsx (enclosing.add (.group (readRepeater behind).1 level.statements)
        (readLink (readRepeater behind).2).1) outer (readLink (readRepeater behind).2).2) tokens :=
    ⟨[token], rfl, fun _ _ => readAll_closing h⟩
  have hrepeated := hclosing.trans ((continues_readRepeater hrepeater).map fun repeated =>
    readAll jsx (enclosing.add (.group repeated.1 level.statements) (readLink repeated.2).1) outer
      (readLink repeated.2).2)
  exact hrepeated.trans ((continues_readLink hlink).map fun linked =>
    readAll jsx (enclosing.add (.group repeater level.statements) linked.1) outer linked.2)

/-! ## Failing early -/

/-- `reader` fails at one of the tokens, whatever stands behind that one. Up to there it has become
`next`, of which it is known that some tokens in place of the faulty ones would complete it. -/
def FailsEarly (completes : (List Token → Except Fault α) → Prop) (cause : Cause)
    (reader : List Token → Except Fault α) (tokens : List Token) : Prop :=
  ∃ next token behind, Continues false reader tokens next (token :: behind) ∧
    (∀ behind, next (token :: behind) = .error { cause, rest := token :: behind }) ∧
    completes next

section FailsEarly

variable {completes : (List Token → Except Fault α) → Prop}
  {reader next : List Token → Except Fault α}

/-- A reader that fails at the first token. -/
theorem FailsEarly.here
    (h : ∀ behind, reader (token :: behind) = .error { cause, rest := token :: behind })
    (hcompletes : completes reader) : FailsEarly completes cause reader (token :: tokens) :=
  ⟨reader, token, tokens, .refl _ _, h, hcompletes⟩

/-- A reader that fails at a later token. -/
theorem FailsEarly.of_continues (h : FailsEarly completes cause next rest)
    (hcontinues : Continues false reader tokens next rest) :
    FailsEarly completes cause reader tokens := by
  obtain ⟨last, token, behind, hlast, hfails, hcompletes⟩ := h
  exact ⟨last, token, behind, hcontinues.trans hlast, hfails, hcompletes⟩

end FailsEarly

/-! ## Faults in attribute sets -/

/-- The fault is that a quoted value, which begins at one of the tokens, is not closed. -/
def UnclosedQuote (tokens : List Token) (fault : Fault) : Prop :=
  ∃ token behind mark, token :: behind <:+ tokens ∧ token.kind = .quote mark ∧
    fault = { cause := .unterminatedQuote, rest := token :: behind }

theorem UnclosedQuote.of_suffix (h : UnclosedQuote rest fault) (hsuffix : rest <:+ tokens) :
    UnclosedQuote tokens fault := by
  obtain ⟨token, behind, mark, hrest, hkind, heq⟩ := h
  exact ⟨token, behind, mark, hrest.trans hsuffix, hkind, heq⟩

theorem UnclosedQuote.cause_eq (h : UnclosedQuote tokens fault) :
    fault.cause = .unterminatedQuote := by
  obtain ⟨token, behind, mark, -, -, rfl⟩ := h
  rfl

/-- The only fault of a quoted value is that it is not closed. -/
theorem unclosedQuote_of_readQuoted? (h : readQuoted? tokens = .error fault) :
    UnclosedQuote tokens fault := by
  unfold readQuoted? at h
  split at h
  next => cases h
  next token tokens =>
    split at h
    next mark hkind =>
      split at h
      next => cases h
      next =>
        cases h
        exact ⟨token, tokens, mark, List.suffix_refl _, hkind, rfl⟩
    next => cases h

theorem unclosedQuote_of_readValue? (h : readValue? tokens = .error fault) :
    UnclosedQuote tokens fault := by
  unfold readValue? at h
  split at h
  next hquoted =>
    cases h
    exact unclosedQuote_of_readQuoted? hquoted
  next => cases h
  next => cases h

theorem unclosedQuote_of_readAssigned? (h : readAssigned? tokens = .error fault) :
    UnclosedQuote tokens fault := by
  unfold readAssigned? at h
  split at h
  next =>
    split at h
    next hvalue =>
      cases h
      exact (unclosedQuote_of_readValue? hvalue).of_suffix (List.suffix_cons _ _)
    next => cases h
    next => cases h
  next => cases h

/-- The only fault of an attribute is a quoted value in it that is not closed. -/
theorem unclosedQuote_of_readAttribute? (h : readAttribute? tokens = .error fault) :
    UnclosedQuote tokens fault := by
  unfold readAttribute? at h
  split at h
  next hquoted =>
    cases h
    exact unclosedQuote_of_readQuoted? hquoted
  next => cases h
  next =>
    split at h
    next => cases h
    next name assigned hname =>
      have hassigned := Except.map_eq_error_iff.1 h
      refine (unclosedQuote_of_readAssigned? hassigned).of_suffix ?_
      exact ⟨name, (readUnquoted?_append hname).1⟩

/-- Where no attribute begins, the kind of the token decides how the set goes on. -/
theorem readAttributes_of_none (h : readAttribute? (token :: tokens) = .ok none) :
    readAttributes (token :: tokens) =
      match token.kind with
      | .bracket .attributes false => .ok ([], tokens)
      | .blank _ => readAttributes tokens
      | .operator .equal => .error { cause := .malformedAttribute, rest := token :: tokens }
      | kind => .error { cause := .unexpectedToken kind, rest := token :: tokens } := by
  conv_lhs => rw [readAttributes]
  split
  next hfault => simp [h] at hfault
  next hread => simp [h] at hread
  next => rfl

/-- A blank, which ends an attribute, and the bracket that closes the set. -/
def setClosers : List Token :=
  [{ kind := .blank " ", start := 0, stop := 0 },
    { kind := .bracket .attributes false, start := 0, stop := 0 }]

theorem readAttributes_setClosers (behind : List Token) :
    readAttributes (setClosers ++ behind) = .ok ([], behind) := by
  rw [setClosers, List.cons_append, readAttributes_blank rfl]
  exact readAttributes_closing rfl

/-- A faulty attribute set is faulty whatever stands behind the faulty token, and would be none if
it were closed before that. -/
theorem exists_faulty_of_readAttributes (h : readAttributes tokens = .error fault)
    (hcause : fault.cause ≠ .unterminatedQuote) :
    ∃ taken token behind, tokens = taken ++ token :: behind ∧
      (∀ behind, readAttributes (taken ++ token :: behind) =
        .error { cause := fault.cause, rest := token :: behind }) ∧
      ∀ behind, ∃ attributes, readAttributes (taken ++ (setClosers ++ behind)) =
        .ok (attributes, behind) := by
  -- Attributes and blanks are taken before the fault. At the faulty token there is neither, and
  -- this is still so if the tokens behind it are replaced.
  fun_induction readAttributes tokens generalizing fault with
  | case1 => cases h
  | case2 token tokens error hread =>
    cases h
    exact absurd (unclosedQuote_of_readAttribute? hread).cause_eq hcause
  | case3 token tokens attr next hread _ ih =>
    have hnext := Except.map_eq_error_iff.1 h
    obtain ⟨taken, faulty, behind, rfl, hfails, hcloses⟩ := ih hnext hcause
    obtain ⟨first, happend, hfirst⟩ := continues_readAttribute? hread
    refine ⟨first ++ taken, faulty, behind, by rw [happend, List.append_assoc], ?_, ?_⟩
    · intro behind
      rw [List.append_assoc,
        readAttributes_of_readAttribute? (hfirst _ (.append (.same ..) taken)), hfails]
      rfl
    · intro last
      obtain ⟨attributes, hlast⟩ := hcloses last
      have hin : StandsIn true (faulty :: behind) (setClosers ++ last) :=
        .halts (List.cons_ne_nil _ _) (halts_blank rfl)
      refine ⟨attr :: attributes, ?_⟩
      rw [List.append_assoc,
        readAttributes_of_readAttribute? (hfirst _ (hin.append taken)), hlast]
      rfl
  | case4 => cases h
  | case5 token tokens hnone text hblank ih =>
    obtain ⟨taken, faulty, behind, rfl, hfails, hcloses⟩ := ih h hcause
    refine ⟨token :: taken, faulty, behind, rfl, fun behind => ?_, ?_⟩
    · rw [List.cons_append, readAttributes_blank hblank, hfails]
    · simpa only [List.cons_append, readAttributes_blank hblank] using hcloses
  | case6 token tokens hnone hequal =>
    cases h
    refine ⟨[], token, tokens, rfl, fun behind => ?_,
      fun behind => ⟨[], readAttributes_setClosers behind⟩⟩
    have hin : StandsIn true (token :: tokens) (token :: behind) := .same ..
    rw [List.nil_append, readAttributes_of_none (hin.readAttribute?_eq_none hnone), hequal]
  | case7 token tokens hnone hclosing hblank hequal =>
    cases h
    refine ⟨[], token, tokens, rfl, fun behind => ?_,
      fun behind => ⟨[], readAttributes_setClosers behind⟩⟩
    have hin : StandsIn true (token :: tokens) (token :: behind) := .same ..
    rw [List.nil_append, readAttributes_of_none (hin.readAttribute?_eq_none hnone)]
    split <;> simp_all

/-! ## Faults in elements -/

/-- What is read as an element can be brought to an end by some tokens, which end all that went
before them. -/
def Closable (reader : List Token → Except Fault (Option (Element × List Token))) : Prop :=
  ∃ closers, Halts false closers ∧ ∀ behind, Halts false behind →
    ∃ result, reader (closers ++ behind) = .ok (some (result, behind))

/-- Only two parts can be faulty: a mark that closes what is not there, and an attribute set. -/
theorem readPart?_eq_error (h : readPart? jsx present element tokens = .error fault) :
    ∃ token rest, tokens = token :: rest ∧
      (present = false ∧ token.kind = .operator .close ∧
          fault = { cause := .unexpectedSelfClosing, rest := tokens } ∨
        token.kind = .bracket .attributes true ∧ readAttributes rest = .error fault) := by
  unfold readPart? at h
  split at h
  next => cases h
  next token tokens =>
    refine ⟨token, tokens, rfl, ?_⟩
    split at h
    next => cases h
    next => cases h
    next => cases h
    next => cases h
    next hkind =>
      exact .inr ⟨hkind, Except.map_eq_error_iff.1 h⟩
    next hkind =>
      split at h
      next => cases h
      next hpresent =>
        cases h
        exact .inl ⟨by simpa using hpresent, hkind, rfl⟩
    next => cases h

/-- An element with a faulty part is faulty. -/
theorem readParts?_of_error (h : readPart? jsx present element tokens = .error fault) :
    readParts? jsx present element tokens = .error fault := by
  rw [readParts?.eq_def]
  split <;> simp_all

/-- The parts of an element fail early, unless a mark that closes it is all there is. -/
theorem failsEarly_readParts? (h : readParts? jsx present element tokens = .error fault)
    (hcause : fault.cause ≠ .unterminatedQuote) :
    (present = false ∧ ∃ token rest, tokens = token :: rest ∧ token.kind = .operator .close) ∨
      FailsEarly Closable fault.cause (readParts? jsx present element) tokens := by
  fun_induction readParts? jsx present element tokens with
  | case1 present element tokens error hpart =>
    cases h
    obtain ⟨opening, rest, rfl, ⟨hpresent, hclose, -⟩ | ⟨hopening, hset⟩⟩ :=
      readPart?_eq_error hpart
    · exact .inl ⟨hpresent, opening, rest, rfl, hclose⟩
    right
    -- The fault is in a set. Once that is closed, the element can end, since it is there.
    obtain ⟨taken, faulty, behind, rfl, hfails, hcloses⟩ :=
      exists_faulty_of_readAttributes hset hcause
    refine ⟨fun behind => readParts? jsx present element (opening :: (taken ++ behind)), faulty,
      behind, ⟨opening :: taken, rfl, fun _ _ => rfl⟩, fun behind => ?_, ?_⟩
    · refine readParts?_of_error ?_
      rw [readPart?, hopening]
      dsimp only
      rw [hfails]
      rfl
    · refine ⟨setClosers, halts_blank rfl, fun behind hhalts => ?_⟩
      obtain ⟨attributes, hread⟩ := hcloses behind
      refine ⟨element.add (.attributes attributes), ?_⟩
      dsimp only
      rw [readParts?_of_readPart? (readPart?_attributes hopening hread) (by simp)]
      exact readParts?_of_none hhalts.readPart?
  | case2 => cases h
  | case3 => cases h
  | case4 present element tokens part next hclose hpart _ ih =>
    right
    obtain ⟨taken, rfl, htaken⟩ := continues_readPart? hpart
    have hadd : Continues false (readParts? jsx present element) (taken ++ next)
        (readParts? jsx true (element.add part)) next :=
      ⟨taken, rfl, fun behind hin => readParts?_of_readPart? (htaken behind hin) hclose⟩
    rcases ih h with ⟨hfalse, -⟩ | hfails
    · cases hfalse
    · exact hfails.of_continues hadd

/-- A mark that closes an element is a fault where there is none. -/
theorem readElement?_mark (h : token.kind = .operator .close) :
    readElement? jsx (token :: tokens) =
      .error { cause := .unexpectedSelfClosing, rest := token :: tokens } := by
  have hname : readName jsx (token :: tokens) = ([], token :: tokens) := by
    cases jsx <;> simp [readName, readPath, isCapitalized, isNamePart, h]
  rw [readElement?_of_readName hname]
  refine readParts?_of_error ?_
  simp [readPart?, h]

/-- An element fails at its first token, or early. -/
theorem failsEarly_readElement? (h : readElement? jsx tokens = .error fault)
    (hcause : fault.cause ≠ .unterminatedQuote) :
    (∃ token rest, tokens = token :: rest ∧ ∀ behind, readElement? jsx (token :: behind) =
        .error { cause := fault.cause, rest := token :: behind }) ∨
      FailsEarly Closable fault.cause (readElement? jsx) tokens := by
  rcases hname : readName jsx tokens with ⟨name, rest⟩
  have hparts := h
  rw [readElement?_of_readName hname] at hparts
  rcases failsEarly_readParts? hparts hcause with ⟨hpresent, token, behind, rfl, hclose⟩ | hfails
  -- A mark is all there is of the element, so it is the first token.
  · left
    obtain rfl : name = [] := by simpa using hpresent
    have happend := readName_append jsx tokens
    rw [hname, List.nil_append] at happend
    dsimp only at happend
    subst happend
    rw [readElement?_mark hclose] at h
    cases h
    exact ⟨token, behind, rfl, fun behind => readElement?_mark hclose⟩
  · right
    obtain ⟨next, token, behind, hcontinues, hfails, hclosable⟩ := hfails
    refine ⟨next, token, behind, hcontinues.readElement? hname ?_, hfails, hclosable⟩
    intro first hfirst result hnext
    obtain rfl : token = first := by simpa using hfirst
    rw [hfails] at hnext
    cases hnext

/-! ## Faults in statements -/

/-- The brackets that close all levels but the outermost one. -/
def groupClosers (outer : List Level) : List Token :=
  outer.map fun _ => { kind := .bracket .group false, start := 0, stop := 0 }

theorem halts_groupClosers (outer : List Level) : Halts false (groupClosers outer) := by
  cases outer with
  | nil => exact halts_nil
  | cons enclosing outer =>
    intro token htoken
    obtain rfl : _ = token := by simpa [groupClosers] using htoken
    exact .inr ⟨rfl, rfl⟩

theorem Halts.readRepeater (h : Halts false tokens) : readRepeater tokens = (none, tokens) := by
  cases tokens with
  | nil => rfl
  | cons token tokens =>
    refine readRepeater_of_ne fun repeater => ?_
    rcases h token rfl with ⟨text, hkind⟩ | ⟨-, hkind⟩
    · simp [hkind]
    · simp [hkind]

theorem Halts.readLink (h : Halts false tokens) : readLink tokens = (.beside, tokens) :=
  readLink_eq_iff.2 (.nothing (h.forall_head (by simp +contextual) (by simp +contextual)))

/-- The statements that have been read can be brought to an end by some tokens, which end all that
went before them. -/
def Finishable (reader : List Token → Except Fault (List Statement)) : Prop :=
  ∃ closers statements, Halts false closers ∧ reader closers = .ok statements

/-- Between two statements, closing all levels brings the statements to an end. -/
theorem exists_readAll_groupClosers (jsx : Bool) (level : Level) (outer : List Level) :
    ∃ statements, readAll jsx level outer (groupClosers outer) = .ok statements := by
  induction outer generalizing level with
  | nil =>
    refine ⟨level.statements, ?_⟩
    rw [groupClosers, List.map_nil, readAll]
  | cons enclosing outer ih =>
    have hhalts := halts_groupClosers outer
    obtain ⟨statements, hread⟩ := ih (enclosing.add (.group none level.statements) .beside)
    refine ⟨statements, ?_⟩
    rw [groupClosers, List.map_cons, readAll_closing rfl, ← groupClosers, hhalts.readRepeater]
    dsimp only
    rw [hhalts.readLink]
    exact hread

theorem finishable_readAll (jsx : Bool) (level : Level) (outer : List Level) :
    Finishable (readAll jsx level outer) := by
  obtain ⟨statements, hread⟩ := exists_readAll_groupClosers jsx level outer
  exact ⟨groupClosers outer, statements, halts_groupClosers outer, hread⟩

/-- Statements with a faulty element are faulty. -/
theorem readAll_of_error (h : readElement? jsx tokens = .error fault) :
    readAll jsx level outer tokens = .error fault := by
  cases tokens with
  | nil =>
    have hname : readName jsx [] = ([], []) := by cases jsx <;> rfl
    have hnone : readElement? jsx [] = .ok none := by
      rw [readElement?_of_readName hname]
      exact readParts?_eq_none_iff.2 ⟨rfl, rfl⟩
    rw [hnone] at h
    cases h
  | cons token tokens =>
    rw [readAll.eq_def]
    dsimp only
    split
    next hfault =>
      rw [h] at hfault
      cases hfault
      rfl
    next hread => simp [h] at hread
    next hnone => simp [h] at hnone

/-- A token that begins no element and no group is a fault, unless it closes a group. -/
theorem readAll_of_none (h : readElement? jsx (token :: tokens) = .ok none) :
    readAll jsx level outer (token :: tokens) =
      if token.kind = .bracket .group true then readAll jsx {} (level :: outer) tokens
      else if token.kind = .bracket .group false then
        match outer with
        | [] => .error { cause := .unmatchedGroupClose, rest := token :: tokens }
        | enclosing :: outer =>
          let repeated := readRepeater tokens
          let linked := readLink repeated.2
          readAll jsx (enclosing.add (.group repeated.1 level.statements) linked.1) outer linked.2
      else
        match outer with
        | [] => .error { cause := .unexpectedToken token.kind, rest := token :: tokens }
        | _ :: _ => .error { cause := .unclosedGroup, rest := token :: tokens } := by
  conv_lhs => rw [readAll.eq_def]
  dsimp only
  split
  next hfault => simp [h] at hfault
  next hread => simp [h] at hread
  next => rfl

/-- A fault in an element is one of the statements. -/
theorem FailsEarly.readAll
    (h : FailsEarly Closable cause (readElement? jsx) tokens) :
    FailsEarly Finishable cause (readAll jsx level outer) tokens := by
  obtain ⟨next, token, behind, ⟨taken, rfl, htaken⟩, hfails, closers, hhalts, hcloses⟩ := h
  refine ⟨fun behind => Statement.readAll jsx level outer (taken ++ behind), token, behind,
    ⟨taken, rfl, fun _ _ => rfl⟩, fun behind => ?_, ?_⟩
  · exact readAll_of_error ((htaken _ (.same token _ behind)).trans (hfails behind))
  · -- The element is closed, then the groups around it.
    have hlast := hhalts.append (halts_groupClosers outer)
    obtain ⟨result, hresult⟩ := hcloses _ (halts_groupClosers outer)
    have hread := (htaken _ (.halts (List.cons_ne_nil _ _) hlast)).trans hresult
    obtain ⟨statements, hstatements⟩ :=
      exists_readAll_groupClosers jsx (level.add (.element result []) .beside) outer
    refine ⟨closers ++ groupClosers outer, statements, hlast, ?_⟩
    dsimp only
    rw [readAll_of_readElement? hread, (halts_groupClosers outer).readLink]
    exact hstatements

/-- Reading statements fails early, unless a value in quotes or a group is not closed before the
tokens end. -/
theorem failsEarly_readAll (h : readAll jsx level outer tokens = .error fault)
    (hcause : fault.cause ≠ .unterminatedQuote)
    (hend : fault ≠ { cause := .unclosedGroup, rest := [] }) :
    FailsEarly Finishable fault.cause (readAll jsx level outer) tokens := by
  fun_induction readAll jsx level outer tokens with
  | case1 => cases h
  | case2 =>
    cases h
    exact absurd rfl hend
  | case3 level outer token tokens error hread =>
    cases h
    rcases failsEarly_readElement? hread hcause with ⟨first, rest, heq, hfails⟩ | hfails
    · cases heq
      exact .here (fun behind => readAll_of_error (hfails behind)) (finishable_readAll ..)
    · exact hfails.readAll
  -- Reading goes on behind an element, or behind a bracket.
  | case4 level outer token tokens head rest hread linked _ ih =>
    exact (ih h).of_continues (continues_readAll_element hread rfl)
  | case5 level outer token tokens hnone hopening ih =>
    exact (ih h).of_continues (continues_readAll_opening hopening)
  | case6 level token tokens hnone hopening hclosing =>
    cases h
    refine .here (fun behind => ?_) (finishable_readAll ..)
    rw [readAll_of_none (readElement?_cons_eq_none hnone behind), if_neg hopening, if_pos hclosing]
  | case7 level token tokens hnone hopening hclosing enclosing outer repeated linked ih =>
    exact (ih h).of_continues (continues_readAll_closing hclosing rfl rfl)
  | case8 level token tokens hnone hopening hclosing =>
    cases h
    refine .here (fun behind => ?_) (finishable_readAll ..)
    rw [readAll_of_none (readElement?_cons_eq_none hnone behind), if_neg hopening, if_neg hclosing]
  | case9 level token tokens hnone hopening hclosing enclosing outer =>
    cases h
    refine .here (fun behind => ?_) (finishable_readAll ..)
    rw [readAll_of_none (readElement?_cons_eq_none hnone behind), if_neg hopening, if_neg hclosing]

/-- A fault is noticed at the earliest token. Unless a value in quotes or a group is not closed
before the tokens end, there is an index of the faulty token, such that all tokens that are the same
up to it have the same fault there, and some that are the same up to it, but for the faulty token,
are statements. -/
theorem exists_earliest_fault (jsx : Bool) (tokens : List Token) (fault : Fault)
    (h : readAll jsx {} [] tokens = .error fault) (hcause : fault.cause ≠ .unterminatedQuote)
    (hend : fault ≠ { cause := .unclosedGroup, rest := [] }) :
    ∃ index < tokens.length, fault.rest = tokens.drop index ∧
      ofTokens jsx tokens = .error (fault.error tokens) ∧
      (∀ other, other.take (index + 1) = tokens.take (index + 1) →
        readAll jsx {} [] other = .error { cause := fault.cause, rest := other.drop index } ∧
          ofTokens jsx other = ofTokens jsx tokens) ∧
      ∃ more statements, ofTokens jsx (tokens.take index ++ more) = .ok statements := by
  obtain ⟨next, token, behind, ⟨taken, rfl, htaken⟩, hfails, more, statements, hhalts, hread⟩ :=
    failsEarly_readAll h hcause hend
  obtain ⟨cause, rest⟩ := fault
  dsimp only at hfails ⊢
  -- What stands behind the faulty token changes neither the fault nor its place.
  have hfault (behind : List Token) : readAll jsx {} [] (taken ++ token :: behind) =
      .error { cause, rest := token :: behind } :=
    (htaken _ (.same ..)).trans (hfails behind)
  obtain rfl : token :: behind = rest :=
    congrArg Fault.rest (Except.error.inj ((hfault behind).symm.trans h))
  have herror (behind : List Token) : ofTokens jsx (taken ++ token :: behind) =
      .error (Fault.error [token] { cause, rest := [token] }) := by
    rw [ofTokens, hfault]
    rfl
  refine ⟨taken.length, by simp, by simp, ?_, ?_, more, statements, ?_⟩
  · rw [herror]
    rfl
  · intro other hother
    have hsplit : other = taken ++ token :: other.drop (taken.length + 1) := by
      have hfirst : (taken ++ token :: behind).take (taken.length + 1) = taken ++ [token] := by
        simp [List.take_append, List.take_of_length_le]
      calc other = other.take (taken.length + 1) ++ other.drop (taken.length + 1) :=
            (List.take_append_drop ..).symm
        _ = taken ++ token :: other.drop (taken.length + 1) := by
            rw [hother, hfirst, List.append_assoc, List.singleton_append]
    rw [hsplit, hfault, herror, herror]
    simp
  · rw [List.take_left, ofTokens, htaken _ (.halts (List.cons_ne_nil _ _) hhalts), hread]
    rfl

/-- An equals sign at the beginning of an attribute set, in a group that is open. What stands behind
it does not matter, and without it the set and the group can be closed. -/
theorem exists_earliest_fault_equal :
    readAll false {} [] [⟨.bracket .group true, 0, 1⟩, ⟨.literal "a", 1, 2⟩,
        ⟨.bracket .attributes true, 2, 3⟩, ⟨.operator .equal, 3, 4⟩] =
      .error { cause := .malformedAttribute, rest := [⟨.operator .equal, 3, 4⟩] } ∧
    (∀ behind, ofTokens false (⟨.bracket .group true, 0, 1⟩ :: ⟨.literal "a", 1, 2⟩ ::
        ⟨.bracket .attributes true, 2, 3⟩ :: ⟨.operator .equal, 3, 4⟩ :: behind) =
      .error (.malformedAttribute ⟨3, 1⟩)) ∧
    ∃ more statements, ofTokens false (⟨.bracket .group true, 0, 1⟩ :: ⟨.literal "a", 1, 2⟩ ::
        ⟨.bracket .attributes true, 2, 3⟩ :: more) = .ok statements := by
  have hset : readElement? false [⟨.literal "a", 1, 2⟩, ⟨.bracket .attributes true, 2, 3⟩,
      ⟨.operator .equal, 3, 4⟩] =
        .error { cause := .malformedAttribute, rest := [⟨.operator .equal, 3, 4⟩] } := by
    decide +kernel
  have hread : readAll false {} [] [⟨.bracket .group true, 0, 1⟩, ⟨.literal "a", 1, 2⟩,
      ⟨.bracket .attributes true, 2, 3⟩, ⟨.operator .equal, 3, 4⟩] =
        .error { cause := .malformedAttribute, rest := [⟨.operator .equal, 3, 4⟩] } :=
    (readAll_opening rfl).trans (readAll_of_error hset)
  obtain ⟨index, hindex, hrest, herror, hsame, more, statements, hok⟩ :=
    exists_earliest_fault false _ _ hread (by simp) (by simp)
  obtain rfl : index = 3 := by
    have hlength := congrArg List.length hrest
    simp only [List.length_drop, List.length_cons, List.length_nil] at hlength
    omega
  refine ⟨hread, fun behind => ?_, more, statements, hok⟩
  exact (hsame (_ :: _ :: _ :: _ :: behind) rfl).2.trans herror

end Shorthand.Statement
