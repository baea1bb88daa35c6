import Shorthand.Proofs.Statement.EarliestFault
import Shorthand.Proofs.Statement.Locality.Endings

/-!
# Where faults lie

A fault in tokens is one of the tokens, and of a kind that can be wrong in that way: a quotation
mark that nothing closes, a bracket that closes nothing, or simply the token that was found. Only
for a group that is not closed there may be no such token, if the tokens end in it.

## Main definitions

* `Cause.Fits`: the kinds of tokens that can be wrong in a certain way;
* `Fault.LiesIn`: the fault is a fitting one of the tokens, or that they end.

## Main results

* `liesIn_of_readAttributes`, `liesIn_of_readElement?`: the faults of parts of statements;
* `liesIn_of_readAll`: every fault of statements lies in their tokens.
-/

namespace Shorthand.Statement

variable {jsx present : Bool} {element : Element} {tokens rest : List Token} {token : Token}
  {fault : Fault} {level : Level} {outer : List Level}

/-- A token of this kind can be wrong in this way. -/
def Cause.Fits (cause : Cause) (kind : Token.Kind) : Prop :=
  match cause with
  | .unterminatedQuote => ∃ mark, kind = .quote mark
  | .unclosedGroup => True
  | .unmatchedGroupClose => kind = .bracket .group false
  | .unexpectedToken found => kind = found
  | .malformedAttribute => kind = .operator .equal
  | .unexpectedSelfClosing => kind = .operator .close

/-- The fault is one of the tokens, and fits its kind, or it is that the tokens end in a group. -/
inductive Fault.LiesIn (tokens : List Token) : Fault → Prop
  | token {cause : Cause} {token : Token} {behind : List Token}
      (hsuffix : token :: behind <:+ tokens) (h : cause.Fits token.kind) :
      LiesIn tokens { cause, rest := token :: behind }
  | ending : LiesIn tokens { cause := .unclosedGroup, rest := [] }

theorem Fault.LiesIn.of_suffix (h : fault.LiesIn rest) (hsuffix : rest <:+ tokens) :
    fault.LiesIn tokens := by
  cases h with
  | token hrest h => exact .token (hrest.trans hsuffix) h
  | ending => exact .ending

theorem UnclosedQuote.liesIn (h : UnclosedQuote tokens fault) : fault.LiesIn tokens := by
  obtain ⟨token, behind, mark, hsuffix, hkind, rfl⟩ := h
  exact .token hsuffix ⟨mark, hkind⟩

/-- A faulty attribute set has a value in quotes that is not closed, or a token that fits no
attribute. -/
theorem liesIn_of_readAttributes (h : readAttributes tokens = .error fault) :
    fault.LiesIn tokens := by
  fun_induction readAttributes tokens with
  | case1 => cases h
  | case2 token tokens error hread =>
    cases h
    exact (unclosedQuote_of_readAttribute? hread).liesIn
  | case3 token tokens attr next hread _ ih =>
    have hnext := Except.map_eq_error_iff.1 h
    exact (ih hnext).of_suffix (continues_readAttribute? hread).suffix
  | case4 => cases h
  | case5 token tokens hnone text hblank ih => exact (ih h).of_suffix (List.suffix_cons _ _)
  | case6 token tokens hnone hequal =>
    cases h
    exact .token (List.suffix_refl _) hequal
  | case7 token tokens hnone hclosing hblank hequal =>
    cases h
    exact .token (List.suffix_refl _) rfl

/-- Parts of elements are faulty for a mark that closes nothing, or in an attribute set. -/
theorem liesIn_of_readPart? (h : readPart? jsx present element tokens = .error fault) :
    fault.LiesIn tokens := by
  obtain ⟨token, rest, rfl, ⟨-, hclose, rfl⟩ | ⟨-, hset⟩⟩ := readPart?_eq_error h
  · exact .token (List.suffix_refl _) hclose
  · exact (liesIn_of_readAttributes hset).of_suffix (List.suffix_cons _ _)

theorem liesIn_of_readParts? (h : readParts? jsx present element tokens = .error fault) :
    fault.LiesIn tokens := by
  fun_induction readParts? jsx present element tokens with
  | case1 present element tokens error hpart =>
    cases h
    exact liesIn_of_readPart? hpart
  | case2 => cases h
  | case3 => cases h
  | case4 present element tokens part next hclose hpart _ ih =>
    exact (ih h).of_suffix (continues_readPart? hpart).suffix

theorem liesIn_of_readElement? (h : readElement? jsx tokens = .error fault) :
    fault.LiesIn tokens := by
  rcases hname : readName jsx tokens with ⟨name, rest⟩
  have happend := readName_append jsx tokens
  rw [hname] at happend
  rw [readElement?_of_readName hname] at h
  exact (liesIn_of_readParts? h).of_suffix ⟨name, happend⟩

/-- A fault of statements lies in their tokens. -/
theorem liesIn_of_readAll (h : readAll jsx level outer tokens = .error fault) :
    fault.LiesIn tokens := by
  fun_induction readAll jsx level outer tokens with
  | case1 => cases h
  | case2 =>
    cases h
    exact .ending
  | case3 level outer token tokens error hread =>
    cases h
    exact liesIn_of_readElement? hread
  -- Reading goes on behind an element, or behind a bracket.
  | case4 level outer token tokens head rest hread linked _ ih =>
    have hcontinues : Continues false (readAll jsx level outer) (token :: tokens) _ linked.2 :=
      continues_readAll_element hread rfl
    exact (ih h).of_suffix hcontinues.suffix
  | case5 level outer token tokens hnone hopening ih =>
    exact (ih h).of_suffix (List.suffix_cons _ _)
  | case6 level token tokens hnone hopening hclosing =>
    cases h
    exact .token (List.suffix_refl _) hclosing
  | case7 level token tokens hnone hopening hclosing enclosing outer repeated linked ih =>
    have hcontinues : Continues false (readAll jsx level (enclosing :: outer)) (token :: tokens) _
        linked.2 := continues_readAll_closing hclosing rfl rfl
    exact (ih h).of_suffix hcontinues.suffix
  | case8 level token tokens hnone hopening hclosing =>
    cases h
    exact .token (List.suffix_refl _) rfl
  | case9 level token tokens hnone hopening hclosing enclosing outer =>
    cases h
    exact .token (List.suffix_refl _) trivial

end Shorthand.Statement
