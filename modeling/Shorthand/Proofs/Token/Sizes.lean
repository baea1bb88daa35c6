import Shorthand.Proofs.Token.Nesting

/-!
# Sizes of tokens

Tokens begin at ever later bytes, so no two tokens of a source are alike. How many bytes a token
covers tells it from tokens that are put in its place afterwards: a literal covers at least the
bytes of its value, an operator exactly one.

## Main definitions

* `Sized`: the size of a token fits its kind.

## Main results

* `sized_of_mem_tokenize`: the tokens of a source have fitting sizes;
* `Covers.pairwise_start`: tokens that stand one behind the other begin at ever later bytes.
-/

namespace Shorthand.Token

open Text (width)

variable {context next : Context} {before : Option Char} {c : Char} {cs : List Char}

/-- A token of this kind can cover so many bytes: a literal no fewer than its value, from which
backslashes have been taken out, and an operator a single one. -/
def Kind.Fits (kind : Kind) (size : Nat) : Prop :=
  match kind with
  | .literal value => width value.toList ≤ size
  | .operator _ => size = 1
  | _ => True

/-- The token covers as many bytes as its kind says. -/
def Sized (token : Token) : Prop :=
  token.kind.Fits (token.stop - token.start)

/-! ## Kinds and sizes -/

/-- The text of a literal is no wider than what it is written as. -/
theorem width_value_run_le (context : Context) (before : Option Char) (opened : Nat)
    (source : List Char) : width (Literal.run context before opened source).value ≤
      width (Literal.run context before opened source).text := by
  fun_induction Literal.run context before opened source with
  | case1 => exact Nat.le_refl _
  | case2 => exact Nat.le_refl _
  | case3 before opened escaped cs ih =>
    simp only [Literal.Run.escape, Text.width_cons]
    omega
  | case4 before opened c cs hc hgo ih =>
    simp only [Literal.Run.keep, Text.width_cons]
    omega
  | case5 => exact Nat.le_refl _

/-- Atoms are neither literals nor operators, and can be of any size. -/
theorem fits_of_read?_atom {reading : Reading} (h : Atom.read? c cs = some reading) (size : Nat) :
    reading.kind.Fits size := by
  -- An atom can be read inside braces, where no operator can.
  obtain ⟨hemits, hliteral⟩ := emits_of_read?_atom { braces := 1 } h
  cases hkind : reading.kind with
  | literal value => exact absurd hkind (hliteral value)
  | operator op =>
    rw [hkind] at hemits
    exact absurd hemits.2.1 Nat.one_ne_zero
  | _ => trivial

/-- A glyph is a token of one character. -/
theorem fits_of_readGlyph? {reading : Reading} (h : readGlyph? c cs = some reading) :
    reading.kind.Fits (width reading.text) := by
  simp only [readGlyph?, Option.map_eq_some_iff] at h
  obtain ⟨kind, hkind, rfl⟩ := h
  split at hkind
  next _ _ op hop =>
    cases hkind
    obtain rfl := Operator.ofChar?_eq_some_iff.1 hop
    cases op <;> rfl
  next => cases hkind; trivial
  next => cases hkind; trivial
  next => cases hkind

/-- The token that one round reads has a size that fits its kind. -/
theorem fits_of_readNext {reading : Reading}
    (h : readNext context before c cs = .ok (reading, next)) :
    reading.kind.Fits (width reading.text) := by
  rcases readBy_of_readNext h with hfield | hatom | hliteral | ⟨-, hglyph⟩
  · obtain ⟨field, hkind⟩ := exists_field_of_read hfield
    rw [hkind]
    trivial
  · exact fits_of_read?_atom hatom _
  · rw [Literal.read?] at hliteral
    split at hliteral
    next => cases hliteral
    next =>
      cases hliteral
      show width (String.ofList _).toList ≤ _
      rw [String.toList_ofList]
      exact width_value_run_le context before 0 (c :: cs)
  · exact fits_of_readGlyph? hglyph

/-- The tokens of a source have sizes that fit their kinds. -/
theorem sized_of_mem_tokenize {source : String} {tokens : List Token}
    (h : tokenize source = .ok tokens) {token : Token} (hmem : token ∈ tokens) : token.Sized := by
  obtain ⟨-, -, -, -, -, ⟨hnext⟩, hkind, hstart, hstop, -⟩ := exists_step_of_mem_tokenize h hmem
  rw [Sized, hkind, hstop, hstart, Nat.add_sub_cancel_left]
  exact fits_of_readNext hnext

/-! ## Places -/

/-- Tokens that stand one behind the other begin at ever later bytes, the first one where they
all do. -/
theorem Covers.pairwise_start {start stop : Nat} {tokens : List Token}
    (h : Covers start stop tokens) (hne : ∀ token ∈ tokens, token.start < token.stop) :
    (∀ token ∈ tokens, start ≤ token.start) ∧
      tokens.Pairwise fun token later => token.start < later.start := by
  induction tokens generalizing start with
  | nil => exact ⟨by simp, List.Pairwise.nil⟩
  | cons token tokens ih =>
    obtain ⟨rfl, hcovers⟩ := h
    obtain ⟨hlt, hne⟩ := List.forall_mem_cons.1 hne
    obtain ⟨hle, hpairwise⟩ := ih hcovers hne
    -- The other tokens begin where this one ends, or later.
    have hlater : ∀ later ∈ tokens, token.start < later.start := fun later hmem =>
      Nat.lt_of_lt_of_le hlt (hle later hmem)
    refine ⟨List.forall_mem_cons.2 ⟨Nat.le_refl _, fun later hmem => ?_⟩, ?_⟩
    · exact Nat.le_of_lt (hlater later hmem)
    · exact List.pairwise_cons.2 ⟨hlater, hpairwise⟩

/-- The tokens of a source begin at ever later bytes. -/
theorem pairwise_start_of_tokenize {source : String} {tokens : List Token}
    (h : tokenize source = .ok tokens) :
    tokens.Pairwise fun token later => token.start < later.start := by
  obtain ⟨lexemes, last, hrun, hend, rfl⟩ := tokenize_eq_ok_iff_exists_run.1 h
  have hpartition := partition_of_run hrun hend
  exact (hpartition.covers.pairwise_start hpartition.nonempty).2

end Shorthand.Token
