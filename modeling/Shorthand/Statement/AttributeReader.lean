import Shorthand.Outcome
import Shorthand.Statement.Basic
import Shorthand.Statement.Value

/-!
# Attributes in tokens

Attribute sets in square brackets, and the short forms for classes and ids.
-/

namespace Shorthand.Statement

/-! ### Attribute sets -/

/-- What stands behind the name of an attribute: an equals sign and a value, or just the sign, or
neither. -/
def readAssigned? : List Token → Except Fault (Option (List Token) × List Token)
  | { kind := .operator .equal, .. } :: tokens =>
    match readValue? tokens with
    | .error fault => .error fault
    | .ok (some (value, rest)) => .ok (some value, rest)
    | .ok none => .ok (none, tokens)
  | tokens => .ok (none, tokens)

/-- The attribute with which the tokens begin: a quoted value, or a name with or without a value. -/
def readAttribute? (tokens : List Token) : Except Fault (Option (Attribute × List Token)) :=
  match readQuoted? tokens with
  | .error fault => .error fault
  | .ok (some (value, rest)) => .ok (some ({ value := some value }, rest))
  | .ok none =>
    match readUnquoted? true tokens with
    | none => .ok none
    | some (name, rest) =>
      (readAssigned? rest).map fun (value, rest) => some ({ name := some name, value }, rest)

theorem length_le_of_readAssigned? {tokens rest : List Token} {value : Option (List Token)}
    (h : readAssigned? tokens = .ok (value, rest)) : rest.length ≤ tokens.length := by
  unfold readAssigned? at h
  split at h
  next =>
    split at h
    next => cases h
    next hvalue =>
      cases h
      have := congrArg List.length (readValue?_append hvalue).1
      simp only [List.length_append, List.length_cons] at this ⊢
      omega
    next => cases h; simp
  next => cases h; simp

/-- What follows an attribute is shorter than the tokens. -/
theorem length_lt_of_readAttribute? {tokens rest : List Token} {attr : Attribute}
    (h : readAttribute? tokens = .ok (some (attr, rest))) : rest.length < tokens.length := by
  unfold readAttribute? at h
  split at h
  next => cases h
  next hquoted =>
    cases h
    obtain ⟨happend, hne⟩ := readQuoted?_append hquoted
    rw [← happend, List.length_append]
    have := List.length_pos_iff.2 hne
    omega
  next =>
    split at h
    next => cases h
    next name rest' hname =>
      obtain ⟨happend, hne⟩ := readUnquoted?_append hname
      obtain ⟨⟨value, rest''⟩, hassigned, heq⟩ := Except.map_eq_ok_iff.1 h
      cases heq
      have := length_le_of_readAssigned? hassigned
      rw [← happend, List.length_append]
      have := List.length_pos_iff.2 hne
      omega

/-- The attributes of a set, which are the tokens behind its opening bracket, and the tokens behind
the set. If the tokens end, so does the set. -/
def readAttributes (tokens : List Token) : Except Fault (List Attribute × List Token) :=
  match tokens with
  | [] => .ok ([], [])
  | token :: tokens =>
    match h : readAttribute? (token :: tokens) with
    | .error fault => .error fault
    | .ok (some (attr, rest)) =>
      have := length_lt_of_readAttribute? h
      (readAttributes rest).map fun (attributes, rest) => (attr :: attributes, rest)
    | .ok none =>
      match token.kind with
      | .bracket .attributes false => .ok ([], tokens)
      | .blank _ => readAttributes tokens
      | .operator .equal => .error { cause := .malformedAttribute, rest := token :: tokens }
      | kind => .error { cause := .unexpectedToken kind, rest := token :: tokens }
termination_by tokens.length
decreasing_by
  · exact this
  · simp

/-- What follows an attribute set is no longer than its tokens. -/
theorem length_le_of_readAttributes {tokens rest : List Token} {attributes : List Attribute}
    (h : readAttributes tokens = .ok (attributes, rest)) : rest.length ≤ tokens.length := by
  fun_induction readAttributes tokens generalizing attributes rest with
  | case1 => cases h; simp
  | case2 => cases h
  | case3 token tokens attr next hread hlt ih =>
    obtain ⟨result, hnext, heq⟩ := Except.map_eq_ok_iff.1 h
    cases heq
    exact Nat.le_trans (ih hnext) (Nat.le_of_lt hlt)
  | case4 => cases h; simp
  | case5 token tokens hread value hkind ih => exact Nat.le_succ_of_le (ih h)
  | case6 => cases h
  | case7 => cases h

/-! ### Short attributes -/

/-- The short attribute behind `mark`, which stands for an attribute called `name`. A braced text
is its value only where expressions are allowed. -/
def readShort (jsx : Bool) (name : String) (mark : Token) (tokens : List Token) :
    Attribute × List Token :=
  let name := some [{ mark with kind := .literal name }]
  match if jsx then readText? tokens else none with
  | some (value, rest) => ({ name, value := some value, expression := true }, rest)
  | none =>
    match readUnquoted? false tokens with
    | some (value, rest) => ({ name, value := some value }, rest)
    | none => ({ name }, tokens)

theorem length_readShort_le (jsx : Bool) (name : String) (mark : Token) (tokens : List Token) :
    (readShort jsx name mark tokens).2.length ≤ tokens.length := by
  unfold readShort
  split
  next htext =>
    split at htext
    next => exact Nat.le_of_lt (readText?_length_lt htext)
    next => cases htext
  next =>
    split
    next hvalue =>
      have := congrArg List.length (readUnquoted?_append hvalue).1
      simp only [List.length_append] at this ⊢
      omega
    next => exact Nat.le_refl _

end Shorthand.Statement
