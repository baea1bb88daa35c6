import Shorthand.Expansion.Basic
import Shorthand.Proofs.Expansion.Rendered

/-!
# Unrolling without notes

A statement claims the supplied text if the text has a place in it: a placeholder, or an implicit
repeater, whose clones take one line each. Which statements do so can be seen in the tree before any
of it is unrolled, and it is just what is noted on the way. So the nodes can be described without
the notes.

## Main definitions

* `bodyClaimsText`, `anyClaimsText`: whether statements claim the text;
* `unroll`, `unrollAll`: the nodes of statements, and how many clones have been made.

## Main results

* `unrollNoting_eq`, `unrollAllNoting_eq`: statements note supplied text if and only if they claim
  it, and their nodes and clones are the same with and without the notes;
* `convert_eq_insertWhole`, `convert_eq_unrollAll`: the output, described without notes.
-/

namespace Shorthand

/-- Output nodes, and how many clones have been made so far. -/
abbrev Unrolled := List Node × Nat

/-- Nodes and clones, with a note. -/
def Unrolled.note (unrolled : Unrolled) (noted : Bool) : Converted :=
  { nodes := unrolled.1, made := unrolled.2, noted }

namespace Statement

/-! ## Claims on the text -/

/-- Whether the statement is repeated as often as the supplied text has lines. -/
def isImplicit (statement : Statement) : Bool :=
  statement.repeater.any (·.implicit)

mutual

/-- Whether the statement claims the text, apart from its own repeater. -/
def bodyClaimsText : Statement → Bool
  | .element head children => head.claimsText || anyClaimsText children
  | .group _ children => anyClaimsText children

/-- Whether one of the statements claims the text. -/
def anyClaimsText : List Statement → Bool
  | [] => false
  | statement :: statements =>
    statement.isImplicit || bodyClaimsText statement || anyClaimsText statements

end

/-! ## Unrolling -/

/-- What the clones from `index` on consist of, at most as many as given last. `body` makes one
clone, from its index and the number of clones made before. -/
def clones {α : Type} (limit : Nat) (body : Nat → Nat → List α × Nat) (index made : Nat) :
    Nat → List α × Nat
  | 0 => ([], made)
  | remaining + 1 =>
    let (nodes, made) := body index made
    -- A clone counts once its own repeaters are unrolled, so the limit is met from the inside out.
    if limit ≤ made + 1 then (nodes, made + 1)
    else
      let (more, made) := clones limit body (index + 1) (made + 1) remaining
      (nodes ++ more, made)

/-- The clones of a statement, or the statement once if it has no repeater. The clones of an
implicit repeater get their lines at their last leaf, unless the statement claims the text
itself. -/
def repeated (scope : Scope) (repeater : Option Repeater) (claimsText : Bool)
    (body : Scope → Option Repeater → Nat → Unrolled) (made : Nat) : Unrolled :=
  match repeater with
  | none => body scope none made
  | some written =>
    let count := scope.options.cloneCount written
    let makeClone (index made : Nat) : Unrolled :=
      let clone : Repeater := { count, index, implicit := written.implicit }
      let (nodes, made) := body (scope.enter clone) (some clone) made
      if clone.implicit && !claimsText then
        let line := scope.options.textAt (some index)
        (Node.modifyLastLeaf (Node.appendText line) nodes, made)
      else (nodes, made)
    clones scope.options.repeatLimit makeClone 0 made count

mutual

/-- The nodes of a statement, when `made` clones have been made. -/
def unroll (scope : Scope) (made : Nat) : Statement → Unrolled
  | .element head children =>
    repeated scope head.repeater (head.claimsText || anyClaimsText children)
      (fun scope clone made =>
        let (below, made) := unrollAll scope made children
        (scope.nodes head clone below, made))
      made
  | .group repeater children =>
    repeated scope repeater (anyClaimsText children)
      (fun scope clone made =>
        let (nodes, made) := unrollAll scope made children
        (markClone clone nodes, made))
      made

/-- The nodes of several statements, one after the other. -/
def unrollAll (scope : Scope) (made : Nat) : List Statement → Unrolled
  | [] => ([], made)
  | statement :: statements =>
    let (nodes, made) := unroll scope made statement
    let (more, made) := unrollAll scope made statements
    (nodes ++ more, made)

end

/-! ## Both unrollings are the same -/

variable {noting : Nat → Nat → Converted} {body : Nat → Nat → Unrolled} {claims : Bool}

/-- If every clone notes the same, then so do one or more of them together. -/
theorem clonesNoting_eq (limit : Nat)
    (h : ∀ index made, noting index made = (body index made).note claims)
    (remaining index made : Nat) : clonesNoting limit noting index made (remaining + 1) =
      Unrolled.note (clones limit body index made (remaining + 1)) claims := by
  induction remaining generalizing index made with
  | zero =>
    by_cases hlimit : limit ≤ (body index made).2 + 1
    · simp [clonesNoting, clones, h, Unrolled.note, hlimit]
    · simp [clonesNoting, clones, h, Unrolled.note, Converted.append, hlimit]
  | succ remaining ih =>
    by_cases hlimit : limit ≤ (body index made).2 + 1
    · simp [clonesNoting, clones, h, Unrolled.note, hlimit]
    · rw [clonesNoting, clones, h]
      simp [Unrolled.note, hlimit, ih, Converted.append]

/-- Every repeater asks for a clone. -/
theorem cloneCount_pos (options : Options) (written : Repeater) :
    0 < options.cloneCount written := by
  unfold Options.cloneCount
  split
  next =>
    rcases options.text with _ | _ | lines
    · exact Nat.one_pos
    · exact Nat.one_pos
    · exact Nat.lt_of_lt_of_le Nat.one_pos (Nat.le_max_left 1 _)
  next => exact Nat.lt_of_lt_of_le Nat.one_pos (Nat.le_max_left 1 _)

/-- A statement of which every repetition notes the same notes that, or that its own repeater is
implicit. -/
theorem repeatedNoting_eq {noting : Scope → Option Repeater → Nat → Converted}
    {body : Scope → Option Repeater → Nat → Unrolled}
    (h : ∀ scope clone made, noting scope clone made = (body scope clone made).note claims)
    (scope : Scope) (repeater : Option Repeater) (made : Nat) :
    repeatedNoting scope repeater noting made =
      (repeated scope repeater claims body made).note (repeater.any (·.implicit) || claims) := by
  cases repeater with
  | none => exact h scope none made
  | some written =>
    obtain ⟨remaining, hcount⟩ := Nat.exists_eq_succ_of_ne_zero
      (Nat.pos_iff_ne_zero.1 (cloneCount_pos scope.options written))
    rw [repeatedNoting, repeated]
    dsimp only
    rw [hcount, clonesNoting_eq scope.options.repeatLimit fun index made => ?_]
    · rw [Option.any_some, Bool.or_comm]
      rfl
    -- A line is appended where nothing has been noted, which is where nothing is claimed.
    · rw [h]
      unfold Unrolled.note
      by_cases hline : (written.implicit && !claims) = true
      · simp [hline]
      · simp [hline]

mutual

/-- Unrolling a statement notes supplied text if and only if the statement claims it. -/
theorem unrollNoting_eq (scope : Scope) (made : Nat) : ∀ statement : Statement,
    unrollNoting scope made statement =
      (unroll scope made statement).note (statement.isImplicit || bodyClaimsText statement)
  | .element head children => by
    rw [unrollNoting, unroll, bodyClaimsText]
    refine repeatedNoting_eq (fun scope clone made => ?_) scope head.repeater made
    rw [unrollAllNoting_eq scope made children]
    dsimp only [Unrolled.note]
    rw [Scope.nodesNoting_eq]
  | .group repeater children => by
    rw [unrollNoting, unroll, bodyClaimsText]
    refine repeatedNoting_eq (fun scope clone made => ?_) scope repeater made
    rw [unrollAllNoting_eq scope made children]
    rfl

/-- Unrolling statements notes supplied text if and only if one of them claims it. -/
theorem unrollAllNoting_eq (scope : Scope) (made : Nat) : ∀ statements : List Statement,
    unrollAllNoting scope made statements =
      (unrollAll scope made statements).note (anyClaimsText statements)
  | [] => by
    rw [unrollAllNoting, unrollAll, anyClaimsText]
    rfl
  | statement :: statements => by
    rw [unrollAllNoting, unrollAll, anyClaimsText, unrollNoting_eq scope made statement]
    dsimp only [Unrolled.note]
    rw [unrollAllNoting_eq scope _ statements]
    rfl

end

/-- The output consists of the nodes of the statements, and the whole text goes to the last leaf
unless one of the statements claims it. -/
theorem convert_eq_insertWhole (options : Options) (statements : List Statement) :
    convert options statements =
      options.insertWhole (anyClaimsText statements) (unrollAll { options } 0 statements).1 := by
  rw [convert, unrollAllNoting_eq]
  rfl

/-- Without supplied text, the output is nothing but the nodes. -/
theorem convert_eq_unrollAll {options : Options} (htext : options.text = none)
    (statements : List Statement) :
    convert options statements = (unrollAll { options } 0 statements).1 := by
  simp [convert_eq_insertWhole, Options.insertWhole, htext]

end Statement

end Shorthand
