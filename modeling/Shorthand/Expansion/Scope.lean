import Shorthand.Options.Basic
import Shorthand.Token.Basic

/-!
# Scopes

What a token is resolved against: the options of the expansion, and the repeaters around the token
with the clone of each that is being made.
-/

namespace Shorthand

/-- The options and the active repeaters around a token. -/
structure Scope where
  options : Options
  /-- The active repeaters, the innermost first. -/
  loops : List Repeater := []

namespace Scope

/-- The scope inside one clone. -/
def enter (scope : Scope) (clone : Repeater) : Scope :=
  { scope with loops := clone :: scope.loops }

/-- The number that a numbering token stands for: its base and the position of the innermost clone,
counted from the end if the numbering is reversed. If the numbering climbs, it continues over the
clones of a repeater further out, at most the outermost. -/
def number (scope : Scope) (numbering : Numbering) : Nat :=
  match scope.loops with
  | [] => Count.saturate numbering.base
  | inner :: outer =>
    let position :=
      if numbering.reverse then inner.count - (inner.index + 1) else inner.index
    let counted := Count.add numbering.base position
    match (outer.take numbering.climb).getLast? with
    | none => counted
    | some further => Count.add counted (Count.mul inner.count further.index)

/-- The supplied text at a placeholder: the line for the clone of the nearest implicit repeater, or
the whole text where there is none. -/
def suppliedText (scope : Scope) : String :=
  scope.options.textAt ((scope.loops.find? (·.implicit)).map (·.index))

end Scope

end Shorthand
