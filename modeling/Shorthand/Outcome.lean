/-!
# Outcomes of readers

A reader that builds on another one fails as that one does, and else does something with what that
one has read. These are the rules by which what is known of the outcome is taken apart.

* `Except.map_eq_ok_iff`, `Except.map_eq_error_iff`: what is behind an outcome that was mapped.
-/

namespace Except

variable {ε α β : Type} {f : α → β} {outcome : Except ε α}

theorem map_eq_ok_iff {b : β} : outcome.map f = .ok b ↔ ∃ a, outcome = .ok a ∧ f a = b := by
  cases outcome <;> simp [Except.map]

theorem map_eq_error_iff {error : ε} : outcome.map f = .error error ↔ outcome = .error error := by
  cases outcome <;> simp [Except.map]

end Except
