import Mathlib.Data.List.TakeWhile

/-!
# Runs of characters

A reader takes characters of a class as long as they follow each other. Where a run ends is decided
by the first character behind it.
-/

namespace Shorthand.Text

variable {p : Char → Bool} {run rest : List Char}

/-- A run of characters ends where the text does, if what follows does not go on with it. -/
theorem takeWhile_append_of_stop (hrest : ∀ c ∈ rest.head?, p c = false) (text : List Char) :
    (text ++ rest).takeWhile p = text.takeWhile p ∧
      (text ++ rest).dropWhile p = text.dropWhile p ++ rest := by
  induction text with
  | nil =>
    cases rest with
    | nil => exact ⟨rfl, rfl⟩
    | cons c rest => simp [hrest c rfl]
  | cons c text ih =>
    by_cases hc : p c = true
    · simp [hc, ih]
    · simp [hc]

theorem takeWhile_run (hrun : ∀ c ∈ run, p c = true) (hrest : ∀ c ∈ rest.head?, p c = false) :
    (run ++ rest).takeWhile p = run := by
  rw [(takeWhile_append_of_stop hrest run).1, List.takeWhile_eq_self_iff.2 hrun]

theorem dropWhile_run (hrun : ∀ c ∈ run, p c = true) (hrest : ∀ c ∈ rest.head?, p c = false) :
    (run ++ rest).dropWhile p = rest := by
  rw [(takeWhile_append_of_stop hrest run).2, List.dropWhile_eq_nil_iff.2 hrun, List.nil_append]

end Shorthand.Text
