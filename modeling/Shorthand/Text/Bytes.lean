/-!
# Byte offsets

Positions in a source are byte offsets into its UTF-8 form. A text is a list of characters here,
so an offset is turned into a cut between two characters; an offset past the end or inside a
character names no cut.

* `width_append`: widths add up.
* `cut?_eq_some_iff`: a cut at `n` splits the text into two parts of which the first is `n` bytes
  wide.
-/

namespace Shorthand.Text

/-- A range of bytes of a source. -/
structure Span where
  /-- Offset of the first byte. -/
  offset : Nat
  /-- Number of bytes, zero for a place between two characters. -/
  length : Nat
deriving Repr, DecidableEq

/-- The number of bytes of the UTF-8 form of `cs`. -/
def width : List Char → Nat
  | [] => 0
  | c :: cs => c.utf8Size + width cs

/-- The text before and after byte offset `n`, or `none` if no character begins or ends there. -/
def cut? : Nat → List Char → Option (List Char × List Char)
  | 0, cs => some ([], cs)
  | _ + 1, [] => none
  | n + 1, c :: cs =>
    if c.utf8Size ≤ n + 1 then
      (cut? (n + 1 - c.utf8Size) cs).map fun (before, after) => (c :: before, after)
    else none

@[simp]
theorem width_nil : width [] = 0 := rfl

@[simp]
theorem width_cons (c : Char) (cs : List Char) : width (c :: cs) = c.utf8Size + width cs := rfl

@[simp]
theorem width_append (xs ys : List Char) : width (xs ++ ys) = width xs + width ys := by
  induction xs with
  | nil => simp
  | cons x xs ih => simp [ih, Nat.add_assoc]

/-- Only the empty text is zero bytes wide. -/
@[simp]
theorem width_eq_zero_iff {cs : List Char} : width cs = 0 ↔ cs = [] := by
  cases cs with
  | nil => simp
  | cons c cs => simp [Nat.ne_of_gt c.utf8Size_pos]

/-- A cut at `n` splits the text into two parts of which the first is `n` bytes wide. -/
theorem cut?_eq_some_iff {n : Nat} {cs before after : List Char} :
    cut? n cs = some (before, after) ↔ cs = before ++ after ∧ width before = n := by
  induction cs generalizing n before after with
  | nil =>
    cases n with
    | zero => simp [cut?]; grind
    | succ n => simp [cut?]; grind [width_nil]
  | cons c cs ih =>
    have hc := c.utf8Size_pos
    cases n with
    | zero =>
      simp only [cut?, Option.some.injEq, Prod.mk.injEq, width_eq_zero_iff]
      grind
    | succ n =>
      rw [cut?]
      split
      next h =>
        simp only [Option.map_eq_some_iff, Prod.exists, Prod.mk.injEq]
        constructor
        · rintro ⟨xs, ys, hcut, rfl, rfl⟩
          obtain ⟨rfl, hw⟩ := ih.1 hcut
          exact ⟨rfl, by simp; omega⟩
        · rintro ⟨hsplit, hw⟩
          cases before with
          | nil => simp at hw
          | cons b before =>
            obtain ⟨rfl, rfl⟩ : c = b ∧ cs = before ++ after := by simpa using hsplit
            exact ⟨before, after, ih.2 ⟨rfl, by simp at hw; omega⟩, rfl, rfl⟩
      next h =>
        simp only [reduceCtorEq, false_iff, not_and]
        rintro hsplit hw
        cases before with
        | nil => simp at hw
        | cons b before =>
          obtain ⟨rfl, rfl⟩ : c = b ∧ cs = before ++ after := by simpa using hsplit
          simp at hw
          omega

end Shorthand.Text
