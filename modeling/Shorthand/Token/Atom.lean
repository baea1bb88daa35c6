import Shorthand.Count
import Shorthand.Token.Context

/-!
# Atoms

The tokens that mean the same in every context: repeaters, numbering, the placeholder for supplied
text, and white space. Each is as long as it can be, so that `$#` is a placeholder while in `$$#`
the two dollar signs are numbering.
-/

namespace Shorthand.Atom

/-- The repeater behind a `*`: its digits give the count. -/
def repeater (rest : List Char) : Reading :=
  let digits := rest.takeWhile Text.isDigit
  { kind := .repeater
      { count := if digits.isEmpty then 1 else Count.ofDigits digits
        index := 0
        implicit := digits.isEmpty }
    text := '*' :: digits
    rest := rest.dropWhile Text.isDigit }

/-- The modifiers behind the `@` of a numbering with `size` dollar signs: carets climb to repeaters
further out, a minus sign counts down, and digits give the first number. -/
def modifiedNumbering (dollars rest : List Char) : Reading :=
  -- At most one minus sign counts, and only between the carets and the digits.
  let climbs := rest.takeWhile (· == '^')
  let rest := rest.dropWhile (· == '^')
  let minus := (rest.take 1).filter (· == '-')
  let rest := rest.drop minus.length
  let digits := rest.takeWhile Text.isDigit
  { kind := .numbering
      { size := dollars.length
        reverse := !minus.isEmpty
        base := if digits.isEmpty then 1 else Count.ofDigits digits
        climb := climbs.length }
    text := dollars ++ '@' :: (climbs ++ (minus ++ digits))
    rest := rest.dropWhile Text.isDigit }

/-- The numbering with which `source` begins. -/
def numbering (source : List Char) : Reading :=
  let dollars := source.takeWhile (· == '$')
  match source.dropWhile (· == '$') with
  | '@' :: rest => modifiedNumbering dollars rest
  | rest =>
    { kind := .numbering { size := dollars.length, reverse := false, base := 1, climb := 0 }
      text := dollars
      rest }

/-- The white space with which `source` begins. -/
def blank (source : List Char) : Reading :=
  let spaces := source.takeWhile Text.isSpace
  { kind := .blank (String.ofList spaces), text := spaces, rest := source.dropWhile Text.isSpace }

/-- The atom with which a source begins, given its first character and the others. -/
def read? (c : Char) (cs : List Char) : Option Reading :=
  if c = '$' then
    match cs with
    | '#' :: rest => some { kind := .placeholder, text := ['$', '#'], rest }
    | _ => some (numbering (c :: cs))
  else if c = '*' then some (repeater cs)
  else if Text.isSpace c then some (blank (c :: cs))
  else none

theorem splits_repeater (rest : List Char) : (repeater rest).Splits ('*' :: rest) := by
  simp [repeater, Reading.Splits]

theorem take_filter_append_drop (p : Char → Bool) (cs : List Char) :
    (cs.take 1).filter p ++ cs.drop ((cs.take 1).filter p).length = cs := by
  cases cs with
  | nil => rfl
  | cons c cs => by_cases h : p c <;> simp [h]

theorem modifiedNumbering_text_append_rest (dollars rest : List Char) :
    (modifiedNumbering dollars rest).text ++ (modifiedNumbering dollars rest).rest =
      dollars ++ '@' :: rest := by
  simp only [modifiedNumbering, List.append_assoc, List.cons_append,
    List.takeWhile_append_dropWhile, take_filter_append_drop]

theorem splits_numbering (cs : List Char) : (numbering ('$' :: cs)).Splits ('$' :: cs) := by
  have hsplit := List.takeWhile_append_dropWhile (p := (· == '$')) (l := '$' :: cs)
  unfold numbering
  split
  next rest hrest =>
    rw [hrest] at hsplit
    refine ⟨(modifiedNumbering_text_append_rest _ _).trans hsplit, ?_⟩
    simp [modifiedNumbering]
  next => exact ⟨hsplit, by simp⟩

theorem splits_blank {c : Char} (cs : List Char) (h : Text.isSpace c = true) :
    (blank (c :: cs)).Splits (c :: cs) := by
  simp [blank, Reading.Splits, h]

/-- An atom is split off the source. -/
theorem splits_of_read? {c : Char} {cs : List Char} {reading : Reading}
    (h : read? c cs = some reading) : reading.Splits (c :: cs) := by
  unfold read? at h
  split at h
  next hc =>
    subst hc
    split at h
    next => cases h; simp [Reading.Splits]
    next => cases h; exact splits_numbering cs
  next =>
    split at h
    next hc => subst hc; cases h; exact splits_repeater cs
    next =>
      split at h
      next hc => cases h; exact splits_blank cs hc
      next => cases h

end Shorthand.Atom
