import Shorthand.Count
import Shorthand.Outcome
import Shorthand.Token.Context
import Shorthand.Token.Fault

/-!
# Fields

A dollar sign and a braced body: a tab stop with an index and perhaps a placeholder, or the name of
a variable. Placeholders and names may hold balanced braces.
-/

namespace Shorthand.Field

open Token (Fault)

/-- The text up to the first brace that closes more than was opened, and the source from there on.
`opened` holds, for each brace that is open, what follows it, innermost first; if the source ends
before it is closed, the fault lies behind the innermost. -/
def readBalanced (opened : List (List Char)) :
    List Char → Except Fault (List Char × List Char)
  | [] =>
    match opened with
    | [] => .ok ([], [])
    | inner :: _ => .error (.unclosedBrace inner)
  | c :: cs =>
    if c = '{' then
      (readBalanced (cs :: opened) cs).map fun (text, rest) => (c :: text, rest)
    else if c = '}' then
      match opened with
      | [] => .ok ([], c :: cs)
      | _ :: opened => (readBalanced opened cs).map fun (text, rest) => (c :: text, rest)
    else (readBalanced opened cs).map fun (text, rest) => (c :: text, rest)

/-- Completes `field`, of which the characters `read` have been read, at its closing brace. -/
def close (field : Field) (read rest : List Char) : Except Fault Reading :=
  match rest with
  | '}' :: rest => .ok { kind := .field field, text := read ++ ['}'], rest }
  | _ => .error (.unclosedField read rest)

/-- A field whose body begins with `digits`. -/
def readTabStop (digits rest : List Char) : Except Fault Reading :=
  let index := Count.ofDigits digits
  match rest with
  | ':' :: rest =>
    match readBalanced [] rest with
    | .ok (name, rest) =>
      close (.tabStop index (String.ofList name)) ('$' :: '{' :: (digits ++ ':' :: name)) rest
    | .error fault => .error fault
  | rest => close (.tabStop index "") ('$' :: '{' :: digits) rest

/-- A field whose body does not begin with a digit. A name begins with a letter. -/
def readReference (body : List Char) : Except Fault Reading :=
  if body.head?.any Text.isLetter then
    match readBalanced [] body with
    | .ok (name, rest) => close (.reference (String.ofList name)) ('$' :: '{' :: name) rest
    | .error fault => .error fault
  else close (.reference "") ['$', '{'] body

/-- The field with the given body, which is the source behind the opening brace. -/
def read (body : List Char) : Except Fault Reading :=
  let digits := body.takeWhile Text.isDigit
  if digits.isEmpty then readReference body
  else readTabStop digits (body.dropWhile Text.isDigit)

/-- What follows each of the braces that are open behind the character `c`, innermost first. -/
def openedBehind (opened : List (List Char)) (c : Char) (cs : List Char) : List (List Char) :=
  if c = '{' then cs :: opened else if c = '}' then opened.tail else opened

/-- Every character but the brace that ends the text belongs to it, whatever it opens or closes. -/
theorem readBalanced_cons (opened : List (List Char)) (c : Char) (cs : List Char) :
    readBalanced opened (c :: cs) =
      if c = '}' ∧ opened = [] then .ok ([], c :: cs)
      else
        (readBalanced (openedBehind opened c cs) cs).map fun (text, rest) => (c :: text, rest) := by
  rw [readBalanced.eq_def]
  dsimp only
  by_cases hopen : c = '{'
  · simp [openedBehind, hopen]
  · by_cases hclose : c = '}'
    · cases opened <;> simp [openedBehind, hclose]
    · simp [openedBehind, hopen, hclose]

theorem readBalanced_cons_eq_ok {opened : List (List Char)} {c : Char} {cs text rest : List Char}
    (h : readBalanced opened (c :: cs) = .ok (text, rest)) :
    c = '}' ∧ opened = [] ∧ text = [] ∧ rest = c :: cs ∨
      ¬(c = '}' ∧ opened = []) ∧
        ∃ more, readBalanced (openedBehind opened c cs) cs = .ok (more, rest) ∧
          text = c :: more := by
  rw [readBalanced_cons] at h
  split at h
  next hstop =>
    cases h
    exact .inl ⟨hstop.1, hstop.2, rfl, rfl⟩
  next hgo =>
    obtain ⟨⟨more, left⟩, hmore, heq⟩ := Except.map_eq_ok_iff.1 h
    cases heq
    exact .inr ⟨hgo, more, hmore, rfl⟩

theorem readBalanced_append {opened : List (List Char)} {source text rest : List Char}
    (h : readBalanced opened source = .ok (text, rest)) : text ++ rest = source := by
  induction source generalizing opened text with
  | nil =>
    cases opened <;> simp_all [readBalanced]
  | cons c cs ih =>
    rcases readBalanced_cons_eq_ok h with ⟨-, -, rfl, rfl⟩ | ⟨-, more, hmore, rfl⟩
    · rfl
    · rw [List.cons_append, ih hmore]

theorem splits_of_close {field : Field} {read rest : List Char} {reading : Reading}
    (h : close field read rest = .ok reading) : reading.Splits (read ++ rest) := by
  unfold close at h
  split at h
  next => cases h; simp [Reading.Splits]
  next => cases h

theorem splits_of_readTabStop {digits rest : List Char} {reading : Reading}
    (h : readTabStop digits rest = .ok reading) :
    reading.Splits ('$' :: '{' :: (digits ++ rest)) := by
  simp only [readTabStop] at h
  split at h
  next =>
    split at h
    next hname =>
      simpa [← readBalanced_append hname] using splits_of_close h
    next => cases h
  next => simpa using splits_of_close h

theorem splits_of_readReference {body : List Char} {reading : Reading}
    (h : readReference body = .ok reading) : reading.Splits ('$' :: '{' :: body) := by
  unfold readReference at h
  split at h
  next =>
    split at h
    next hname => simpa [← readBalanced_append hname] using splits_of_close h
    next => cases h
  next => simpa using splits_of_close h

/-- A field is split off the source. -/
theorem splits_of_read {body : List Char} {reading : Reading} (h : read body = .ok reading) :
    reading.Splits ('$' :: '{' :: body) := by
  simp only [read] at h
  split at h
  next => exact splits_of_readReference h
  next =>
    simpa [List.takeWhile_append_dropWhile] using splits_of_readTabStop h

end Shorthand.Field
