import Mathlib.Computability.Language
import Shorthand.Link

/-!
# Patterns of link targets

What counts as an address can be written down with three patterns: one for addresses, one for
e-mail addresses, and one for the schemes with which an address may begin. A pattern is a language,
and a text fits it if it is one of its words.

Which characters are word characters is left open here. All that matters is that ASCII letters are,
since the schemes consist of them, and that the full stop is not, since it ends the beginnings of
the addresses that lack a scheme.

## Main definitions

* `Pattern.address`, `Pattern.email`, `Pattern.scheme`: the three patterns;
* `Pattern.target`: the target of a link, decided by them.

## Main results

* `Pattern.mem_address_iff`: an address begins in one of seven ways and holds no space;
* `Pattern.mem_email_iff`: what an e-mail address is made of;
* `Pattern.exists_scheme_of_isComplete`, `Pattern.not_exists_scheme_of_lacksScheme`: five of the
  beginnings need no scheme, and two do.
-/

namespace Shorthand.Link

open scoped Computability

/-! ## Shapes -/

/-- A letter from `a` to `z` in either case, or one of the two characters beyond ASCII that have
such a letter as their other case. -/
def IsLetter (c : Char) : Prop :=
  ('a' ≤ c ∧ c ≤ 'z') ∨ ('A' ≤ c ∧ c ≤ 'Z') ∨ c = '\u017f' ∨ c = '\u212a'

/-- A character before the at sign. -/
def IsUserChar (c : Char) : Prop :=
  IsLetter c ∨ ('0' ≤ c ∧ c ≤ '9') ∨ c ∈ ['.', '_', '%', '+', '-']

/-- A character of a domain. -/
def IsHostChar (c : Char) : Prop :=
  IsLetter c ∨ ('0' ≤ c ∧ c ≤ '9') ∨ c ∈ ['.', '-']

/-- A text that begins in one of several ways and goes on without a space. -/
def Begins (starts : List String) (text : List Char) : Prop :=
  ∃ start ∈ starts, ∃ rest, text = start.toList ++ rest ∧ ' ' ∉ rest

/-- An address that is complete. -/
def IsComplete : List Char → Prop :=
  Begins ["http://", "https://", "ftp://", "file://", "//"]

/-- An address that lacks its scheme. -/
def LacksScheme : List Char → Prop :=
  Begins ["www.", "ftp."]

/-- A text that splits into the parts of an e-mail address. -/
def IsMail (text : List Char) : Prop :=
  ∃ user domain top, text = user ++ '@' :: (domain ++ '.' :: top) ∧
    (user ≠ [] ∧ ∀ c ∈ user, IsUserChar c) ∧ (domain ≠ [] ∧ ∀ c ∈ domain, IsHostChar c) ∧
      2 ≤ top.length ∧ top.length ≤ 5 ∧ ∀ c ∈ top, IsLetter c

/-! ## Languages -/

namespace Pattern

/-- A single character of a class. -/
def anyOf (p : Char → Prop) : Language Char :=
  {text | ∃ c, p c ∧ text = [c]}

/-- A fixed text. -/
def text (s : String) : Language Char :=
  {s.toList}

/-- One or more words, one behind the other. -/
def oneOrMore (l : Language Char) : Language Char :=
  l * l∗

/-- The beginnings of addresses: `(https?:|ftp:|file:)?//|(www|ftp)\.` -/
def beginning : Language Char :=
  (1 + (text "http" * (1 + text "s") * text ":" + text "ftp:" + text "file:")) * text "//" +
    (text "www" + text "ftp") * text "."

/-- The addresses: a beginning, and `[^ ]*` behind it. -/
def address : Language Char :=
  beginning * (anyOf (· ≠ ' '))∗

/-- The e-mail addresses: `[a-z0-9._%+-]+@[a-z0-9.-]+\.[a-z]{2,5}`, in any case -/
def email : Language Char :=
  oneOrMore (anyOf IsUserChar) * text "@" * oneOrMore (anyOf IsHostChar) * text "." *
    (anyOf IsLetter ^ 2 + anyOf IsLetter ^ 3 + anyOf IsLetter ^ 4 + anyOf IsLetter ^ 5)

/-- The schemes: `\w+:` -/
def scheme (isWord : Char → Prop) : Language Char :=
  oneOrMore (anyOf isWord) * text ":"

open Classical in
/-- The target of a link that wraps `text`, which has no blanks around it. -/
noncomputable def target (isWord : Char → Prop) (u : List Char) : List Char :=
  if u ∈ address then
    if (∃ start ∈ scheme isWord, start <+: u) ∨ "//".toList <+: u then u
    else "http://".toList ++ u
  else if u ∈ email then "mailto:".toList ++ u
  else []

variable {u : List Char} {p isWord : Char → Prop}

theorem mem_text_iff {s : String} : u ∈ text s ↔ u = s.toList :=
  Iff.rfl

/-- A text fits a repeated class if all of its characters belong to the class. -/
theorem mem_kstar_anyOf_iff : u ∈ (anyOf p)∗ ↔ ∀ c ∈ u, p c := by
  rw [Language.mem_kstar]
  constructor
  · rintro ⟨words, rfl, hwords⟩ c hc
    obtain ⟨word, hword, hc⟩ := List.mem_flatten.1 hc
    obtain ⟨d, hd, rfl⟩ := hwords word hword
    rwa [List.mem_singleton.1 hc]
  · intro h
    have hflatten : (u.map fun c => [c]).flatten = u := by
      rw [← List.flatMap_def, List.flatMap_singleton']
    refine ⟨u.map fun c => [c], hflatten.symm, fun word hword => ?_⟩
    obtain ⟨c, hc, rfl⟩ := List.mem_map.1 hword
    exact ⟨c, h c hc, rfl⟩

theorem mem_oneOrMore_anyOf_iff : u ∈ oneOrMore (anyOf p) ↔ u ≠ [] ∧ ∀ c ∈ u, p c := by
  rw [oneOrMore, Language.mem_mul]
  constructor
  · rintro ⟨_, ⟨c, hc, rfl⟩, rest, hrest, rfl⟩
    exact ⟨nofun, List.forall_mem_cons.2 ⟨hc, mem_kstar_anyOf_iff.1 hrest⟩⟩
  · rintro ⟨hne, h⟩
    cases u with
    | nil => exact absurd rfl hne
    | cons c cs =>
      obtain ⟨hc, hcs⟩ := List.forall_mem_cons.1 h
      exact ⟨[c], ⟨c, hc, rfl⟩, cs, mem_kstar_anyOf_iff.2 hcs, rfl⟩

/-- A text fits a class that is repeated a number of times if it has that many characters, all of
the class. -/
theorem mem_pow_anyOf_iff {n : Nat} : u ∈ anyOf p ^ n ↔ u.length = n ∧ ∀ c ∈ u, p c := by
  induction n generalizing u with
  | zero =>
    rw [pow_zero, Language.mem_one, List.length_eq_zero_iff]
    exact ⟨fun h => ⟨h, by simp [h]⟩, And.left⟩
  | succ n ih =>
    rw [pow_succ', Language.mem_mul]
    constructor
    · rintro ⟨_, ⟨c, hc, rfl⟩, rest, hrest, rfl⟩
      obtain ⟨hlength, hrest⟩ := ih.1 hrest
      exact ⟨congrArg (· + 1) hlength, List.forall_mem_cons.2 ⟨hc, hrest⟩⟩
    · rintro ⟨hlength, h⟩
      cases u with
      | nil => cases hlength
      | cons c cs =>
        obtain ⟨hc, hcs⟩ := List.forall_mem_cons.1 h
        exact ⟨[c], ⟨c, hc, rfl⟩, cs, ih.2 ⟨by simpa using hlength, hcs⟩, rfl⟩

/-- One fixed text behind another is a fixed text. -/
theorem text_mul_text (s t : String) : text s * text t = text (s ++ t) := by
  refine Language.ext fun u => ?_
  rw [Language.mem_mul, mem_text_iff, String.toList_append]
  constructor
  · rintro ⟨_, rfl, _, rfl, rfl⟩
    rfl
  · rintro rfl
    exact ⟨_, rfl, _, rfl, rfl⟩

/-- There are seven beginnings. -/
theorem mem_beginning_iff : u ∈ beginning ↔
    (∃ start ∈ ["http://", "https://", "ftp://", "file://", "//"], u = start.toList) ∨
      ∃ start ∈ ["www.", "ftp."], u = start.toList := by
  have heq : beginning = text "//" + (text "http://" + text "https://" + text "ftp://" +
      text "file://") + (text "www." + text "ftp.") := by
    simp only [beginning, add_mul, mul_add, one_mul, mul_one, text_mul_text]
    rfl
  rw [heq]
  simp only [Language.mem_add, mem_text_iff, List.mem_cons, List.not_mem_nil, or_false,
    exists_eq_or_imp, exists_eq_left]
  grind

/-- An address is complete or lacks its scheme. -/
theorem mem_address_iff : u ∈ address ↔ IsComplete u ∨ LacksScheme u := by
  have hrest (rest : List Char) : rest ∈ (anyOf (· ≠ ' '))∗ ↔ ' ' ∉ rest := by
    rw [mem_kstar_anyOf_iff]
    exact ⟨fun h hmem => h _ hmem rfl, fun h c hc heq => h (heq ▸ hc)⟩
  rw [address, Language.mem_mul]
  constructor
  · rintro ⟨beginning, hbeginning, rest, hspace, rfl⟩
    rw [hrest] at hspace
    rcases mem_beginning_iff.1 hbeginning with ⟨start, hstart, rfl⟩ | ⟨start, hstart, rfl⟩
    · exact .inl ⟨start, hstart, rest, rfl, hspace⟩
    · exact .inr ⟨start, hstart, rest, rfl, hspace⟩
  · rintro (⟨start, hstart, rest, rfl, hspace⟩ | ⟨start, hstart, rest, rfl, hspace⟩)
    · exact ⟨_, mem_beginning_iff.2 (.inl ⟨start, hstart, rfl⟩), rest, (hrest rest).2 hspace, rfl⟩
    · exact ⟨_, mem_beginning_iff.2 (.inr ⟨start, hstart, rfl⟩), rest, (hrest rest).2 hspace, rfl⟩

/-- An e-mail address has three parts. -/
theorem mem_email_iff : u ∈ email ↔ IsMail u := by
  have htop (top : List Char) : top ∈ anyOf IsLetter ^ 2 + anyOf IsLetter ^ 3 + anyOf IsLetter ^ 4 +
      anyOf IsLetter ^ 5 ↔ 2 ≤ top.length ∧ top.length ≤ 5 ∧ ∀ c ∈ top, IsLetter c := by
    simp only [Language.mem_add, mem_pow_anyOf_iff, ← or_and_right, ← and_assoc]
    exact and_congr_left fun _ => by omega
  simp only [email, Language.mem_mul, mem_oneOrMore_anyOf_iff, htop, mem_text_iff]
  constructor
  · rintro ⟨_, ⟨_, ⟨_, ⟨user, huser, _, rfl, rfl⟩, domain, hdomain, rfl⟩, _, rfl, rfl⟩, top, htop,
      rfl⟩
    exact ⟨user, domain, top, by simp, huser, hdomain, htop⟩
  · rintro ⟨user, domain, top, rfl, huser, hdomain, htop⟩
    exact ⟨_, ⟨_, ⟨_, ⟨user, huser, _, rfl, rfl⟩, domain, hdomain, rfl⟩, _, rfl, rfl⟩, top, htop,
      by simp⟩

/-! ## Schemes -/

theorem mem_scheme_iff : u ∈ scheme isWord ↔
    ∃ name, (name ≠ [] ∧ ∀ c ∈ name, isWord c) ∧ u = name ++ [':'] := by
  simp only [scheme, Language.mem_mul, mem_oneOrMore_anyOf_iff, mem_text_iff]
  constructor
  · rintro ⟨name, hname, _, rfl, rfl⟩
    exact ⟨name, hname, rfl⟩
  · rintro ⟨name, hname, rfl⟩
    exact ⟨name, hname, _, rfl, rfl⟩

/-- The complete beginnings have letters up to a colon, or they are two slashes. -/
theorem exists_scheme_of_isComplete (hletter : ∀ c, c.isAlpha = true → isWord c)
    (h : IsComplete u) : (∃ start ∈ scheme isWord, start <+: u) ∨ "//".toList <+: u := by
  obtain ⟨start, hstart, rest, rfl, -⟩ := h
  have hscheme (name : List Char) (hne : name ≠ []) (halpha : name.all Char.isAlpha = true)
      (hsplit : start.toList = name ++ [':', '/', '/']) :
      ∃ start' ∈ scheme isWord, start' <+: start.toList ++ rest := by
    refine ⟨name ++ [':'], mem_scheme_iff.2 ⟨name, ⟨hne, fun c hc => ?_⟩, rfl⟩, ?_⟩
    · exact hletter c (List.all_eq_true.1 halpha c hc)
    · exact ⟨['/', '/'] ++ rest, by simp [hsplit]⟩
  simp only [List.mem_cons, List.not_mem_nil, or_false] at hstart
  rcases hstart with rfl | rfl | rfl | rfl | rfl
  · exact .inl (hscheme ['h', 't', 't', 'p'] nofun (by decide) rfl)
  · exact .inl (hscheme ['h', 't', 't', 'p', 's'] nofun (by decide) rfl)
  · exact .inl (hscheme ['f', 't', 'p'] nofun (by decide) rfl)
  · exact .inl (hscheme ['f', 'i', 'l', 'e'] nofun (by decide) rfl)
  · exact .inr ⟨rest, rfl⟩

/-- In a text that begins with `host` and a full stop, no word is followed by a colon. -/
theorem not_scheme_isPrefix (host : List Char) {rest : List Char} (hcolon : ':' ∉ host)
    (hstop : ¬ isWord '.') :
    ¬ ∃ start ∈ scheme isWord, start <+: host ++ '.' :: rest := by
  rintro ⟨start, hstart, more, hmore⟩
  obtain ⟨name, ⟨-, hname⟩, rfl⟩ := mem_scheme_iff.1 hstart
  rw [List.append_assoc, List.singleton_append, List.append_eq_append_iff] at hmore
  -- Either the colon or the full stop comes first, and then it belongs to the other's word.
  rcases hmore with ⟨between, rfl, hbehind⟩ | ⟨between, rfl, hbehind⟩
  · cases between with
    | nil => cases hbehind
    | cons c between =>
      obtain ⟨rfl, -⟩ := List.cons.inj hbehind
      exact hcolon (by simp)
  · cases between with
    | nil => cases hbehind
    | cons c between =>
      obtain ⟨rfl, -⟩ := List.cons.inj hbehind
      exact hstop (hname '.' (by simp))

/-- An address that lacks its scheme does not begin with one. -/
theorem not_exists_scheme_of_lacksScheme (hstop : ¬ isWord '.') (h : LacksScheme u) :
    ¬ ((∃ start ∈ scheme isWord, start <+: u) ∨ "//".toList <+: u) := by
  obtain ⟨start, hstart, rest, rfl, -⟩ := h
  simp only [List.mem_cons, List.not_mem_nil, or_false] at hstart
  rw [not_or]
  rcases hstart with rfl | rfl
  · exact ⟨not_scheme_isPrefix ['w', 'w', 'w'] (by decide) hstop, nofun⟩
  · exact ⟨not_scheme_isPrefix ['f', 't', 'p'] (by decide) hstop, nofun⟩

end Pattern

end Shorthand.Link
