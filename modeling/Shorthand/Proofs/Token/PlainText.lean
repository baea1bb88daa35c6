import Mathlib.Data.List.TakeWhile
import Shorthand.Count
import Shorthand.Proofs.Text.Runs
import Shorthand.Proofs.Token.BracedText
import Shorthand.Proofs.Token.Yields
import Shorthand.Token.Printer

/-!
# Plain text between delimiters

Between braces and between quotation marks, text without dollar signs, backslashes and delimiters
has no meaning of its own, but it is not one token either. White space and stars with digits behind
them are split off at its beginning; from the first character that is neither on, the text is one
literal. When the tokens are written back, everything comes out as it was, except for the digits
behind a star: these are read as a count and written in its normal form.

## Main definitions

* `Count.Normal`: digits as a count is written;
* `Kept`: what becomes of a text when its tokens are written back;
* `Regular`: a text of which all counts that are split off are in their normal form;
* `Literal.Inside`: characters that are plain between delimiters.

## Main results

* `Kept.eq_iff`: just the regular texts come out as they are;
* `Token.exists_yields_kept`: the tokens that a text between delimiters yields.
-/

namespace Shorthand

open Text (isDigit isSpace)

/-! ## Digits -/

/-- The digits behind a star, read as a count and written back. Without digits there is no count. -/
def Count.rewrite (digits : List Char) : List Char :=
  if digits.isEmpty then [] else Count.digits (Count.ofDigits digits)

/-- There are no digits, or they are those with which a count is written: no zero is in front
without need, and the number is not too great. -/
def Count.Normal (digits : List Char) : Prop :=
  digits = [] ∨ ∃ n ≤ greatest, digits = Nat.toDigits 10 n

/-- Digits are written back as they are just if they are in their normal form. -/
theorem Count.rewrite_eq_iff {digits : List Char} :
    Count.rewrite digits = digits ↔ Count.Normal digits := by
  unfold Count.rewrite
  constructor
  · intro heq
    split at heq
    next hempty => exact .inl (List.isEmpty_iff.1 hempty)
    next => exact .inr ⟨Count.ofDigits digits, Count.saturate_le _, heq.symm⟩
  · rintro (rfl | ⟨n, hn, rfl⟩)
    · rfl
    · rw [if_neg (by simp)]
      exact congrArg Count.digits (Count.ofDigits_digits hn)

theorem Count.isDigit_of_mem_rewrite {digits : List Char} :
    ∀ c ∈ Count.rewrite digits, isDigit c = true := by
  unfold Count.rewrite
  split
  next => exact List.forall_mem_nil _
  next => exact fun c hmem => Nat.isDigit_of_mem_toDigits (by decide) (by decide) hmem

/-! ## Texts that are written back -/

/-- What becomes of a text when the tokens into which it is split are written back. -/
inductive Kept : List Char → List Char → Prop
  | nil : Kept [] []
  | blank {c : Char} {text shown : List Char} (hspace : isSpace c = true) (h : Kept text shown) :
      Kept (c :: text) (c :: shown)
  | repeater {text shown : List Char} (h : Kept (text.dropWhile isDigit) shown) :
      Kept ('*' :: text) ('*' :: (Count.rewrite (text.takeWhile isDigit) ++ shown))
  /-- From the first character on that is neither white space nor a star, nothing changes. -/
  | rest {c : Char} (hspace : isSpace c = false) (hstar : c ≠ '*') (text : List Char) :
      Kept (c :: text) (c :: text)

/-- All counts at the beginning of the text are written in their normal form, up to the first
character that is neither white space nor belongs to a star. -/
inductive Regular : List Char → Prop
  | nil : Regular []
  | blank {c : Char} {text : List Char} (hspace : isSpace c = true) (h : Regular text) :
      Regular (c :: text)
  | repeater {text : List Char} (hdigits : Count.Normal (text.takeWhile isDigit))
      (h : Regular (text.dropWhile isDigit)) : Regular ('*' :: text)
  | rest {c : Char} (hspace : isSpace c = false) (hstar : c ≠ '*') (text : List Char) :
      Regular (c :: text)

/-- The first character stays. -/
theorem Kept.head?_eq {text shown : List Char} (h : Kept text shown) :
    shown.head? = text.head? := by
  cases h with
  | nil => rfl
  | blank => rfl
  | repeater => rfl
  | rest => rfl

/-- White space stays. -/
theorem Kept.append_blank {spaces text shown : List Char} (h : Kept text shown)
    (hspaces : ∀ c ∈ spaces, isSpace c = true) : Kept (spaces ++ text) (spaces ++ shown) := by
  induction spaces with
  | nil => exact h
  | cons c spaces ih =>
    obtain ⟨hc, hspaces⟩ := List.forall_mem_cons.1 hspaces
    exact .blank hc (ih hspaces)

/-- Just the regular texts come out as they are. -/
theorem Kept.eq_iff {text shown : List Char} (h : Kept text shown) :
    shown = text ↔ Regular text := by
  -- Up to the first other character, white space and counts are taken one by one on both sides.
  induction h with
  | nil => exact ⟨fun _ => .nil, fun _ => rfl⟩
  | @blank c text shown hspace h ih =>
    rw [List.cons_inj_right, ih]
    refine ⟨.blank hspace, fun hregular => ?_⟩
    cases hregular with
    | blank _ h => exact h
    | repeater => cases hspace
    | rest hother => exact absurd hspace (by simp [hother])
  | @repeater text shown h ih =>
    -- Behind the digits comes no further one, neither before nor after they are written back.
    have hstop : shown.takeWhile isDigit = [] := by
      cases hshown : shown with
      | nil => rfl
      | cons c more =>
        have hhead : (text.dropWhile isDigit).head? = some c := by
          rw [← h.head?_eq, hshown]
          rfl
        have hc := List.head?_dropWhile_not isDigit text
        rw [hhead] at hc
        exact List.takeWhile_cons_of_neg (Bool.not_eq_true _ ▸ hc)
    have hsplit := List.takeWhile_append_dropWhile (p := isDigit) (l := text)
    rw [List.cons_inj_right]
    constructor
    · intro heq
      have hdigits : Count.rewrite (text.takeWhile isDigit) = text.takeWhile isDigit := by
        conv => rhs; rw [← heq]
        rw [List.takeWhile_append_of_pos Count.isDigit_of_mem_rewrite, hstop, List.append_nil]
      refine .repeater (Count.rewrite_eq_iff.1 hdigits) (ih.1 ?_)
      rw [hdigits] at heq
      exact List.append_cancel_left (heq.trans hsplit.symm)
    · intro hregular
      cases hregular with
      | blank hspace => cases hspace
      | repeater hdigits hmore => rw [Count.rewrite_eq_iff.2 hdigits, ih.2 hmore, hsplit]
      | rest _ hstar => exact absurd rfl hstar
  | rest hspace hstar => exact ⟨fun _ => .rest hspace hstar _, fun _ => rfl⟩

/-! ## Literals -/

namespace Literal

variable {context : Context} {text rest : List Char}

/-- The character is plain inside the delimiters that are open, and counts as no brace. -/
structure Inside (context : Context) (c : Char) : Prop where
  escape : c ≠ '\\'
  ends : endsBefore context 0 c = false
  braces : countBraces context 0 c = 0

/-- Plain text ends at a dollar sign, whatever is open. -/
theorem Inside.ne_dollar {c : Char} (h : Inside context c) : c ≠ '$' := by
  rintro rfl
  have hends := h.ends
  simp [endsBefore] at hends

/-- Such characters are one run of plain text. -/
theorem plain_of_inside (htext : ∀ c ∈ text, Inside context c) (hstops : Stops context rest) :
    Plain context text text rest := by
  induction text with
  | nil => exact hstops
  | cons c text ih =>
    obtain ⟨hc, htext⟩ := List.forall_mem_cons.1 htext
    intro before
    rw [List.cons_append, run_eq_keep hc.escape hc.ends, hc.braces, ih htext]
    rfl

/-- Inside a braced text, these are all characters but the dollar sign, the backslash and braces. -/
theorem inside_braces {c : Char} (h : c ∉ ['$', '\\', '{', '}']) : Inside { braces := 1 } c := by
  simp only [List.mem_cons, List.not_mem_nil, or_false, not_or] at h
  obtain ⟨hdollar, hescape, hopen, hclose⟩ := h
  refine ⟨hescape, ?_, by simp [countBraces, hopen, hclose]⟩
  rw [endsBefore_of_braces rfl (Nat.succ_ne_zero 0)]
  simp [hdollar, hclose]

/-- Inside a quoted value, these are all characters but the dollar sign, the backslash and the
quotation mark. -/
theorem inside_quotes {c : Char} (h : c ∉ ['$', '\\', '"']) :
    Inside { sets := 1, quote := some .double } c := by
  simp only [List.mem_cons, List.not_mem_nil, or_false, not_or] at h
  obtain ⟨hdollar, hescape, hquote⟩ := h
  have hoperator : Context.allowsOperator { sets := 1, quote := some .double } c = false := by
    unfold Context.allowsOperator
    split
    next => rfl
    next => rfl
  have hmark : (QuoteMark.double.glyph == c) = false := beq_false_of_ne (Ne.symm hquote)
  refine ⟨hescape, ?_, rfl⟩
  simp [endsBefore, hoperator, hmark, hdollar]

end Literal

/-! ## Tokens -/

namespace Token

/-- Whether a token of this kind is written back as the same text wherever it stands. -/
def Kind.isFixed : Kind → Bool
  | .literal _ | .blank _ | .repeater _ => true
  | _ => false

/-- What is fixed differs from what is not. -/
theorem Kind.ne_of_isFixed {kind other : Kind} (h : kind.isFixed = true)
    (hother : other.isFixed = false) : kind ≠ other := by
  rintro rfl
  exact Bool.false_ne_true (hother.symm.trans h)

/-- The characters of tokens that are written back one behind the other. -/
def Kind.chars (kinds : List Kind) : List Char :=
  kinds.flatMap fun kind => kind.text.toList

variable {context : Context} {rest : List Char}

/-- A star and the digits behind it are written back as a star and the digits of the count. -/
theorem text_repeater (source : List Char) : (Atom.repeater source).kind.text.toList =
    '*' :: Count.rewrite (source.takeWhile isDigit) := by
  unfold Atom.repeater Kind.text Repeater.text Count.rewrite
  dsimp only
  split
  next => rfl
  next => simp [Count.text]

/-- White space at the beginning of a text is one token. -/
theorem yields_blank {c : Char} {cs : List Char} (hspace : isSpace c = true)
    (hrest : ∀ c ∈ rest.head?, isSpace c = false) : Yields context (c :: cs ++ rest)
      [.blank (String.ofList ((c :: cs).takeWhile isSpace))] context
      ((c :: cs).dropWhile isSpace ++ rest) := by
  obtain ⟨htake, hdrop⟩ := Text.takeWhile_append_of_stop hrest (c :: cs)
  have hdollar : c ≠ '$' := by
    rintro rfl
    exact absurd hspace (by decide)
  have hstar : c ≠ '*' := by
    rintro rfl
    exact absurd hspace (by decide)
  have hatom : Atom.read? c (cs ++ rest) = some (Atom.blank (c :: cs ++ rest)) := by
    unfold Atom.read?
    rw [if_neg hdollar, if_neg hstar, if_pos hspace]
    rfl
  rw [← htake, ← hdrop]
  exact yields_of_readNext (Atom.blank (c :: cs ++ rest)) fun before =>
    readNext_eq_atom (fun h => absurd h hdollar) hatom

/-- A star with the digits behind it is one token. -/
theorem yields_repeater {cs : List Char} (hrest : ∀ c ∈ rest.head?, isDigit c = false) :
    Yields context ('*' :: cs ++ rest) [(Atom.repeater cs).kind] context
      (cs.dropWhile isDigit ++ rest) := by
  obtain ⟨htake, hdrop⟩ := Text.takeWhile_append_of_stop hrest cs
  have hkind : (Atom.repeater (cs ++ rest)).kind = (Atom.repeater cs).kind := by
    unfold Atom.repeater
    dsimp only
    rw [htake]
  have hatom : Atom.read? '*' (cs ++ rest) = some (Atom.repeater (cs ++ rest)) := rfl
  rw [← hkind, ← hdrop]
  exact yields_of_readNext (Atom.repeater (cs ++ rest)) fun before =>
    readNext_eq_atom (fun h => absurd h (by decide)) hatom

/-- A text between delimiters yields tokens that are fixed, and they are written back as what is
kept of it. -/
theorem exists_yields_kept {text : List Char}
    (htext : ∀ c ∈ text, Literal.Inside context c) (hstops : Literal.Stops context rest)
    (hspace : ∀ c ∈ rest.head?, isSpace c = false) (hdigit : ∀ c ∈ rest.head?, isDigit c = false) :
    ∃ kinds, Yields context (text ++ rest) kinds context rest ∧
      (∀ kind ∈ kinds, kind.isFixed = true) ∧ Kept text (Kind.chars kinds) := by
  -- Behind white space and behind a count there is less of the text left.
  induction hlength : text.length using Nat.strong_induction_on generalizing text with
  | _ length ih =>
    subst hlength
    cases text with
    | nil => exact ⟨[], .nil context rest, List.forall_mem_nil _, .nil⟩
    | cons c cs =>
      have hleft {left : List Char} (hsuffix : left <:+ cs) :=
        ih left.length (Nat.lt_succ_of_le hsuffix.length_le)
          (fun d hd => htext d (List.mem_cons_of_mem c (hsuffix.subset hd))) rfl
      by_cases hblank : isSpace c = true
      · have hcons : (c :: cs).dropWhile isSpace = cs.dropWhile isSpace :=
          List.dropWhile_cons_of_pos hblank
        obtain ⟨kinds, hyields, hfixed, hkept⟩ := hleft (List.dropWhile_suffix isSpace)
        rw [← hcons] at hyields hkept
        refine ⟨_ :: kinds, (yields_blank hblank hspace).cons hyields,
          List.forall_mem_cons.2 ⟨rfl, hfixed⟩, ?_⟩
        have hspaces : ∀ d ∈ (c :: cs).takeWhile isSpace, isSpace d = true :=
          fun _ hmem => List.mem_takeWhile_imp hmem
        have hblanks := hkept.append_blank hspaces
        rw [List.takeWhile_append_dropWhile] at hblanks
        simpa [Kind.chars, Kind.text] using hblanks
      · by_cases hstar : c = '*'
        · subst hstar
          obtain ⟨kinds, hyields, hfixed, hkept⟩ := hleft (List.dropWhile_suffix isDigit)
          refine ⟨_ :: kinds, (yields_repeater hdigit).cons hyields,
            List.forall_mem_cons.2 ⟨rfl, hfixed⟩, ?_⟩
          rw [Kind.chars, List.flatMap_cons, text_repeater, List.cons_append]
          exact .repeater hkept
        -- Everything from here on is plain.
        · have hplain := Literal.plain_of_inside htext hstops
          have hspace : isSpace c = false := Bool.not_eq_true _ ▸ hblank
          have hdollar := (htext c List.mem_cons_self).ne_dollar
          refine ⟨_, yields_literal hplain rfl hdollar hstar hspace,
            List.forall_mem_singleton.2 rfl, ?_⟩
          simpa [Kind.chars, Kind.text] using Kept.rest hspace hstar cs

end Token

end Shorthand
