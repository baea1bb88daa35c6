import Mathlib.Data.List.TakeWhile
import Shorthand.Proofs.Token.Next
import Shorthand.Proofs.Token.Progress

/-!
# The end of a braced text

Where a braced text ends. Braces that are opened inside it belong to it together with those that
close them, but only up to the next dollar sign: a dollar sign ends the literal in which they were
counted, and the literal behind it starts to count anew. So the text ends at the first brace that
closes none of those opened since the last dollar sign.

## Main definitions

* `splitText`: a source, split before the brace that ends the text at its beginning.

## Main results

* `exists_run_of_splitText`: inside braces, the tokens up to that brace are no brackets.
-/

namespace Shorthand

open Text (isDigit isSpace)

/-! ## Splitting off a text -/

/-- There are no braces among the characters. -/
def NoBraces (cs : List Char) : Prop :=
  ∀ c ∈ cs, c ≠ '{' ∧ c ≠ '}'

/-- How many braces are open behind the character `c` of those opened since the last dollar
sign. -/
def openAfter (opened : Nat) (c : Char) : Nat :=
  if c = '$' then 0 else if c = '{' then opened + 1 else if c = '}' then opened - 1 else opened

/-- The text with which a source begins, and the source from the brace on that ends the text. Of
the braces opened since the last dollar sign, `opened` are still open. -/
def splitText (opened : Nat) : List Char → List Char × List Char
  | [] => ([], [])
  | c :: cs =>
    if c = '}' ∧ opened = 0 then ([], c :: cs)
    else
      let (text, rest) := splitText (openAfter opened c) cs
      (c :: text, rest)

theorem splitText_cons_of_ne {opened : Nat} {c : Char} (cs : List Char)
    (h : ¬(c = '}' ∧ opened = 0)) :
    splitText opened (c :: cs) =
      (c :: (splitText (openAfter opened c) cs).1, (splitText (openAfter opened c) cs).2) := by
  rw [splitText, if_neg h]

/-- A text and what follows it are the source. -/
theorem splitText_append (opened : Nat) (source : List Char) :
    (splitText opened source).1 ++ (splitText opened source).2 = source := by
  induction source generalizing opened with
  | nil => rfl
  | cons c cs ih =>
    by_cases h : c = '}' ∧ opened = 0
    · rw [splitText, if_pos h]
      rfl
    · rw [splitText_cons_of_ne cs h]
      simp [ih]

/-- Characters that are no braces belong to the text. -/
theorem splitText_append_of_noBraces {text : List Char} (h : NoBraces text)
    (rest : List Char) :
    splitText 0 (text ++ rest) = (text ++ (splitText 0 rest).1, (splitText 0 rest).2) := by
  induction text with
  | nil => rfl
  | cons c text ih =>
    obtain ⟨⟨hopen, hclose⟩, htext⟩ := List.forall_mem_cons.1 h
    have hafter : openAfter 0 c = 0 := by simp [openAfter, hopen, hclose]
    rw [List.cons_append, splitText_cons_of_ne _ (by simp [hclose]), hafter, ih htext]
    rfl

/-- At a dollar sign the open braces are forgotten. -/
theorem splitText_dollar (opened : Nat) (cs : List Char) :
    splitText opened ('$' :: cs) = splitText 0 ('$' :: cs) := by
  rw [splitText_cons_of_ne cs (by simp), splitText_cons_of_ne cs (by simp)]
  rfl

/-! ## Plain text inside braces -/

namespace Literal

variable {context : Context}

/-- Inside braces, plain text ends before a dollar sign and before a brace that closes more than
was opened in it. -/
theorem endsBefore_of_braces (hquote : context.quote = none) (hbraces : context.braces ≠ 0)
    (opened : Nat) (c : Char) :
    endsBefore context opened c = (c == '$' || c == '}' && opened == 0) := by
  have hop : context.allowsOperator c = false := by
    unfold Context.allowsOperator
    split <;> simp [hbraces]
  simp [endsBefore, hquote, hbraces, hop]

/-- Inside braces, no slash is a fraction. -/
theorem isFraction_of_braces (hbraces : context.braces ≠ 0) (before : Option Char) (c : Char)
    (cs : List Char) : isFraction context before c cs = false := by
  simp [isFraction, Context.isBare, hbraces]

/-- Inside braces, a run of plain text is the beginning of the text, and behind it no brace counts
that was opened in it. -/
theorem splitText_run (hquote : context.quote = none) (hbraces : context.braces ≠ 0)
    {source : List Char} (hescape : '\\' ∉ source) (before : Option Char) (opened : Nat) :
    splitText opened source =
      ((run context before opened source).text ++
          (splitText 0 (run context before opened source).rest).1,
        (splitText 0 (run context before opened source).rest).2) := by
  induction source generalizing before opened with
  | nil => rfl
  | cons c cs ih =>
    have hc : c ≠ '\\' := fun h => hescape (h ▸ List.mem_cons_self)
    have hcs : '\\' ∉ cs := fun h => hescape (List.mem_cons_of_mem _ h)
    have hends := endsBefore_of_braces hquote hbraces opened c
    cases hend : endsBefore context opened c with
    | true =>
      -- The run stops at a dollar sign, where the count starts anew anyway, or at the end of the
      -- text.
      rw [run_eq_stop hc (isFraction_of_braces hbraces before c cs) hend]
      simp only [hend, Bool.true_eq, Bool.or_eq_true, Bool.and_eq_true, beq_iff_eq] at hends
      rcases hends with rfl | ⟨-, rfl⟩
      · exact splitText_dollar opened cs
      · rfl
    | false =>
      simp only [hend, Bool.false_eq, Bool.or_eq_false_iff, beq_eq_false_iff_ne,
        Bool.and_eq_false_imp, beq_iff_eq] at hends
      -- Over a character that is no dollar sign, both sides count alike.
      have hcount : countBraces context opened c = openAfter opened c := by
        simp [countBraces, openAfter, hbraces, hends.1]
      have hgo : ¬(c = '}' ∧ opened = 0) := fun h => hends.2 h.1 h.2
      rw [run_eq_keep hc hend, hcount, splitText_cons_of_ne cs hgo, ih hcs (some c)]
      rfl

end Literal

/-! ## Atoms inside braces -/

theorem NoBraces.append {cs ds : List Char} (hcs : NoBraces cs) (hds : NoBraces ds) :
    NoBraces (cs ++ ds) :=
  List.forall_mem_append.2 ⟨hcs, hds⟩

theorem NoBraces.cons {c : Char} {cs : List Char} (hopen : c ≠ '{') (hclose : c ≠ '}')
    (hcs : NoBraces cs) : NoBraces (c :: cs) :=
  List.forall_mem_cons.2 ⟨⟨hopen, hclose⟩, hcs⟩

/-- Characters of a class that holds no braces are no braces. -/
theorem noBraces_of_forall {p : Char → Bool} (hopen : p '{' = false) (hclose : p '}' = false)
    {cs : List Char} (h : ∀ c ∈ cs, p c = true) : NoBraces cs := by
  intro c hmem
  have hc := h c hmem
  constructor
  · rintro rfl
    simp [hopen] at hc
  · rintro rfl
    simp [hclose] at hc

theorem noBraces_takeWhile {p : Char → Bool} (hopen : p '{' = false) (hclose : p '}' = false)
    (cs : List Char) : NoBraces (cs.takeWhile p) :=
  noBraces_of_forall hopen hclose fun _ => List.mem_takeWhile_imp

namespace Atom

theorem noBraces_modifiedNumbering {dollars : List Char} (h : NoBraces dollars)
    (rest : List Char) : NoBraces (modifiedNumbering dollars rest).text := by
  refine h.append (.cons (by decide) (by decide) (.append ?_ (.append ?_ ?_)))
  · exact noBraces_takeWhile (by decide) (by decide) _
  · exact noBraces_of_forall (p := (· == '-')) (by decide) (by decide)
      fun _ hmem => (List.mem_filter.1 hmem).2
  · exact noBraces_takeWhile (by decide) (by decide) _

/-- There are no braces in an atom. -/
theorem noBraces_of_read? {c : Char} {cs : List Char} {reading : Reading}
    (h : read? c cs = some reading) : NoBraces reading.text := by
  unfold read? at h
  split at h
  next =>
    split at h
    next =>
      cases h
      exact .cons (by decide) (by decide) (.cons (by decide) (by decide) (by simp [NoBraces]))
    next =>
      cases h
      have hdollars := noBraces_takeWhile (p := (· == '$')) (by decide) (by decide) (c :: cs)
      unfold numbering
      split
      next => exact noBraces_modifiedNumbering hdollars _
      next => exact hdollars
  next =>
    split at h
    next =>
      cases h
      exact .cons (by decide) (by decide) (noBraces_takeWhile (by decide) (by decide) _)
    next =>
      split at h
      next =>
        cases h
        exact noBraces_takeWhile (by decide) (by decide) _
      next => cases h

/-- An atom is no bracket, nor does it change what is open. -/
theorem kind_of_read? {c : Char} {cs : List Char} {reading : Reading}
    (h : read? c cs = some reading) (context : Context) :
    (∀ bracket opening, reading.kind ≠ .bracket bracket opening) ∧
      context.after reading.kind = context := by
  unfold read? at h
  split at h
  next =>
    split at h
    next =>
      cases h
      exact ⟨by simp, rfl⟩
    next =>
      cases h
      unfold numbering
      split <;> exact ⟨by simp [modifiedNumbering], rfl⟩
  next =>
    split at h
    next =>
      cases h
      exact ⟨by simp [repeater], rfl⟩
    next =>
      split at h
      next =>
        cases h
        exact ⟨by simp [blank], rfl⟩
      next => cases h

/-- An atom begins with a dollar sign, a star or white space. -/
theorem exists_read?_of_isSpace {c : Char} (h : c = '$' ∨ c = '*' ∨ isSpace c = true)
    (cs : List Char) : ∃ reading, read? c cs = some reading := by
  unfold read?
  split
  next =>
    split
    next => exact ⟨_, rfl⟩
    next => exact ⟨_, rfl⟩
  next hdollar =>
    split
    next => exact ⟨_, rfl⟩
    next hstar => exact ⟨_, if_pos (by simpa [hdollar, hstar] using h)⟩

end Atom

/-! ## Reading a braced text -/

namespace Token

variable {context : Context}

/-- One round inside braces: the token that is read is no bracket, is part of the text, and leaves
the rest of the text behind it. -/
theorem exists_readNext_of_splitText (before : Option Char) (hquote : context.quote = none)
    (hbraces : context.braces ≠ 0) {c : Char} {cs text after : List Char}
    (hescape : '\\' ∉ c :: cs) (hfield : ¬['$', '{'] <:+: c :: cs)
    (hsplit : splitText 0 (c :: cs) = (c :: text, after)) :
    ∃ reading next more, readNext context before c cs = .ok (reading, next) ∧
      c :: text = reading.text ++ more ∧ splitText 0 reading.rest = (more, after) ∧
      next.quote = none ∧ next.braces ≠ 0 ∧
      ∀ bracket opening, reading.kind ≠ .bracket bracket opening := by
  have hgo : ¬(c = '}' ∧ 0 = 0) := by
    intro hend
    rw [splitText, if_pos hend] at hsplit
    simp at hsplit
  -- The token is an atom or a literal: no field begins here, and the text does not end here.
  by_cases hatom : c = '$' ∨ c = '*' ∨ isSpace c = true
  · obtain ⟨reading, hread⟩ := Atom.exists_read?_of_isSpace hatom cs
    obtain ⟨hkind, hafter⟩ := Atom.kind_of_read? hread context
    have hbrace : c = '$' → cs.head? ≠ some '{' := by
      rintro rfl hhead
      obtain ⟨body, rfl⟩ := List.head?_eq_some_iff.1 hhead
      exact hfield ⟨[], body, rfl⟩
    have htext := splitText_append_of_noBraces (Atom.noBraces_of_read? hread) reading.rest
    rw [(Atom.splits_of_read? hread).1, hsplit, Prod.mk.injEq] at htext
    -- An atom has no braces, so it takes nothing away from the count behind it.
    refine ⟨reading, context, (splitText 0 reading.rest).1, ?_, htext.1, ?_, hquote, hbraces, hkind⟩
    · rw [readNext_eq_atom hbrace hread, hafter]
    · rw [htext.2]
  · simp only [not_or, Bool.not_eq_true] at hatom
    obtain ⟨hdollar, hstar, hspace⟩ := hatom
    have hends : Literal.endsBefore context 0 c = false := by
      rw [Literal.endsBefore_of_braces hquote hbraces]
      simpa [hdollar] using hgo
    have hplain : c ≠ '\\' := fun h => hescape (h ▸ List.mem_cons_self)
    have htext := Literal.splitText_run hquote hbraces hescape before 0
    rw [hsplit, Prod.mk.injEq] at htext
    refine ⟨_, _, _, readNext_eq_literal hdollar (Atom.read?_eq_none_iff.2 ⟨hdollar, hstar, hspace⟩)
      (Literal.read?_eq_some hplain hends), htext.1, ?_, hquote, ?_, by simp⟩
    · rw [htext.2]
    -- Braces that a literal leaves open add to those that were open before.
    · exact Nat.ne_of_gt (Nat.lt_of_lt_of_le (Nat.pos_of_ne_zero hbraces) (Nat.le_add_right _ _))

/-- Inside braces, the tokens up to the brace that ends the text are no brackets, and they are the
characters of the text. -/
theorem exists_run_of_splitText (hquote : context.quote = none) (hbraces : context.braces ≠ 0)
    {source text after : List Char} (hescape : '\\' ∉ source) (hfield : ¬['$', '{'] <:+: source)
    (hsplit : splitText 0 source = (text, after)) (read : List Char) :
    ∃ lexemes next, Progress.Run ⟨read, source, context⟩ lexemes ⟨read ++ text, after, next⟩ ∧
      next.quote = none ∧ next.braces ≠ 0 ∧
      ∀ lexeme ∈ lexemes, ∀ bracket opening, lexeme.kind ≠ .bracket bracket opening := by
  -- Each round leaves a shorter text to be read, in a context of the same kind.
  induction hlength : text.length using Nat.strong_induction_on
    generalizing context source text read with
  | _ length ih =>
    subst hlength
    have happend := splitText_append 0 source
    rw [hsplit] at happend
    cases text with
    | nil =>
      subst happend
      refine ⟨[], context, ?_, hquote, hbraces, by simp⟩
      rw [List.append_nil]
      exact .nil _
    | cons c text =>
      subst happend
      obtain ⟨reading, next, more, hread, htext, hmore, hquote', hbraces', hkind⟩ :=
        exists_readNext_of_splitText read.getLast? hquote hbraces hescape hfield hsplit
      have hsplits := splits_of_readNext hread
      have hsuffix : reading.rest <:+ c :: (text ++ after) := ⟨reading.text, hsplits.1⟩
      have hlt : more.length < (c :: text).length := by
        rw [htext, List.length_append]
        have := List.length_pos_iff.2 hsplits.2
        omega
      obtain ⟨lexemes, last, hrun, hquote'', hbraces'', hkinds⟩ := ih _ hlt hquote' hbraces'
        (fun hmem => hescape (hsuffix.subset hmem))
        (fun hinfix => hfield (List.IsInfix.trans hinfix hsuffix.isInfix)) hmore
        (read ++ reading.text) rfl
      refine ⟨_ :: lexemes, last, .cons (.intro hread) ?_, hquote'', hbraces'',
        List.forall_mem_cons.2 ⟨hkind, hkinds⟩⟩
      rwa [htext, ← List.append_assoc]

end Token

end Shorthand
