import Mathlib.Data.List.Infix
import Shorthand.Proofs.Token.BracedText

/-!
# Texts with balanced braces

A text in which every brace is closed reaches to its own end when it is put between braces, as long
as no dollar sign stands between two braces of the text. Where one does, the text ends too early: at
the first brace that was opened before the dollar sign and is closed behind it.

## Main definitions

* `Balanced`: every brace of a text is closed in it;
* `DollarsOutside`: no dollar sign of a text stands between braces of the text.

## Main results

* `splitText_of_closes`: where a text with balanced braces ends.
-/

namespace Shorthand

/-- Braces are balanced: no brace is closed before it is opened, and all are closed in the end. -/
structure Balanced (text : List Char) : Prop where
  /-- Every beginning of the text has at least as many opening braces as closing ones. -/
  le_of_prefix : ∀ before, before <+: text → before.count '}' ≤ before.count '{'
  /-- There are as many opening braces as closing ones. -/
  count_eq : text.count '{' = text.count '}'

/-- No dollar sign stands between braces: every brace opened before one is closed before it. -/
def DollarsOutside (text : List Char) : Prop :=
  ∀ before after, text = before ++ '$' :: after → before.count '{' = before.count '}'

/-- Whether braces are balanced can be told from the beginnings of a text. -/
instance (text : List Char) : Decidable (Balanced text) :=
  decidable_of_iff ((∀ before ∈ text.inits, before.count '}' ≤ before.count '{') ∧
      text.count '{' = text.count '}') <| by
    simp only [List.mem_inits]
    exact ⟨fun h => ⟨h.1, h.2⟩, fun h => ⟨h.1, h.2⟩⟩

theorem forall_inits_iff_dollarsOutside (text : List Char) :
    (∀ before ∈ text.inits, before ++ ['$'] <+: text → before.count '{' = before.count '}') ↔
      DollarsOutside text := by
  simp only [List.mem_inits]
  constructor
  · intro h before after hsplit
    exact h before ⟨_, hsplit.symm⟩ ⟨after, by simp [hsplit]⟩
  · rintro h before - ⟨after, hsplit⟩
    exact h before after (by simp [← hsplit])

instance (text : List Char) : Decidable (DollarsOutside text) :=
  decidable_of_iff _ (forall_inits_iff_dollarsOutside text)

/-! ## Character by character -/

/-- How many braces are open behind the character `c`, when `depth` are open before it. -/
def depthAfter (depth : Nat) (c : Char) : Nat :=
  if c = '{' then depth + 1 else if c = '}' then depth - 1 else depth

/-- The text closes the `depth` braces that are open before it and all those that it opens. -/
def Closes (depth : Nat) : List Char → Prop
  | [] => depth = 0
  | c :: cs => (c = '}' → depth ≠ 0) ∧ Closes (depthAfter depth c) cs

/-- At the dollar signs of a text no brace is open, of `depth` before it and those in it. -/
def OutsideFrom (depth : Nat) : List Char → Prop
  | [] => True
  | c :: cs => (c = '$' → depth = 0) ∧ OutsideFrom (depthAfter depth c) cs

/-- Behind a character, as many braces are open as were before it and it opens, without those that
it closes. -/
theorem depthAfter_add_count {depth : Nat} {c : Char} (h : c = '}' → depth ≠ 0) :
    depthAfter depth c + [c].count '}' = depth + [c].count '{' := by
  by_cases hopen : c = '{'
  · subst hopen
    simp [depthAfter]
  · by_cases hclose : c = '}'
    · subst hclose
      have := h rfl
      simp [depthAfter]
      omega
    · simp [depthAfter, hopen, hclose]

theorem count_cons_eq_add (d c : Char) (cs : List Char) :
    (c :: cs).count d = [c].count d + cs.count d := by
  rw [← List.count_append, List.singleton_append]

theorem closes_of_count {depth : Nat} {text : List Char}
    (hle : ∀ before, before <+: text → before.count '}' ≤ depth + before.count '{')
    (heq : depth + text.count '{' = text.count '}') : Closes depth text := by
  induction text generalizing depth with
  | nil => exact Nat.eq_zero_of_add_eq_zero_right heq
  | cons c cs ih =>
    have hc : c = '}' → depth ≠ 0 := by
      rintro rfl
      have := hle ['}'] ⟨cs, rfl⟩
      simp at this
      omega
    -- The depth behind `c` accounts for `c`, so a prefix of the rest is a prefix behind `c`.
    have hdepth := depthAfter_add_count hc
    refine ⟨hc, ih ?_ ?_⟩
    · intro before hprefix
      have := hle (c :: before) (List.cons_prefix_cons.2 ⟨rfl, hprefix⟩)
      rw [count_cons_eq_add '}', count_cons_eq_add '{'] at this
      omega
    · rw [count_cons_eq_add '}', count_cons_eq_add '{'] at heq
      omega

/-- A text with balanced braces closes all that it opens. -/
theorem Balanced.closes {text : List Char} (h : Balanced text) : Closes 0 text :=
  closes_of_count (by simpa using h.le_of_prefix) (by simpa using h.count_eq)

theorem Closes.count {depth : Nat} {text : List Char} (h : Closes depth text) :
    (∀ before, before <+: text → before.count '}' ≤ depth + before.count '{') ∧
      depth + text.count '{' = text.count '}' := by
  induction text generalizing depth with
  | nil =>
    obtain rfl : depth = 0 := h
    refine ⟨fun before hprefix => ?_, rfl⟩
    rw [List.prefix_nil.1 hprefix]
    rfl
  | cons c cs ih =>
    have hdepth := depthAfter_add_count h.1
    obtain ⟨hle, heq⟩ := ih h.2
    constructor
    · intro before hprefix
      rcases List.prefix_cons_iff.1 hprefix with rfl | ⟨before, rfl, hbefore⟩
      · exact Nat.zero_le _
      · have := hle before hbefore
        rw [count_cons_eq_add '}', count_cons_eq_add '{']
        omega
    · rw [count_cons_eq_add '}', count_cons_eq_add '{']
      omega

/-- A text that closes all that it opens has balanced braces. -/
theorem Closes.balanced {text : List Char} (h : Closes 0 text) : Balanced text where
  le_of_prefix := by simpa using h.count.1
  count_eq := by simpa using h.count.2

/-- Characters that are no braces change nothing about what a text closes. -/
theorem NoBraces.closes_append_iff {front : List Char} (h : NoBraces front) {depth : Nat}
    {text : List Char} : Closes depth (front ++ text) ↔ Closes depth text := by
  induction front with
  | nil => rfl
  | cons c front ih =>
    obtain ⟨⟨hopen, hclose⟩, hfront⟩ := List.forall_mem_cons.1 h
    have hdepth : depthAfter depth c = depth := by simp [depthAfter, hopen, hclose]
    rw [List.cons_append, Closes, hdepth, ih hfront]
    simp [hclose]

theorem outsideFrom_iff {depth : Nat} {text : List Char} (h : Closes depth text) :
    OutsideFrom depth text ↔ ∀ before after, text = before ++ '$' :: after →
      depth + before.count '{' = before.count '}' := by
  induction text generalizing depth with
  | nil => simp [OutsideFrom]
  | cons c cs ih =>
    have hdepth := depthAfter_add_count h.1
    rw [OutsideFrom, ih h.2]
    constructor
    · rintro ⟨hdollar, hmore⟩ before after hsplit
      rcases List.cons_eq_append_iff.1 hsplit with ⟨rfl, hhead⟩ | ⟨before, rfl, htail⟩
      · have hc : c = '$' := (List.cons.inj hhead).1.symm
        simpa using hdollar hc
      · have := hmore before after htail
        rw [← List.singleton_append, List.count_append, List.count_append]
        omega
    · intro hall
      refine ⟨?_, ?_⟩
      · rintro rfl
        simpa using hall [] cs rfl
      · rintro before after rfl
        have := hall (c :: before) after rfl
        rw [← List.singleton_append, List.count_append, List.count_append] at this
        omega

/-- In a text with balanced braces, no dollar sign stands between braces if and only if no brace is
open at one. -/
theorem Balanced.outsideFrom_iff {text : List Char} (h : Balanced text) :
    OutsideFrom 0 text ↔ DollarsOutside text := by
  rw [Shorthand.outsideFrom_iff h.closes]
  simp [DollarsOutside]

/-! ## The end of a text -/

/-- No more braces count than are open. -/
theorem openAfter_le_depthAfter {opened depth : Nat} (h : opened ≤ depth) (c : Char) :
    openAfter opened c ≤ depthAfter depth c := by
  unfold openAfter depthAfter
  split
  next => exact Nat.zero_le _
  next => split <;> (try split) <;> omega

/-- As many braces count as are open, if that was so before and the character between is no dollar
sign between braces. -/
theorem openAfter_eq_depthAfter_iff {opened depth : Nat} (hle : opened ≤ depth) {c : Char}
    (hgo : ¬(c = '}' ∧ opened = 0)) (hclose : c = '}' → depth ≠ 0) :
    openAfter opened c = depthAfter depth c ↔ opened = depth ∧ (c = '$' → depth = 0) := by
  by_cases hdollar : c = '$'
  · subst hdollar
    simp [openAfter, depthAfter]
    omega
  · by_cases hopen : c = '{'
    · subst hopen
      simp [openAfter, depthAfter]
    · by_cases hbrace : c = '}'
      · subst hbrace
        have := hclose rfl
        simp at hgo
        simp [openAfter, depthAfter]
        omega
      · simp [openAfter, depthAfter, hdollar, hopen, hbrace]

/-- A text that closes all braces ends no later than where it should, and there only if all braces
that are open count and no dollar sign stands between them. -/
theorem splitText_of_closes {opened depth : Nat} {text : List Char} (h : Closes depth text)
    (hle : opened ≤ depth) (rest : List Char) :
    ∃ inside left, splitText opened (text ++ '}' :: rest) = (inside, '}' :: left) ∧
      inside.length ≤ text.length ∧
      (inside.length = text.length ↔ opened = depth ∧ OutsideFrom depth text) := by
  induction text generalizing opened depth with
  | nil =>
    have hdepth : depth = 0 := h
    have hopened : opened = 0 := by omega
    refine ⟨[], rest, ?_, Nat.le_refl _, ?_⟩
    · simp [splitText, hopened]
    · simp [OutsideFrom, hopened, hdepth]
  | cons c cs ih =>
    -- A brace that closes nothing that counts ends the text; it is too early, as one is still open.
    by_cases hstop : c = '}' ∧ opened = 0
    · refine ⟨[], cs ++ '}' :: rest, ?_, Nat.zero_le _, ?_⟩
      · rw [List.cons_append, splitText, if_pos hstop, hstop.1]
      · have hdepth := h.1 hstop.1
        have hne : opened ≠ depth := by omega
        simp [hne]
    · obtain ⟨inside, left, hsplit, hlength, heq⟩ := ih h.2 (openAfter_le_depthAfter hle c)
      refine ⟨c :: inside, left, ?_, Nat.succ_le_succ hlength, ?_⟩
      · rw [List.cons_append, splitText_cons_of_ne _ hstop, hsplit]
      · rw [List.length_cons, List.length_cons, Nat.succ_inj, heq,
          openAfter_eq_depthAfter_iff hle hstop h.1, OutsideFrom, and_assoc]

end Shorthand
