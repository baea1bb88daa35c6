import Shorthand.Proofs.Toml.Grammar
import Shorthand.Toml.Scalar

/-!
# Reading TOML numbers

A natural number is read as its value, with or without a plus sign and underscores. It is no date
and no time of day, since it has neither a hyphen nor a colon.

## Main results

* `SpellsNatural.scalar?_eq`: a natural number is read as its value.
-/

namespace Shorthand.Toml

variable {c : Char} {cs digits rest : List Char} {n count : Nat}

/-! ## Dates and times -/

theorem readChar?_of_not_mem (h : c ∉ cs) : readChar? c cs = none := by
  rw [readChar?, if_neg]
  exact fun hhead => h (List.mem_of_mem_head? hhead)

theorem not_mem_of_readDigits? (h : c ∉ cs) (hread : readDigits? count cs = some (n, rest)) :
    c ∉ rest := by
  rw [readDigits?] at hread
  split at hread
  next =>
    cases hread
    exact fun hmem => h (List.mem_of_mem_drop hmem)
  next => cases hread

theorem readDate?_of_not_mem (h : '-' ∉ cs) : readDate? cs = none := by
  rw [readDate?]
  cases hread : readDigits? 4 cs with
  | none => rfl
  | some pair =>
    obtain ⟨year, rest⟩ := pair
    simp [readChar?_of_not_mem (not_mem_of_readDigits? h hread)]

theorem readHourMinute?_of_not_mem (h : ':' ∉ cs) : readHourMinute? cs = none := by
  rw [readHourMinute?]
  cases hread : readDigits? 2 cs with
  | none => rfl
  | some pair =>
    obtain ⟨hour, rest⟩ := pair
    simp [readChar?_of_not_mem (not_mem_of_readDigits? h hread)]

/-- Without a hyphen and without a colon a text is no moment. -/
theorem moment?_of_not_mem (hhyphen : '-' ∉ cs) (hcolon : ':' ∉ cs) : moment? cs = none := by
  rw [moment?, readDate?_of_not_mem hhyphen]
  simp [readTime?, readHourMinute?_of_not_mem hcolon]

/-! ## Natural numbers -/

theorem Grouped.forall_mem (h : Grouped cs digits) : ∀ c ∈ cs, c.isDigit = true ∨ c = '_' := by
  induction h with
  | last hd => exact List.forall_mem_cons.2 ⟨.inl hd, nofun⟩
  | next hd _ ih => exact List.forall_mem_cons.2 ⟨.inl hd, ih⟩
  | apart hd _ ih =>
    exact List.forall_mem_cons.2 ⟨.inl hd, List.forall_mem_cons.2 ⟨.inr rfl, ih⟩⟩

theorem Grouped.exists_cons (h : Grouped cs digits) :
    ∃ d ds, cs = d :: ds ∧ d.isDigit = true := by
  cases h with
  | last hd => exact ⟨_, _, rfl, hd⟩
  | next hd => exact ⟨_, _, rfl, hd⟩
  | apart hd => exact ⟨_, _, rfl, hd⟩

/-- The underscores between digits are dropped. -/
theorem Grouped.ungroup?_eq (h : Grouped cs digits) : ungroup? Char.isDigit cs = some digits := by
  induction h with
  | last hd => rw [ungroup?, if_pos hd]
  | @next d cs digits hd h ih =>
    obtain ⟨e, es, rfl, he⟩ := h.exists_cons
    rw [ungroup?.eq_4, if_pos hd, ih]
    · rfl
    · nofun
    · rintro _ ⟨⟩
      cases he
  | apart hd _ ih =>
    rw [ungroup?, if_pos hd, ih]
    rfl

/-- A digit or an underscore is no letter behind which a base is told. -/
theorem base?_of_digit (h : c.isDigit = true ∨ c = '_') : base? c = none := by
  unfold base?
  split
  next => rcases h with h | h <;> cases h
  next => rcases h with h | h <;> cases h
  next => rcases h with h | h <;> cases h
  next => rfl

theorem splitSign_of_digit (h : c.isDigit = true) :
    splitSign (c :: cs) = (false, false, c :: cs) := by
  unfold splitSign
  split
  next heq => cases heq; cases h
  next heq => cases heq; cases h
  next => rfl

theorem SpellsNatural.splitSign_eq {text : List Char} (h : Grouped text digits) {sign : List Char}
    (hsign : sign = [] ∨ sign = ['+']) :
    ∃ signed, splitSign (sign ++ text) = (signed, false, text) := by
  rcases hsign with rfl | rfl
  · obtain ⟨d, ds, rfl, hd⟩ := h.exists_cons
    exact ⟨false, splitSign_of_digit hd⟩
  · exact ⟨true, rfl⟩

theorem ofInteger?_natural (hn : n ≤ greatestSigned) : ofInteger? false n = some (.natural n) := by
  have hgreatest : greatestSigned ≤ greatestInteger := by decide
  rcases Decidable.em (n = 0) with rfl | hne
  · rfl
  · rw [ofInteger?, if_neg hne, if_neg Bool.false_ne_true, if_pos (Nat.le_trans hn hgreatest)]

theorem SpellsNatural.integer?_eq (h : SpellsNatural cs n) (hn : n ≤ greatestSigned) :
    integer? cs = some (.natural n) := by
  obtain ⟨sign, text, digits, rfl, hsign, hgrouped, hzero, rfl⟩ := h
  obtain ⟨signed, hsplit⟩ := splitSign_eq hgrouped hsign
  have hwhole : wholeDigits? text = some digits := by
    rw [wholeDigits?, hgrouped.ungroup?_eq, Option.bind_some, if_pos hzero]
  rw [integer?, hsplit]
  dsimp only
  split
  next hbased =>
    split at hbased
    next letter more =>
      rw [base?_of_digit (hgrouped.forall_mem letter (by simp))] at hbased
      cases hbased
    next => cases hbased
  next => rw [hwhole, Option.bind_some, ofInteger?_natural hn]

/-- A natural number holds digits, underscores and a plus sign, and nothing else. -/
theorem SpellsNatural.forall_mem (h : SpellsNatural cs n) :
    ∀ c ∈ cs, c.isDigit = true ∨ c = '_' ∨ c = '+' := by
  obtain ⟨sign, text, digits, rfl, hsign, hgrouped, -, -⟩ := h
  refine List.forall_mem_append.2 ⟨?_, fun c hc => (hgrouped.forall_mem c hc).imp_right .inl⟩
  rcases hsign with rfl | rfl
  · nofun
  · exact List.forall_mem_singleton.2 (.inr (.inr rfl))

theorem SpellsNatural.not_mem (h : SpellsNatural cs n)
    (hc : c.isDigit = false ∧ c ≠ '_' ∧ c ≠ '+') : c ∉ cs := by
  intro hmem
  rcases h.forall_mem c hmem with hdigit | heq | heq
  · cases hdigit.symm.trans hc.1
  · exact hc.2.1 heq
  · exact hc.2.2 heq

theorem SpellsNatural.ne_nil (h : SpellsNatural cs n) : cs ≠ [] := by
  obtain ⟨sign, text, digits, rfl, -, hgrouped, -, -⟩ := h
  obtain ⟨d, ds, rfl, -⟩ := hgrouped.exists_cons
  simp

/-- A natural number is read as its value. -/
theorem SpellsNatural.scalar?_eq (h : SpellsNatural cs n) (hn : n ≤ greatestSigned) :
    scalar? cs = some (.natural n) := by
  have htrue : cs ≠ "true".toList := fun heq => h.not_mem (c := 't') (by decide) (heq ▸ by decide)
  have hfalse : cs ≠ "false".toList := fun heq => h.not_mem (c := 'f') (by decide) (heq ▸ by decide)
  rw [scalar?, if_neg htrue, if_neg hfalse,
    moment?_of_not_mem (h.not_mem (by decide)) (h.not_mem (by decide)), h.integer?_eq hn]
  rfl

end Shorthand.Toml
