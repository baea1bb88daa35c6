import Mathlib.Data.List.TakeWhile
import Shorthand.Proofs.Link.Patterns
import Shorthand.Proofs.Text.Runs

/-!
# Link targets

Every text falls into one of four cases: a complete address, an address that lacks its scheme, an
e-mail address, or none of them. The cases are tried in this order, and the parts of an e-mail
address are found by looking for the first at sign and for the last full stop, which are the only
places at which it can be divided.

## Main definitions

* `Text.Trims`: a text without the blank characters around it;
* `Targets`: the target of a link that wraps a text, case by case.

## Main results

* `isAddress_iff`, `isEmail_iff`: the shapes are recognised;
* `targets_target`: the target of every text;
* `target_eq_pattern`: the three patterns decide the same;
* `target_target_iff`: a target is its own target unless it is that of an e-mail address;
* `hrefFor_classifies`: all of it together.
-/

namespace Shorthand

/-! ## Trimming -/

namespace Text

variable {text inner : List Char}

/-- What is left of a text without the blank characters around it. -/
structure Trims (text inner : List Char) : Prop where
  split : ∃ before after, text = before ++ inner ++ after ∧
    (∀ c ∈ before, isBlank c = true) ∧ ∀ c ∈ after, isBlank c = true
  /-- It does not begin with a blank character. -/
  head : ∀ c ∈ inner.head?, isBlank c = false
  /-- Nor does it end with one. -/
  last : ∀ c ∈ inner.getLast?, isBlank c = false

theorem dropWhile_isBlank_of_head? (h : ∀ c ∈ text.head?, isBlank c = false) :
    text.dropWhile isBlank = text := by
  cases text with
  | nil => rfl
  | cons c cs => rw [List.dropWhile_cons_of_neg (by simp [h c rfl])]

theorem head?_dropWhile_isBlank (text : List Char) :
    ∀ c ∈ (text.dropWhile isBlank).head?, isBlank c = false := by
  intro c hc
  have := List.head?_dropWhile_not isBlank text
  rw [hc] at this
  simpa using this

/-- A text without blank characters around it stays as it is. -/
theorem trim_eq_self (hhead : ∀ c ∈ inner.head?, isBlank c = false)
    (hlast : ∀ c ∈ inner.getLast?, isBlank c = false) : trim inner = inner := by
  rw [trim, dropWhile_isBlank_of_head? hhead,
    dropWhile_isBlank_of_head? (by rwa [List.head?_reverse]), List.reverse_reverse]

/-- Trimming takes off the blank characters around a text, and nothing else. -/
theorem trims_trim (text : List Char) : Trims text (trim text) := by
  have hfront := List.takeWhile_append_dropWhile (p := isBlank) (l := text)
  have hback := congrArg List.reverse
    (List.takeWhile_append_dropWhile (p := isBlank) (l := (text.dropWhile isBlank).reverse))
  rw [List.reverse_append, List.reverse_reverse, ← trim] at hback
  refine ⟨⟨text.takeWhile isBlank, ((text.dropWhile isBlank).reverse.takeWhile isBlank).reverse, ?_,
    fun c hc => List.mem_takeWhile_imp hc,
    fun c hc => List.mem_takeWhile_imp (List.mem_reverse.1 hc)⟩, fun c hc => ?_, fun c hc => ?_⟩
  · rw [List.append_assoc, hback, hfront]
  · refine head?_dropWhile_isBlank text c ?_
    rw [← hback]
    cases htrim : trim text with
    | nil => simp [htrim] at hc
    | cons d ds => simpa [htrim] using hc
  · rw [trim, List.getLast?_reverse] at hc
    exact head?_dropWhile_isBlank _ c hc

end Text

namespace Link

open Text (Trims trim trim_eq_self trims_trim)

variable {u top : List Char} {starts : List String}

/-! ## Recognising shapes -/

theorem isAddressLetter_iff {c : Char} : isAddressLetter c = true ↔ IsLetter c := by
  have halpha : c.isAlpha =
      (decide ('A' ≤ c ∧ c ≤ 'Z') || (decide ('a' ≤ c) && decide (c ≤ 'z'))) := rfl
  simp only [isAddressLetter, IsLetter, halpha, Bool.or_eq_true, Bool.and_eq_true,
    decide_eq_true_eq, beq_iff_eq, or_assoc]
  exact or_left_comm

theorem isLocalChar_iff {c : Char} : isLocalChar c = true ↔ IsUserChar c := by
  simp only [isLocalChar, IsUserChar, Bool.or_eq_true, isAddressLetter_iff, Char.isDigit,
    Bool.and_eq_true, decide_eq_true_eq, beq_iff_eq, or_assoc, Char.le_def, List.mem_cons,
    List.not_mem_nil, or_false]

theorem isDomainChar_iff {c : Char} : isDomainChar c = true ↔ IsHostChar c := by
  simp only [isDomainChar, IsHostChar, Bool.or_eq_true, isAddressLetter_iff, Char.isDigit,
    Bool.and_eq_true, decide_eq_true_eq, beq_iff_eq, or_assoc, Char.le_def, List.mem_cons,
    List.not_mem_nil, or_false]

/-- An address begins in one of the given ways and holds no space. -/
theorem isAddress_iff (hstarts : ∀ start ∈ starts, ' ' ∉ start.toList) :
    isAddress starts u = true ↔ Begins starts u := by
  rw [isAddress, Bool.and_eq_true, List.any_eq_true]
  simp only [List.isPrefixOf_iff_prefix, Bool.not_eq_true', List.contains_eq_mem,
    decide_eq_false_iff_not]
  constructor
  · rintro ⟨⟨start, hstart, rest, rfl⟩, hspace⟩
    exact ⟨start, hstart, rest, rfl, fun hmem => hspace (List.mem_append_right _ hmem)⟩
  · rintro ⟨start, hstart, rest, rfl, hspace⟩
    refine ⟨⟨start, hstart, rest, rfl⟩, fun hmem => ?_⟩
    exact (List.mem_append.1 hmem).elim (hstarts start hstart) hspace

theorem isAddress_schemes_iff : isAddress schemes u = true ↔ IsComplete u :=
  isAddress_iff (by decide)

theorem isAddress_hosts_iff : isAddress hosts u = true ↔ LacksScheme u :=
  isAddress_iff (by decide)

/-- A text is divided at the first mark in it. -/
theorem takeWhile_dropWhile_append {mark : Char} {front : List Char} (rest : List Char)
    (h : mark ∉ front) :
    (front ++ mark :: rest).takeWhile (· != mark) = front ∧
      (front ++ mark :: rest).dropWhile (· != mark) = mark :: rest := by
  have hfront : ∀ c ∈ front, (c != mark) = true := fun c hc => bne_iff_ne.2 fun heq => h (heq ▸ hc)
  have hrest : ∀ c ∈ (mark :: rest).head?, (c != mark) = false := by simp
  exact ⟨Text.takeWhile_run hfront hrest, Text.dropWhile_run hfront hrest⟩

/-- Behind the last full stop of a domain stand letters, and before it characters of a domain. -/
theorem isDomain_append {domain top : List Char} (htop : '.' ∉ top) :
    isDomain (domain ++ '.' :: top) = true ↔ (domain ≠ [] ∧ ∀ c ∈ domain, IsHostChar c) ∧
      2 ≤ top.length ∧ top.length ≤ 5 ∧ ∀ c ∈ top, IsLetter c := by
  have hreverse : (domain ++ '.' :: top).reverse = top.reverse ++ '.' :: domain.reverse := by simp
  obtain ⟨htake, hdrop⟩ := takeWhile_dropWhile_append domain.reverse
    (mt List.mem_reverse.1 htop)
  rw [isDomain, hreverse, htake, hdrop]
  simp only [List.tail_cons, List.reverse_reverse, Bool.and_eq_true, decide_eq_true_eq,
    List.all_eq_true, isDomainChar_iff, isAddressLetter_iff, Bool.not_eq_true',
    List.isEmpty_eq_false_iff, List.contains_eq_mem, List.mem_append, List.mem_cons, true_or,
    or_true, true_and]
  exact ⟨fun ⟨⟨⟨⟨htwo, hfive⟩, hletters⟩, hne⟩, hchars⟩ => ⟨⟨hne, hchars⟩, htwo, hfive, hletters⟩,
    fun ⟨⟨hne, hchars⟩, htwo, hfive, hletters⟩ => ⟨⟨⟨⟨htwo, hfive⟩, hletters⟩, hne⟩, hchars⟩⟩

/-- Before the first at sign of an e-mail address stands the user, and behind it the domain. -/
theorem isEmail_append {user domain : List Char} (huser : '@' ∉ user) :
    isEmail (user ++ '@' :: domain) = true ↔
      (user ≠ [] ∧ ∀ c ∈ user, IsUserChar c) ∧ isDomain domain = true := by
  obtain ⟨htake, hdrop⟩ := takeWhile_dropWhile_append domain huser
  rw [isEmail, htake, hdrop]
  simp only [Bool.and_eq_true, List.all_eq_true, isLocalChar_iff, Bool.not_eq_true',
    List.isEmpty_eq_false_iff]

/-- The characters of a user are no at signs, and the letters behind the last full stop are no full
stops, so an e-mail address can be divided in one way only. -/
theorem isEmail_iff : isEmail u = true ↔ IsMail u := by
  constructor
  · intro h
    have hat : '@' ∈ u := by
      by_contra hat
      have hdrop : u.dropWhile (· != '@') = [] :=
        List.dropWhile_eq_nil_iff.2 fun c hc => bne_iff_ne.2 fun heq => hat (heq ▸ hc)
      rw [isEmail, hdrop] at h
      cases h
    obtain ⟨user, domain, rfl, huser⟩ := List.eq_append_cons_of_mem hat
    obtain ⟨hparts, hdomain⟩ := (isEmail_append huser).1 h
    have hstop : '.' ∈ domain := by
      simp only [isDomain, Bool.and_eq_true] at hdomain
      exact List.contains_iff_mem.1 hdomain.1.1.1.1.1
    obtain ⟨top, host, hu, htop⟩ := List.eq_append_cons_of_mem (List.mem_reverse.2 hstop)
    obtain rfl : domain = host.reverse ++ '.' :: top.reverse := by
      rw [← List.reverse_reverse domain, hu]
      simp
    exact ⟨user, _, _, rfl, hparts, (isDomain_append (mt List.mem_reverse.1 htop)).1 hdomain⟩
  · rintro ⟨user, domain, top, rfl, huser, hparts⟩
    have hat : '@' ∉ user := fun hmem =>
      absurd (huser.2 '@' hmem) (by unfold IsUserChar IsLetter; decide)
    have hstop : '.' ∉ top := fun hmem =>
      absurd (hparts.2.2.2 '.' hmem) (by unfold IsLetter; decide)
    exact (isEmail_append hat).2 ⟨huser, (isDomain_append hstop).2 hparts⟩

/-! ## Cases -/

/-- The target of a link that wraps a text without blanks around it. -/
inductive Targets (u : List Char) : List Char → Prop
  /-- A complete address is its own target. -/
  | complete (h : IsComplete u) : Targets u u
  /-- An address that lacks its scheme gets one. -/
  | bare (hcomplete : ¬ IsComplete u) (h : LacksScheme u) : Targets u ("http://".toList ++ u)
  /-- So does an e-mail address. -/
  | mail (hcomplete : ¬ IsComplete u) (hbare : ¬ LacksScheme u) (h : IsMail u) :
      Targets u ("mailto:".toList ++ u)
  /-- Any other text has none. -/
  | none (hcomplete : ¬ IsComplete u) (hbare : ¬ LacksScheme u) (hmail : ¬ IsMail u) :
      Targets u []

theorem Targets.unique {target target' : List Char} (h : Targets u target)
    (h' : Targets u target') : target = target' := by
  cases h <;> cases h' <;> first | contradiction | rfl

theorem Targets.isSuffix {target : List Char} (h : Targets u target) (hne : target ≠ []) :
    u <:+ target := by
  cases h with
  | complete => exact List.suffix_rfl
  | bare | mail => exact List.suffix_append ..
  | none => exact absurd rfl hne

/-- What the target of a text is. -/
theorem targets_target (text : List Char) : Targets (trim text) (target text) := by
  simp only [target]
  split
  next hcomplete => exact .complete (isAddress_schemes_iff.1 hcomplete)
  next hcomplete =>
    rw [isAddress_schemes_iff] at hcomplete
    split
    next hbare => exact .bare hcomplete (isAddress_hosts_iff.1 hbare)
    next hbare =>
      rw [isAddress_hosts_iff] at hbare
      split
      next hmail => exact .mail hcomplete hbare (isEmail_iff.1 hmail)
      next hmail => exact .none hcomplete hbare (mt isEmail_iff.2 hmail)

/-- The three patterns decide the same target, whatever else word characters are. -/
theorem target_eq_pattern {isWord : Char → Prop} (hletter : ∀ c, c.isAlpha = true → isWord c)
    (hstop : ¬ isWord '.') (text : List Char) :
    target text = Pattern.target isWord (trim text) := by
  have htargets := targets_target text
  generalize target text = target, trim text = u at htargets
  rw [Pattern.target]
  cases htargets with
  | complete h =>
    rw [if_pos (Pattern.mem_address_iff.2 (.inl h)),
      if_pos (Pattern.exists_scheme_of_isComplete hletter h)]
  | bare hcomplete h =>
    rw [if_pos (Pattern.mem_address_iff.2 (.inr h)),
      if_neg (Pattern.not_exists_scheme_of_lacksScheme hstop h)]
  | mail hcomplete hbare h =>
    rw [if_neg (mt Pattern.mem_address_iff.1 (not_or.2 ⟨hcomplete, hbare⟩)),
      if_pos (Pattern.mem_email_iff.2 h)]
  | none hcomplete hbare hmail =>
    rw [if_neg (mt Pattern.mem_address_iff.1 (not_or.2 ⟨hcomplete, hbare⟩)),
      if_neg (mt Pattern.mem_email_iff.1 hmail)]

/-! ## Targets of targets -/

/-- A text without blanks around it has none behind a beginning that has none. -/
theorem trim_append {text : List Char} (hu : Trims text u) (front : List Char) (hne : front ≠ [])
    (hfront : front.all fun c => !Text.isBlank c) : trim (front ++ u) = front ++ u := by
  simp only [List.all_eq_true, Bool.not_eq_true'] at hfront
  refine trim_eq_self (fun c hc => ?_) fun c hc => ?_
  · rw [List.head?_append_of_ne_nil _ hne] at hc
    exact hfront c (List.mem_of_head? hc)
  · rw [List.getLast?_append, Option.mem_def, Option.or_eq_some_iff] at hc
    exact hc.elim (hu.last c) fun h => hfront c (List.mem_of_getLast? h.2)

/-- The target of an e-mail address begins neither like an address, nor is it an e-mail address,
since no user has a colon. -/
theorem targets_mailto (u : List Char) : Targets ("mailto:".toList ++ u) [] := by
  have hcomplete : isAddress schemes ("mailto:".toList ++ u) = false := by
    simp [isAddress, schemes]
  have hbare : isAddress hosts ("mailto:".toList ++ u) = false := by
    simp [isAddress, hosts]
  refine .none ?_ ?_ ?_
  · rw [← isAddress_schemes_iff, hcomplete]
    exact Bool.false_ne_true
  · rw [← isAddress_hosts_iff, hbare]
    exact Bool.false_ne_true
  · rintro ⟨user, domain, top, heq, ⟨-, huser⟩, -⟩
    -- No at sign stands in front of the colon, so the colon belongs to the user.
    have hcolon : ':' ∈ user := by
      rcases List.append_eq_append_iff.1 heq with ⟨between, rfl, -⟩ | ⟨between, hfront, hbehind⟩
      · simp
      · cases between with
        | nil => exact (List.append_nil user ▸ hfront) ▸ by decide
        | cons c between =>
          obtain ⟨rfl, -⟩ := List.cons.inj hbehind
          have hat : '@' ∈ "mailto:".toList := hfront ▸ by simp
          exact absurd hat (by decide)
    exact absurd (huser ':' hcolon) (by unfold IsUserChar IsLetter; decide)

/-- A link whose target is an address keeps it if it wraps the address instead, and a link without a
target gets none. Only the target of an e-mail address is no address. -/
theorem target_target_iff (text : List Char) : target (target text) = target text ↔
    (IsMail (trim text) → IsComplete (trim text) ∨ LacksScheme (trim text)) := by
  have htrims := trims_trim text
  have htargets := targets_target text
  generalize target text = result, trim text = u at htargets htrims
  -- What the target of the target is, its own case decides.
  have hagain := targets_target result
  cases htargets with
  | complete h =>
    rw [trim_eq_self htrims.head htrims.last] at hagain
    exact iff_of_true (hagain.unique (.complete h)) fun _ => .inl h
  | bare hcomplete h =>
    rw [trim_append htrims "http://".toList (by decide) (by decide)] at hagain
    have hspace : ' ' ∉ u := by
      obtain ⟨start, hstart, rest, rfl, hrest⟩ := h
      rw [List.mem_append, not_or]
      exact ⟨(by decide : ∀ start ∈ ["www.", "ftp."], ' ' ∉ start.toList) start hstart, hrest⟩
    have hlink := hagain.unique (.complete ⟨"http://", by simp, u, rfl, hspace⟩)
    exact iff_of_true hlink fun _ => .inr h
  | mail hcomplete hbare h =>
    rw [trim_append htrims "mailto:".toList (by decide) (by decide)] at hagain
    rw [hagain.unique (targets_mailto u)]
    exact iff_of_false nofun fun himp => (himp h).elim hcomplete hbare
  | none hcomplete hbare hmail => exact iff_of_true rfl fun h => absurd h hmail

theorem toList_hrefFor (text : String) : (hrefFor text).toList = target text.toList :=
  String.toList_ofList

/-- The target of a link that wraps a text: which of the four cases it belongs to, that a target
ends with the text without the blanks around it, that a target is its own target except for an
e-mail address, and that the three patterns decide the same. -/
theorem hrefFor_classifies (text : String) : ∃ u, Trims text.toList u ∧
    Targets u (hrefFor text).toList ∧
    (hrefFor text ≠ "" → u <:+ (hrefFor text).toList) ∧
    (hrefFor (hrefFor text) = hrefFor text ↔ (IsMail u → IsComplete u ∨ LacksScheme u)) ∧
    ∀ isWord : Char → Prop, (∀ c, c.isAlpha = true → isWord c) → ¬ isWord '.' →
      (hrefFor text).toList = Pattern.target isWord u := by
  rw [toList_hrefFor]
  refine ⟨trim text.toList, trims_trim _, targets_target _, fun hne => ?_, ?_,
    fun isWord hletter hstop => target_eq_pattern hletter hstop _⟩
  · refine (targets_target _).isSuffix fun hnil => hne ?_
    rw [hrefFor, hnil, String.ofList_nil]
  · refine Iff.trans ?_ (target_target_iff text.toList)
    simp only [← String.toList_inj, toList_hrefFor]

theorem hrefFor_classifies_mail : ∃ u, Trims " John@Mail.example.com\n".toList u ∧
    Targets u "mailto:John@Mail.example.com".toList ∧
    "mailto:John@Mail.example.com".toList = Pattern.target (fun c => c.isAlphanum = true) u := by
  have hhref : hrefFor " John@Mail.example.com\n" = "mailto:John@Mail.example.com" := by
    decide +kernel
  obtain ⟨u, htrims, htargets, -, -, hpattern⟩ := hrefFor_classifies " John@Mail.example.com\n"
  rw [hhref] at htargets hpattern
  refine ⟨u, htrims, htargets, hpattern (fun c => c.isAlphanum = true) (fun c hc => ?_) (by decide)⟩
  rw [Char.isAlphanum, hc, Bool.true_or]

end Link

end Shorthand
