import Shorthand.Proofs.Token.Nesting
import Shorthand.Proofs.Token.Reached

/-!
# Delimiters

Quotation marks and braces come in pairs, and between the two of a pair nothing but content is
read. What is open at a point of the reading decides which token comes next that is not content: the
quotation mark that closes the quoted value, or the brace that closes the braces. Since a quoted
value and braces are never open at the same time, there is only one such token.

## Main definitions

* `Kind.isInner`: tokens that can stand between delimiters;
* `Context.closer?`: the token that closes what is open;
* `Delimited`: the delimiters among the tokens of a source are paired.

## Main results

* `Emits.closes_or_isInner`: inside delimiters, a token closes them or is content;
* `delimited_of_tokenize`: the delimiters of every source are paired.
-/

namespace Shorthand

/-- The token that closes the quoted value or, if there is none, the braces that are open. -/
def Context.closer? (context : Context) : Option Token.Kind :=
  match context.quote with
  | some mark => some (.quote mark)
  | none => if context.braces = 0 then none else some (.bracket .expression false)

namespace Token

/-- Whether tokens of this kind can stand between delimiters: text, white space, repeaters,
numbering, placeholders and fields. -/
def Kind.isInner : Kind → Bool
  | .literal _ | .blank _ | .repeater _ | .numbering _ | .placeholder | .field _ => true
  | .quote _ | .bracket .. | .operator _ => false

/-! ## One token -/

section Emits

variable {context next : Context} {kind closer : Kind}

/-- Inside delimiters, a token is the one that closes them, or it is content and they stay open. -/
theorem Emits.closes_or_isInner (h : Emits context kind next) (hunmixed : context.Unmixed)
    (hcloser : context.closer? = some closer) :
    kind = closer ∨ kind.isInner = true ∧ next.closer? = some closer := by
  obtain ⟨sets, braces, quote⟩ := context
  cases kind with
  | literal value =>
    -- Braces that a literal opens come to those that are open, which there are only without a
    -- quote.
    obtain ⟨opened, -, rfl⟩ := h
    refine .inr ⟨rfl, ?_⟩
    cases quote with
    | some mark => exact hcloser
    | none =>
      have hbraces : braces ≠ 0 := by
        rintro rfl
        cases hcloser
      simp_all [Context.closer?]
  | quote mark =>
    rcases h.1 with hopen | ⟨hnone, hbraces⟩
    · obtain rfl : quote = some mark := hopen
      exact .inl (Option.some.inj hcloser)
    · obtain rfl : quote = none := hnone
      obtain rfl : braces = 0 := hbraces
      cases hcloser
  | bracket bracket opening =>
    obtain rfl : quote = none := h.1
    have hbraces : braces ≠ 0 := by
      rintro rfl
      cases hcloser
    obtain ⟨rfl, rfl⟩ := h.2.1 hbraces
    simp_all [Context.closer?]
  | operator op =>
    obtain rfl : quote = none := h.1
    obtain rfl : braces = 0 := h.2.1
    cases hcloser
  | blank | repeater | numbering | placeholder | field =>
    cases h
    exact .inr ⟨rfl, hcloser⟩

/-- A quotation mark where no quoted value is open opens one. -/
theorem Emits.opens_quote {mark : QuoteMark} (h : Emits context (.quote mark) next)
    (hquote : context.quote = none) : next.quote = some mark := by
  rw [h.2]
  simp [Context.after, hquote]

/-- The quotation mark that closes a quoted value leaves none open. -/
theorem Emits.closes_quote {mark : QuoteMark} (h : Emits context (.quote mark) next)
    (hcloser : context.closer? = some (.quote mark)) : next.quote = none := by
  rw [h.2]
  obtain ⟨sets, braces, quote⟩ := context
  cases quote with
  | some other =>
    obtain rfl : other = mark := by simpa [Context.closer?] using hcloser
    simp [Context.after]
  | none => simp [Context.closer?] at hcloser

/-- Behind an opening brace there are braces to be closed. -/
theorem Emits.opens_braces (h : Emits context (.bracket .expression true) next) :
    next.closer? = some (.bracket .expression false) := by
  obtain ⟨hquote, -, rfl⟩ := h
  simp [Context.closer?, Context.after, hquote]

end Emits

/-! ## All tokens -/

variable {source : String} {before after tokens : List Token} {progress : Progress}

/-- No quoted value is open inside braces at any point that a run comes to. -/
theorem Progress.Run.unmixed {last : Progress} {lexemes : List Lexeme}
    (h : progress.Run lexemes last) (hunmixed : progress.context.Unmixed) :
    last.context.Unmixed := by
  induction h with
  | nil => exact hunmixed
  | cons hstep _ ih => exact ih ((hstep.emits hunmixed).2.unmixed hunmixed)

theorem Reaches.unmixed (h : Reaches source before progress) : progress.context.Unmixed := by
  obtain ⟨lexemes, hrun, -⟩ := h
  exact hrun.unmixed (.inl rfl)

/-- From each point in a source that can be read, the next token is emitted. -/
theorem Reaches.exists_emits {token : Token} (h : Reaches source before progress)
    (htokens : tokenize source = .ok (before ++ token :: after)) :
    ∃ next, Reaches source (before ++ [token]) next ∧
      Emits progress.context token.kind next.context := by
  obtain ⟨lexeme, next, hstep, rfl, hreaches⟩ := h.exists_step htokens
  exact ⟨next, hreaches, (hstep.emits h.unmixed).2⟩

/-- Where something is open, the tokens are content up to the first one that closes it, or up to
the end. -/
theorem Reaches.exists_inner {closer : Kind} (h : Reaches source before progress)
    (htokens : tokenize source = .ok (before ++ after))
    (hcloser : progress.context.closer? = some closer) :
    ∃ inside behind inner, after = inside ++ behind ∧
      (∀ token ∈ inside, token.kind.isInner = true) ∧
      (∀ closing ∈ behind.head?, closing.kind = closer) ∧
      Reaches source (before ++ inside) inner ∧ inner.context.closer? = some closer := by
  induction after generalizing before progress with
  | nil =>
    refine ⟨[], [], progress, rfl, by simp, by simp, ?_, hcloser⟩
    rwa [List.append_nil]
  | cons token after ih =>
    obtain ⟨next, hnext, hemits⟩ := h.exists_emits htokens
    rcases hemits.closes_or_isInner h.unmixed hcloser with hcloses | ⟨hinner, hopen⟩
    · refine ⟨[], token :: after, progress, rfl, by simp, by simpa using hcloses, ?_, hcloser⟩
      rwa [List.append_nil]
    · obtain ⟨inside, behind, inner, rfl, hinside, hclosing, hreaches, hlast⟩ :=
        ih hnext (by rwa [List.append_assoc, List.singleton_append]) hopen
      refine ⟨token :: inside, behind, inner, rfl, List.forall_mem_cons.2 ⟨hinner, hinside⟩,
        hclosing, ?_, hlast⟩
      rwa [List.append_assoc, List.singleton_append] at hreaches

/-- The delimiters among the tokens of a source are paired, and they enclose only content. -/
structure Delimited (source : String) (tokens : List Token) : Prop where
  /-- Behind each beginning of the tokens there is one point of the reading. -/
  reached : ∀ before after, tokens = before ++ after → ∃! progress, Reaches source before progress
  /-- At no point a quoted value and braces are open at the same time. -/
  unmixed : ∀ before progress, Reaches source before progress →
    progress.context.quote = none ∨ progress.context.braces = 0
  /-- A quotation mark where no quoted value is open opens one. Up to the next quotation mark, which
  is the same and closes it, or up to the end, all tokens are content. -/
  quotes : ∀ before opening after mark progress, tokens = before ++ opening :: after →
    opening.kind = .quote mark → Reaches source before progress → progress.context.quote = none →
      (∃ inner, Reaches source (before ++ [opening]) inner ∧ inner.context.quote = some mark) ∧
      ∃ inside behind, after = inside ++ behind ∧ (∀ token ∈ inside, token.kind.isInner = true) ∧
        ∀ closing ∈ behind.head?, closing.kind = .quote mark ∧
          ∃ outer, Reaches source (before ++ opening :: (inside ++ [closing])) outer ∧
            outer.context.quote = none
  /-- Behind an opening brace, up to the next closing one or up to the end, all tokens are
  content. -/
  texts : ∀ before opening after, tokens = before ++ opening :: after →
    opening.kind = .bracket .expression true →
      ∃ inside behind, after = inside ++ behind ∧ (∀ token ∈ inside, token.kind.isInner = true) ∧
        ∀ closing ∈ behind.head?, closing.kind = .bracket .expression false

/-- Behind an opening brace, up to the next closing one or up to the end, all tokens are content. -/
theorem exists_inside_braces {before after : List Token} {opening : Token}
    (h : tokenize source = .ok (before ++ opening :: after))
    (hkind : opening.kind = .bracket .expression true) :
    ∃ inside behind, after = inside ++ behind ∧ (∀ token ∈ inside, token.kind.isInner = true) ∧
      ∀ closing ∈ behind.head?, closing.kind = .bracket .expression false := by
  obtain ⟨progress, hreaches, -⟩ := existsUnique_reaches h
  obtain ⟨inner, hinner, hemits⟩ := hreaches.exists_emits h
  rw [hkind] at hemits
  have htokens : tokenize source = .ok (before ++ [opening] ++ after) := by
    rwa [List.append_assoc, List.singleton_append]
  obtain ⟨inside, behind, -, rfl, hinside, hclosing, -⟩ :=
    hinner.exists_inner htokens hemits.opens_braces
  exact ⟨inside, behind, rfl, hinside, hclosing⟩

/-- The delimiters of a source that can be read are paired, and they enclose only content. -/
theorem delimited_of_tokenize (h : tokenize source = .ok tokens) : Delimited source tokens where
  reached before after hsplit := existsUnique_reaches (hsplit ▸ h)
  unmixed before progress hreaches := hreaches.unmixed
  quotes before opening after mark progress hsplit hkind hreaches hquote := by
    subst hsplit
    obtain ⟨inner, hinner, hemits⟩ := hreaches.exists_emits h
    rw [hkind] at hemits
    have hopen := hemits.opens_quote hquote
    have htokens : tokenize source = .ok (before ++ [opening] ++ after) := by
      rwa [List.append_assoc, List.singleton_append]
    have hopened : inner.context.closer? = some (.quote mark) := by
      rw [Context.closer?, hopen]
    obtain ⟨inside, behind, last, rfl, hinside, hclosing, hlast, hcloser⟩ :=
      hinner.exists_inner htokens hopened
    refine ⟨⟨inner, hinner, hopen⟩, inside, behind, rfl, hinside, fun closing hmem => ?_⟩
    have hmark := hclosing closing hmem
    obtain ⟨rest, rfl⟩ := List.head?_eq_some_iff.1 hmem
    -- The mark that closes the value is read at the point behind what is inside.
    obtain ⟨outer, houter, hcloses⟩ := hlast.exists_emits (by rwa [List.append_assoc])
    rw [hmark] at hcloses
    refine ⟨hmark, outer, ?_, hcloses.closes_quote hcloser⟩
    simpa using houter
  texts before opening after hsplit hkind := exists_inside_braces (hsplit ▸ h) hkind

/-- A quoted value in a set, which holds a brace and a number, and a text with braces inside, in
which quotation marks are plain. -/
theorem delimited_of_tokenize_nested :
    Delimited "a[b=\"\x7b$\"]\x7b\x7bc\"\x7d*\x7d" [⟨.literal "a", 0, 1⟩,
      ⟨.bracket .attributes true, 1, 2⟩, ⟨.literal "b", 2, 3⟩, ⟨.operator .equal, 3, 4⟩,
      ⟨.quote .double, 4, 5⟩, ⟨.literal "\x7b", 5, 6⟩, ⟨.numbering ⟨1, false, 1, 0⟩, 6, 7⟩,
      ⟨.quote .double, 7, 8⟩, ⟨.bracket .attributes false, 8, 9⟩,
      ⟨.bracket .expression true, 9, 10⟩, ⟨.literal "\x7bc\"\x7d*", 10, 15⟩,
      ⟨.bracket .expression false, 15, 16⟩] :=
  delimited_of_tokenize (by decide +kernel)

end Token

end Shorthand
