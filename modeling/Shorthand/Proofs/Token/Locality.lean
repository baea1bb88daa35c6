import Shorthand.Proofs.Token.Spelling

/-!
# How far tokens are read

A token is read in the same way wherever it stands, if the context before it is the same. What has
been read before matters only by its last character, and that only if it is a digit. What comes
behind matters only by its first character, or if that is a slash, also by the second one: a token
ends where it does because the character there does not belong to it.

So what comes behind a token can be replaced by something that begins in the same way, or by
nothing. Where nothing is open and the source ends without a backslash, a closing round bracket can
be put behind it as well, since that belongs to no other token. In particular a source without
backslashes that leaves nothing open is read between round brackets as it is read by itself.

## Main definitions

* `BeginsLike`: characters that begin in the same way, as far as the token before them is concerned;
* `Progress.EndsBare`: a source that is read to its end, where nothing is open.

## Main results

* `readNext_of_beginsLike`: what one round reads, if something else comes behind its token;
* `Progress.Run.replace`: what a run reads, if something else comes behind it;
* `Progress.Run.group`: what a run reads between brackets;
* `Progress.Run.exists_chained`: the context that the tokens of a run lead to.
-/

namespace Shorthand

open Text (isDigit isSpace width)

variable {context next : Context} {before before' : Option Char} {c : Char}
  {cs rest rest' source : List Char} {reading : Reading}

/-! ## What comes behind -/

/-- No token that ends before `rest` is read otherwise before `rest'`, where nothing is open. -/
structure BeginsLike (rest' rest : List Char) : Prop where
  /-- If it begins with a character, then with the same one or with a closing round bracket. -/
  head : ∀ c ∈ rest'.head?, c ∈ rest.head? ∨ c = ')'
  /-- Both begin with a digit, or neither does. -/
  digit : rest'.head?.any isDigit = rest.head?.any isDigit
  /-- If it begins with a slash, a digit comes behind the slash in both or in neither. -/
  fraction : '/' ∈ rest'.head? → rest'.tail.head?.any isDigit = rest.tail.head?.any isDigit

namespace BeginsLike

/-- What begins alike does so behind the same characters too. -/
theorem append (h : BeginsLike rest' rest) (text : List Char) :
    BeginsLike (text ++ rest') (text ++ rest) := by
  cases text with
  | nil => exact h
  | cons c text =>
    refine ⟨fun _ hmem => .inl hmem, rfl, fun _ => ?_⟩
    cases text with
    | nil => exact h.digit
    | cons => rfl

/-- A closing bracket can come behind the end of a source. -/
theorem closing (more : List Char) : BeginsLike (')' :: more) [] := by
  refine ⟨fun c hmem => .inr ?_, rfl, fun hmem => ?_⟩
  · simpa using hmem.symm
  · simp at hmem

section Runs

variable {p : Char → Bool}

/-- What `rest` does not begin with, `rest'` does not begin with either. -/
theorem stops (h : BeginsLike rest' rest) (hp : p ')' = false) (hrest : rest.head?.any p = false) :
    rest'.head?.any p = false := by
  cases rest' with
  | nil => rfl
  | cons c rest' =>
    rcases h.head c rfl with hmem | rfl
    · rwa [hmem] at hrest
    · exact hp

/-- A run of characters ends where it did, if the closing bracket does not belong to it. -/
theorem takeWhile_append (h : BeginsLike rest' (source.dropWhile p)) (hp : p ')' = false) :
    (source.takeWhile p ++ rest').takeWhile p = source.takeWhile p ∧
      (source.takeWhile p ++ rest').dropWhile p = rest' := by
  have hstop : rest'.head?.any p = false := by
    refine h.stops hp ?_
    cases hdrop : source.dropWhile p with
    | nil => rfl
    | cons c cs =>
      have hhead := List.head?_dropWhile_not p source
      rwa [hdrop] at hhead
  have hrun : ∀ c ∈ source.takeWhile p, p c = true := fun _ hmem => List.mem_takeWhile_imp hmem
  rw [List.takeWhile_append_of_pos hrun, List.dropWhile_append_of_pos hrun]
  cases rest' with
  | nil => simp
  | cons c rest' =>
    have hc : p c = false := hstop
    simp [hc]

/-- At most one character that may come first is taken as before. -/
theorem take_filter_append
    (h : BeginsLike rest' (source.drop ((source.take 1).filter p).length)) (hp : p ')' = false) :
    (((source.take 1).filter p ++ rest').take 1).filter p = (source.take 1).filter p := by
  cases hfirst : source.head?.any p with
  | true =>
    cases source with
    | nil => cases hfirst
    | cons c cs =>
      have hc : p c = true := hfirst
      simp [hc]
  | false =>
    have hnone : (source.take 1).filter p = [] := by
      cases source with
      | nil => rfl
      | cons c cs => simpa using hfirst
    rw [hnone] at h ⊢
    have hstop := h.stops hp hfirst
    cases rest' with
    | nil => rfl
    | cons c rest' =>
      have hc : p c = false := hstop
      simp [hc]

end Runs

end BeginsLike

/-! ## Atoms -/

namespace Atom

theorem repeater_of_beginsLike (h : BeginsLike rest' (repeater source).rest) :
    ∃ text, (repeater source).text = '*' :: text ∧
      repeater (text ++ rest') = { repeater source with rest := rest' } := by
  obtain ⟨htake, hdrop⟩ := h.takeWhile_append (by decide)
  refine ⟨_, rfl, ?_⟩
  rw [repeater, htake, hdrop]
  rfl

theorem modifiedNumbering_of_beginsLike {dollars : List Char}
    (h : BeginsLike rest' (modifiedNumbering dollars source).rest) :
    ∃ text, (modifiedNumbering dollars source).text = dollars ++ '@' :: text ∧
      modifiedNumbering dollars (text ++ rest') =
        { modifiedNumbering dollars source with rest := rest' } := by
  unfold modifiedNumbering at h ⊢
  dsimp only at h ⊢
  refine ⟨_, rfl, ?_⟩
  generalize hbehind : source.dropWhile (· == '^') = behind at h ⊢
  have hsplit := take_filter_append_drop (· == '-') behind
  obtain ⟨hdigits, hrest⟩ := h.takeWhile_append (by decide)
  -- The digits, and the minus sign, come behind the carets as before.
  have hlike := h.append
    ((behind.drop ((behind.take 1).filter (· == '-')).length).takeWhile isDigit)
  rw [List.takeWhile_append_dropWhile] at hlike
  have hminus := hlike.take_filter_append (by decide)
  have hlike' := hlike.append ((behind.take 1).filter (· == '-'))
  rw [hsplit, ← hbehind] at hlike'
  obtain ⟨hclimbs, htail⟩ := hlike'.takeWhile_append (by decide)
  rw [hbehind] at hclimbs htail
  simp only [List.append_assoc, hclimbs, htail, hminus, List.drop_left, hdigits, hrest]

theorem numbering_of_beginsLike (h : BeginsLike rest' (numbering source).rest) :
    numbering ((numbering source).text ++ rest') = { numbering source with rest := rest' } := by
  unfold numbering at h ⊢
  dsimp only at h ⊢
  split at h
  next modifiers hmodified =>
    obtain ⟨text, htext, hagain⟩ := modifiedNumbering_of_beginsLike h
    have hlike : BeginsLike ('@' :: (text ++ rest')) (source.dropWhile (· == '$')) := by
      refine ⟨fun c hmem => .inl ?_, ?_, ?_⟩
      · rwa [hmodified]
      · rw [hmodified]
        rfl
      · simp
    obtain ⟨htake, hdrop⟩ := hlike.takeWhile_append (by decide)
    rw [htext, List.append_assoc, List.cons_append, htake, hdrop, ← htext]
    exact hagain
  next hplain =>
    obtain ⟨htake, hdrop⟩ := h.takeWhile_append (by decide)
    dsimp only
    rw [htake, hdrop]
    -- Modifiers follow an at sign, with which `rest'` does not begin.
    split
    next modifiers =>
      rcases h.head '@' rfl with hmem | hclosing
      · obtain ⟨tail, htail⟩ := List.head?_eq_some_iff.1 hmem
        exact (hplain tail htail).elim
      · cases hclosing
    next => rfl

theorem blank_of_beginsLike (h : BeginsLike rest' (blank source).rest) :
    blank ((blank source).text ++ rest') = { blank source with rest := rest' } := by
  obtain ⟨htake, hdrop⟩ := h.takeWhile_append (by decide)
  unfold blank
  dsimp only
  rw [htake, hdrop]

/-- An atom is read again, whatever comes behind it that begins alike. -/
theorem read?_of_beginsLike (hatom : read? c cs = some reading)
    (h : BeginsLike rest' reading.rest) :
    ∃ text, reading.text = c :: text ∧
      read? c (text ++ rest') = some { reading with rest := rest' } := by
  obtain ⟨hsplit, hne⟩ := splits_of_read? hatom
  obtain ⟨d, text, htext⟩ := List.exists_cons_of_ne_nil hne
  rw [htext, List.cons_append] at hsplit
  obtain ⟨rfl, hcs⟩ := List.cons_eq_cons.1 hsplit
  refine ⟨text, htext, ?_⟩
  have hlike := h.append text
  rw [hcs] at hlike
  unfold read? at hatom ⊢
  split at hatom
  next hc =>
    subst hc
    rw [if_pos rfl]
    split at hatom
    next rest =>
      cases hatom
      obtain rfl : ['#'] = text := List.tail_eq_of_cons_eq htext
      rfl
    next hnumbering =>
      cases hatom
      have hagain := numbering_of_beginsLike h
      rw [htext, List.cons_append] at hagain
      -- A placeholder has a number sign behind the dollar sign, which was not there before.
      split
      next tail heq =>
        rcases hlike.head '#' (by rw [heq]; rfl) with hmem | hclosing
        · obtain ⟨tail, htail⟩ := List.head?_eq_some_iff.1 hmem
          exact (hnumbering tail htail).elim
        · cases hclosing
      next => rw [hagain]
  next hc =>
    rw [if_neg hc]
    split at hatom
    next hstar =>
      subst hstar
      cases hatom
      obtain ⟨digits, hdigits, hagain⟩ := repeater_of_beginsLike h
      obtain rfl : digits = text := List.tail_eq_of_cons_eq (hdigits.symm.trans htext)
      rw [if_pos rfl, hagain]
    next hstar =>
      split at hatom
      next hspace =>
        cases hatom
        have hagain := blank_of_beginsLike h
        rw [htext, List.cons_append] at hagain
        rw [if_neg hstar, if_pos hspace, hagain]
      next => cases hatom

end Atom

/-! ## Fields -/

/-- A field ends with its brace, whatever comes behind it. -/
theorem Field.read_replace (h : Field.read source = .ok reading) :
    ∃ text, reading.text = '$' :: '{' :: text ∧
      ∀ rest', Field.read (text ++ rest') = .ok { reading with rest := rest' } := by
  have hspells := Field.spells_of_read h
  obtain ⟨field, hkind⟩ := Token.exists_field_of_read h
  obtain ⟨kind, text, rest⟩ := reading
  obtain rfl : kind = .field field := hkind
  cases hspells with
  | @field body field hbalanced hbody =>
    refine ⟨body ++ ['}'], rfl, fun rest' => ?_⟩
    rw [List.append_assoc]
    exact Field.read_of_spells hbalanced hbody rest'

/-! ## Literals -/

namespace Literal

/-- What stands on either side of a slash matters only if it is a digit. -/
theorem isFraction_congr {cs' : List Char} (hbefore : before'.any isDigit = before.any isDigit)
    (hcs : c = '/' → cs'.head?.any isDigit = cs.head?.any isDigit) :
    isFraction context before' c cs' = isFraction context before c cs := by
  unfold isFraction
  by_cases hc : c = '/'
  · rw [hbefore, hcs hc]
  · have hslash : (c == '/') = false := by simpa using hc
    simp [hslash]

/-- Where a run of plain text ends at once, it does so too before what begins alike. -/
theorem run_stop_of_beginsLike {opened : Nat} (hbefore : before'.any isDigit = before.any isDigit)
    (h : BeginsLike rest' rest) (hstop : run context before opened rest = .stop opened rest)
    (hends : ∀ c ∈ rest'.head?, c ∈ rest.head? ∨ endsBefore context opened ')' = true) :
    run context before' opened rest' = .stop opened rest' := by
  cases rest' with
  | nil => rfl
  | cons c cs' =>
    by_cases hmem : c ∈ rest.head?
    · obtain ⟨cs, rfl⟩ := List.head?_eq_some_iff.1 hmem
      have hfraction := @isFraction_congr context before before' c cs cs' hbefore fun hc =>
        h.fraction (by rw [hc]; rfl)
      by_cases hescape : c = '\\'
      · subst hescape
        cases cs <;> cases hstop
      · rw [run_cons hescape, hfraction]
        rw [run_cons hescape] at hstop
        split at hstop
        next => cases hstop
        next hkeeps => exact if_neg hkeeps
    · -- A character that is not the same is a closing bracket, which ends the text here.
      obtain rfl := (h.head c rfl).resolve_left hmem
      exact run_eq_stop (by decide) (by simp [isFraction]) ((hends _ rfl).resolve_left hmem)

/-- Plain text ends where it did. Only if the source ended there it may have ended with a backslash
that escaped nothing, and only then a closing bracket may come next, which has to end it. -/
theorem run_of_beginsLike {opened : Nat} (hbefore : before'.any isDigit = before.any isDigit)
    (h : BeginsLike rest' (run context before opened source).rest)
    (hescape : (run context before opened source).rest = [] → rest' = [] ∨ '\\' ∉ source)
    (hends : ∀ c ∈ rest'.head?, c ∈ (run context before opened source).rest.head? ∨
      endsBefore context (run context before opened source).opened ')' = true) :
    run context before' opened ((run context before opened source).text ++ rest') =
      { run context before opened source with rest := rest' } := by
  fun_induction run context before opened source generalizing before' with
  | case1 before opened => exact run_stop_of_beginsLike hbefore h rfl hends
  | case2 before opened =>
    -- The source ends with a backslash, which would escape whatever came behind it.
    obtain rfl : rest' = [] := (hescape rfl).resolve_right (by simp)
    rfl
  | case3 before opened escaped cs ih =>
    have hmore := ih rfl h (fun hend => (hescape hend).imp_right fun hmem => by simp at hmem) hends
    show run context before' opened ('\\' :: escaped :: (_ ++ rest')) = _
    rw [run_escape, hmore]
    rfl
  | case4 before opened c cs hc hgo ih =>
    have hmore := ih rfl h
      (fun hend => (hescape hend).imp_right fun hmem hcs => hmem (List.mem_cons_of_mem c hcs)) hends
    -- What comes behind the character begins alike, so it is a fraction again if it was one.
    have hlike : BeginsLike (_ ++ rest') (_ ++ _) :=
      h.append (run context (some c) (countBraces context opened c) cs).text
    have hfraction : isFraction context before' c (_ ++ rest') = isFraction context before c _ :=
      isFraction_congr hbefore fun _ => hlike.digit
    have hsplit := run_text_append_rest context (some c) (countBraces context opened c) cs
    rw [show _ ++ ((run context (some c) _ cs).keep c).rest = cs from hsplit] at hfraction
    show run context before' opened (c :: (_ ++ rest')) = _
    rw [run_cons hc, hfraction, if_pos hgo, hmore]
    rfl
  | case5 before opened c cs hc hstops =>
    refine run_stop_of_beginsLike hbefore h ?_ hends
    show run context before opened (c :: cs) = .stop opened (c :: cs)
    rw [run_cons hc, if_neg hstops]

/-- A literal is read again before what begins alike. Only where nothing is open may a closing
bracket come behind it that was not there before. -/
theorem read?_of_beginsLike (hbefore : before'.any isDigit = before.any isDigit)
    (hliteral : read? context before source = some (reading, next))
    (h : BeginsLike rest' reading.rest) (hescape : reading.rest = [] → rest' = [] ∨ '\\' ∉ source)
    (hends : (∀ c ∈ rest'.head?, c ∈ reading.rest.head?) ∨ next = {}) :
    read? context before' (reading.text ++ rest') =
      some ({ reading with rest := rest' }, next) := by
  unfold read? at hliteral ⊢
  dsimp only at hliteral ⊢
  split at hliteral
  next => cases hliteral
  next hne =>
    cases hliteral
    rw [run_of_beginsLike hbefore h hescape]
    · exact if_neg hne
    · intro c hmem
      refine hends.imp (fun hhead => hhead c hmem) fun hbare => ?_
      -- Nothing is open behind the literal, so nothing was before it.
      obtain ⟨sets, braces, quote⟩ := context
      simp only [Context.mk.injEq, Nat.add_eq_zero_iff] at hbare
      obtain ⟨rfl, ⟨rfl, hopened⟩, rfl⟩ := hbare
      rw [hopened]
      decide

/-- Where no literal is read, none is read before what begins alike. -/
theorem read?_eq_none_of_beginsLike {cs' : List Char}
    (hbefore : before'.any isDigit = before.any isDigit)
    (hnone : read? context before (c :: cs) = none) (h : BeginsLike cs' cs) :
    read? context before' (c :: cs') = none := by
  obtain ⟨hescape, hfraction, hends⟩ := read?_eq_none_iff.1 hnone
  refine read?_eq_none_iff.2 ⟨hescape, ?_, hends⟩
  rw [isFraction_congr hbefore fun _ => h.digit, hfraction]

end Literal

namespace Token

/-! ## Rounds of the reading -/

/-- A glyph is told from its character alone. -/
theorem readGlyph?_replace (h : readGlyph? c cs = some reading) (rest' : List Char) :
    reading.text = [c] ∧ readGlyph? c rest' = some { reading with rest := rest' } := by
  unfold readGlyph? at h ⊢
  simp only [Option.map_eq_some_iff] at h ⊢
  obtain ⟨kind, hkind, rfl⟩ := h
  exact ⟨rfl, kind, hkind, rfl⟩

/-- One round reads what it reads before something that begins alike. Only where nothing is open
may a closing bracket come behind its token that was not there before. -/
theorem readNext_of_beginsLike (hbefore : before'.any isDigit = before.any isDigit)
    (hnext : readNext context before c cs = .ok (reading, next))
    (h : BeginsLike rest' reading.rest) (hescape : reading.rest = [] → rest' = [] ∨ '\\' ∉ c :: cs)
    (hends : (∀ c ∈ rest'.head?, c ∈ reading.rest.head?) ∨ next = {}) :
    ∃ text, reading.text = c :: text ∧
      readNext context before' c (text ++ rest') = .ok ({ reading with rest := rest' }, next) := by
  obtain ⟨hsplit, hne⟩ := splits_of_readNext hnext
  obtain ⟨d, text, htext⟩ := List.exists_cons_of_ne_nil hne
  rw [htext, List.cons_append] at hsplit
  obtain ⟨rfl, hcs⟩ := List.cons_eq_cons.1 hsplit.symm
  refine ⟨text, htext, ?_⟩
  have hlike := h.append text
  rw [← hcs] at hlike
  unfold readNext at hnext ⊢
  split at hnext
  next hfield =>
    obtain ⟨body, rfl⟩ : ∃ body, cs = '{' :: body := by
      simp only [Bool.and_eq_true, beq_iff_eq] at hfield
      exact List.head?_eq_some_iff.1 hfield.2
    rw [List.tail_cons] at hnext
    obtain ⟨field, hread, heq⟩ := Except.map_eq_ok_iff.1 hnext
    cases heq
    obtain ⟨inner, hinner, hagain⟩ := Field.read_replace hread
    obtain ⟨rfl, rfl⟩ := List.cons_eq_cons.1 (hinner.symm.trans htext)
    have hfield' : (context.allowsField && '$' == '$' &&
        ('{' :: inner ++ rest').head? == some '{') = true := hfield
    rw [if_pos hfield', List.cons_append, List.tail_cons, hagain]
    rfl
  next hfield =>
    -- A field is told by the brace behind the dollar sign, which was not there before.
    have hfield' :
        ¬(context.allowsField && c == '$' && (text ++ rest').head? == some '{') = true := by
      intro hagain
      simp only [Bool.and_eq_true, beq_iff_eq] at hfield hagain
      refine hfield ⟨hagain.1, ?_⟩
      exact (hlike.head '{' hagain.2).resolve_right (by decide)
    rw [if_neg hfield']
    split at hnext
    next hatom =>
      cases hnext
      obtain ⟨text', htext', hagain⟩ := Atom.read?_of_beginsLike hatom h
      obtain rfl := List.tail_eq_of_cons_eq (htext'.symm.trans htext)
      rw [hagain]
    next hatom =>
      rw [Atom.read?_eq_none_iff.2 (Atom.read?_eq_none_iff.1 hatom)]
      dsimp only
      split at hnext
      next hliteral =>
        cases hnext
        have hagain := Literal.read?_of_beginsLike hbefore hliteral h hescape hends
        rw [htext, List.cons_append] at hagain
        rw [hagain]
        dsimp only
        rw [htext]
      next hliteral =>
        rw [Literal.read?_eq_none_of_beginsLike hbefore hliteral hlike]
        dsimp only
        split at hnext
        next hglyph =>
          cases hnext
          obtain ⟨hsingle, hagain⟩ := readGlyph?_replace hglyph rest'
          obtain rfl : text = [] := List.tail_eq_of_cons_eq (htext.symm.trans hsingle)
          rw [List.nil_append, hagain]
        next => cases hnext

/-! ## Runs -/

namespace Progress

/-- A source that is read to its end, where nothing is open. -/
def EndsBare (source : List Char) : Prop :=
  ∃ lexemes last, (start source).Run lexemes last ∧ last.rest = [] ∧ last.context = {}

/-- What a run reads up to a point where nothing is open is read again behind other characters and
before others that begin alike, as long as the last of the characters before it is a digit in both
cases or in neither. -/
theorem Run.replace {progress last : Progress} {lexemes : List Lexeme}
    (h : progress.Run lexemes last) {read : List Char}
    (hread : read.getLast?.any isDigit = progress.read.getLast?.any isDigit)
    (hlike : BeginsLike rest' last.rest)
    (hescape : last.rest = [] → rest' = [] ∨ '\\' ∉ progress.rest) (hbare : last.context = {}) :
    Run ⟨read, (lexemes.map Lexeme.text).flatten ++ rest', progress.context⟩ lexemes
      ⟨read ++ (lexemes.map Lexeme.text).flatten, rest', {}⟩ := by
  induction h generalizing read with
  | nil progress =>
    rw [hbare, List.map_nil, List.flatten_nil, List.append_nil]
    exact .nil _
  | @cons progress next last lexeme lexemes hstep hrun ih =>
    -- Behind the first token come the others and `rest'`, which begin like what was there before.
    obtain ⟨-, hrest, -⟩ := hstep.advances
    have hnextRest := hrun.advances.2
    obtain ⟨hnext⟩ := hstep
    rename_i before cs c context behind reading
    dsimp only at hescape hread hrest hnextRest ih ⊢
    have hlike' := hlike.append (lexemes.map Lexeme.text).flatten
    rw [← hnextRest] at hlike'
    -- The token is the last one, behind which nothing is open, or another one comes behind it.
    have hends : (∀ c ∈ ((lexemes.map Lexeme.text).flatten ++ rest').head?,
        c ∈ reading.rest.head?) ∨ behind = {} := by
      cases hrun with
      | nil => exact .inr hbare
      | cons hlater =>
        refine .inl fun c hmem => ?_
        obtain ⟨-, -, hne⟩ := hlater.advances
        rw [List.map_cons, List.flatten_cons, List.append_assoc] at hnextRest hmem
        rw [List.head?_append_of_ne_nil _ hne] at hmem
        rwa [hnextRest, List.head?_append_of_ne_nil _ hne]
    -- If the source ends behind the first token, no other token comes behind it.
    have hescapeHere : reading.rest = [] →
        (lexemes.map Lexeme.text).flatten ++ rest' = [] ∨ '\\' ∉ c :: cs := by
      intro hnil
      rw [hnextRest] at hnil
      obtain ⟨hflat, hend⟩ := List.append_eq_nil_iff.1 hnil
      refine (hescape hend).imp_left fun hnone => ?_
      rw [hflat, hnone, List.append_nil]
    obtain ⟨text, htext, hagain⟩ := readNext_of_beginsLike hread hnext hlike' hescapeHere hends
    have hfirst : Step ⟨read, c :: (text ++ ((lexemes.map Lexeme.text).flatten ++ rest')), context⟩
        ⟨reading.kind, reading.text, context⟩
        ⟨read ++ reading.text, (lexemes.map Lexeme.text).flatten ++ rest', behind⟩ := .intro hagain
    have hdigit : (read ++ reading.text).getLast?.any isDigit =
        (before ++ reading.text).getLast?.any isDigit := by
      rw [getLast?_read_append hnext, getLast?_read_append hnext]
    have hescape' : last.rest = [] → rest' = [] ∨ '\\' ∉ reading.rest := fun hend =>
      (hescape hend).imp_right fun hmem hbackslash =>
        hmem (by rw [hrest]; exact List.mem_append_right _ hbackslash)
    have hall := Run.cons hfirst (ih hdigit hlike hescape' hbare)
    rw [← List.cons_append, ← htext] at hall
    rwa [List.map_cons, List.flatten_cons, List.append_assoc, ← List.append_assoc read]

/-- A character that is a token of its own where nothing is open. -/
theorem step_of_bare {reading : Reading} (hglyph : readGlyph? c cs = some reading)
    (hchar : c ≠ '\\' ∧ c ≠ '/') (hends : Literal.endsBefore {} 0 c = true) (read : List Char) :
    Step ⟨read, c :: cs, {}⟩ ⟨reading.kind, reading.text, {}⟩
      ⟨read ++ reading.text, reading.rest, Context.after {} reading.kind⟩ := by
  have hfraction : Literal.isFraction {} read.getLast? c cs = false := by
    simp [Literal.isFraction, hchar.2]
  exact .intro (readNext_eq_glyph hglyph (Literal.read?_eq_none_iff.2 ⟨hchar.1, hfraction, hends⟩))

/-- What a source is read as that leaves nothing open, it is read as between the brackets of a
group. -/
theorem Run.group {source : List Char} {last : Progress} {lexemes : List Lexeme}
    (h : (start source).Run lexemes last) (hescape : '\\' ∉ source) (hend : last.rest = [])
    (hbare : last.context = {}) (read more : List Char) :
    Run ⟨read, '(' :: (source ++ ')' :: more), {}⟩
      (⟨.bracket .group true, ['('], {}⟩ ::
        (lexemes ++ [⟨.bracket .group false, [')'], {}⟩]))
      ⟨read ++ '(' :: (source ++ [')']), more, {}⟩ := by
  have hopening : Step ⟨read, '(' :: (source ++ ')' :: more), {}⟩ _ _ :=
    step_of_bare (readGlyph?_bracket .group true _) (by decide) (by decide) read
  -- Before a slash at the beginning of the source stands no digit, as in the source by itself.
  have hdigit : (read ++ ['(']).getLast?.any isDigit =
      (start source).read.getLast?.any isDigit := by
    rw [List.getLast?_concat]
    rfl
  have hsource : (lexemes.map Lexeme.text).flatten = source := by
    have hadvances := h.advances.2
    rw [hend, List.append_nil] at hadvances
    exact hadvances.symm
  have hlike : BeginsLike (')' :: more) last.rest := by
    rw [hend]
    exact .closing more
  have hinside := h.replace hdigit hlike (fun _ => .inr hescape) hbare
  rw [hsource] at hinside
  have hclosing : Step ⟨read ++ ['('] ++ source, ')' :: more, {}⟩ _ _ :=
    step_of_bare (readGlyph?_bracket .group false _) (by decide) (by decide) _
  have hall := Run.cons hopening (hinside.append (.cons hclosing (.nil _)))
  rwa [List.append_assoc, List.append_assoc] at hall

end Progress

/-! ## The end of a source -/

/-- No token begins behind the last one. -/
theorem contextAmong?_eq_none {start offset : Nat} {lexemes : List Lexeme}
    (hne : ∀ lexeme ∈ lexemes, lexeme.text ≠ [])
    (hle : start + width (lexemes.map Lexeme.text).flatten ≤ offset) :
    contextAmong? start offset lexemes = none := by
  induction lexemes generalizing start with
  | nil => rfl
  | cons lexeme lexemes ih =>
    obtain ⟨hlexeme, hne⟩ := List.forall_mem_cons.1 hne
    have hpos : width lexeme.text ≠ 0 := by rwa [ne_eq, Text.width_eq_zero_iff]
    rw [List.map_cons, List.flatten_cons, Text.width_append] at hle
    rw [contextAmong?, if_neg (by omega)]
    exact ih hne (by omega)

theorem endOf_place (start : Nat) (lexemes : List Lexeme) :
    endOf start (place start lexemes) = start + width (lexemes.map Lexeme.text).flatten := by
  induction lexemes generalizing start with
  | nil => rfl
  | cons lexeme lexemes ih =>
    rw [List.map_cons, List.flatten_cons, Text.width_append, ← Nat.add_assoc]
    exact ih _

/-- Wherever the tokens of a run are placed, they are chained, and lead to the context in which the
run ends. -/
theorem Progress.Run.exists_chained {progress last : Progress} {lexemes : List Lexeme}
    (h : progress.Run lexemes last) (hunmixed : progress.context.Unmixed) (start : Nat) :
    ∃ contexts : Nat → Context, Chained contexts start (place start lexemes) ∧
      contexts (endOf start (place start lexemes)) = last.context := by
  refine ⟨fun offset => (contextAmong? start offset lexemes).getD last.context,
    (h.chained hunmixed start fun _ _ => rfl).2, ?_⟩
  dsimp only
  rw [contextAmong?_eq_none h.text_ne_nil (endOf_place start lexemes).ge, Option.getD_none]

end Token

end Shorthand
