import Shorthand.Proofs.Toml.Numbers
import Shorthand.Proofs.Toml.Tokens
import Shorthand.Toml.Reader

/-!
# Reading TOML

A text that spells a document is read as that document. Each rule of the grammar takes the reader
from one state to another, whatever follows, as long as it does not go on with what has been read.
The lines of a text act on the contents of the document one after the other, and no two of them get
in each other's way, since no name is given twice.

## Main definitions

* `State.readOn`: where the reader gets to from a state on;
* `Line.perform?`: what a line does to the contents of a document.

## Main results

* `SpellsValue.readOn`: a value takes the reader to the state behind that value;
* `SpellsLines.readOn`: lines act on the contents of the document.
-/

namespace Shorthand.Toml

variable {c : Char} {cs rest : List Char} {document : Document}

namespace State

variable {s s' : State}

/-- Where the reader gets to from a state on. The end of the text ends its last line. -/
def readOn (s : State) (text : List Char) : Option State :=
  (tokens? text).bind fun tokens => (tokens ++ [Token.newline]).foldlM step s

theorem readOn_nil (s : State) : s.readOn [] = step s .newline := by
  rw [readOn, tokens?, Option.bind_some, List.nil_append, List.foldlM_cons]
  cases step s .newline <;> rfl

theorem tokens?_cons {token? : Option Token} (hread : readToken? c cs = some (token?, rest)) :
    tokens? (c :: cs) = (tokens? rest).map (token?.toList ++ ·) := by
  rw [tokens?]
  split
  next hnone => cases hread.symm.trans hnone
  next hsome =>
    obtain ⟨rfl, rfl⟩ := Prod.mk.inj (Option.some.inj (hread.symm.trans hsome))
    rfl

theorem readOn_token {token : Token} (hread : readToken? c cs = some (some token, rest)) :
    s.readOn (c :: cs) = (step s token).bind fun s' => s'.readOn rest := by
  rw [readOn, tokens?_cons hread]
  cases htokens : tokens? rest with
  | none => cases step s token <;> simp [readOn, htokens]
  | some tokens =>
    rw [Option.map_some, Option.bind_some, Option.toList_some, List.singleton_append,
      List.cons_append, List.foldlM_cons]
    cases step s token <;> simp [readOn, htokens]

/-! ## Layout -/

/-- Blanks make no difference where they are skipped. -/
theorem readOn_dropWhile (hstep : ∀ run, step s (.blank run) = some s) (rest : List Char) :
    s.readOn rest = s.readOn (rest.dropWhile isBlank) := by
  cases rest with
  | nil => rfl
  | cons c cs =>
    by_cases hc : isBlank c = true
    · rw [readOn_token (readToken?_blank hc), hstep, Option.bind_some,
        List.dropWhile_cons_of_pos hc]
    · rw [List.dropWhile_cons_of_neg hc]

theorem readOn_blanks (hstep : ∀ run, step s (.blank run) = some s) {blanks : List Char}
    (h : IsBlanks blanks) : s.readOn (blanks ++ rest) = s.readOn rest := by
  -- The blanks and those that follow them are read as one run.
  have hblanks : ∀ c ∈ blanks, isBlank c = true := fun c hc => isBlank_iff.2 (h c hc)
  rw [readOn_dropWhile hstep, List.dropWhile_append_of_pos hblanks, ← readOn_dropWhile hstep]

theorem readOn_newline {newline : List Char} (h : IsNewline newline) :
    s.readOn (newline ++ rest) = (step s .newline).bind fun s' => s'.readOn rest := by
  rcases h with rfl | rfl <;> exact readOn_token rfl

/-- The end of a line, at which the text may end. -/
def AtLineEnd (rest : List Char) : Prop :=
  rest = [] ∨ ∃ newline more, rest = newline ++ more ∧ IsNewline newline

theorem AtLineEnd.ends (h : AtLineEnd rest) : Ends rest := by
  rcases h with rfl | ⟨newline, more, rfl, hnewline⟩
  · exact ends_nil
  · exact ends_newline hnewline

/-- All that matters of a state at the end of a line is where the line break takes the reader. -/
theorem AtLineEnd.readOn_congr (h : AtLineEnd rest) (hstep : step s .newline = step s' .newline) :
    s.readOn rest = s'.readOn rest := by
  rcases h with rfl | ⟨newline, more, rfl, hnewline⟩
  · rw [readOn_nil, readOn_nil, hstep]
  · rw [readOn_newline hnewline, readOn_newline hnewline, hstep]

/-- A comment makes no difference. -/
theorem readOn_comment {comment : List Char} (h : IsComment comment) (hrest : AtLineEnd rest) :
    s.readOn (comment ++ rest) = s.readOn rest := by
  rcases h with rfl | ⟨body, rfl, hbody⟩
  · rfl
  · have hhead : ∀ c ∈ rest.head?, c = '\n' ∨ c = '\r' := by
      rcases hrest with rfl | ⟨newline, more, rfl, rfl | rfl⟩
      · nofun
      · rintro c ⟨⟩
        exact .inl rfl
      · rintro c ⟨⟩
        exact .inr rfl
    rw [List.cons_append, State.readOn, tokens?_cons (readToken?_comment hbody hhead), State.readOn]
    cases tokens? rest <;> rfl

/-- Blanks, comments and line breaks make no difference where they are skipped. -/
theorem readOn_gap (hstep : ∀ token, isLayout token = true → step s token = some s)
    {gap : List Char} (h : IsGap gap) : s.readOn (gap ++ rest) = s.readOn rest := by
  induction h with
  | blanks h => exact readOn_blanks (fun run => hstep _ rfl) h
  | line hblanks hcomment hnewline _ ih =>
    rw [List.append_assoc, List.append_assoc, List.append_assoc,
      readOn_blanks (fun run => hstep _ rfl) hblanks,
      readOn_comment hcomment (.inr ⟨_, _, rfl, hnewline⟩), readOn_newline hnewline,
      hstep _ rfl, Option.bind_some, ih]

/-- A bracket, an equals sign or a comma is a token. -/
theorem readOn_glyph {token : Token} (hglyph : glyph? c = some token) :
    s.readOn (c :: rest) = (step s token).bind fun s' => s'.readOn rest := by
  refine readOn_token ?_
  rw [readToken?.eq_def, hglyph]

end State

open State

/-! ## Keys -/

/-- Letters, digits, underscores and signs belong to atoms. -/
theorem isAtomChar_of_isAlphanum
    (h : c.isAlphanum = true ∨ c = '-' ∨ c = '_' ∨ c = '+') : isAtomChar c = true := by
  rcases h with h | rfl | rfl | rfl
  · have hne {d : Char} (hd : d.isAlphanum = false) : c ≠ d := by
      rintro rfl
      cases h.symm.trans hd
    have hglyph : glyph? c = none := by
      unfold glyph?
      split
      all_goals first | cases h | rfl
    simp [isAtomChar, isBlank, hglyph, hne (d := ' ') rfl, hne (d := '\t') rfl,
      hne (d := '\n') rfl, hne (d := '\r') rfl, hne (d := '"') rfl, hne (d := '\x27') rfl,
      hne (d := '#') rfl]
  · rfl
  · rfl
  · rfl

/-- A state in which a key may begin. -/
structure State.AwaitsKey (s : State) (place : Place) : Prop where
  string (text : String) : step s (.string text false) = s.addPart place [] text
  atom {text : List Char} (h : text.all isBareKeyChar = true) :
    step s (.atom text) = s.addPart place [] (String.ofList text)

/-- A key takes the reader to the state behind it. -/
theorem SpellsKey.readOn {name : List Char} {key : String} (h : SpellsKey name key) {s : State}
    {place : Place} (hs : s.AwaitsKey place) (hrest : Ends rest) :
    s.readOn (name ++ rest) = State.readOn { s with phase := .key place [key] true } rest := by
  cases h with
  | bare hne h =>
    obtain ⟨c, cs, rfl⟩ := List.exists_cons_of_ne_nil hne
    have hatom : ∀ d ∈ c :: cs, isAtomChar d = true := fun d hd =>
      isAtomChar_of_isAlphanum ((h d hd).imp_right (Or.imp_right .inl))
    have hbare : (c :: cs).all isBareKeyChar = true := by
      simpa [isBareKeyChar, or_assoc] using h
    rw [List.cons_append, readOn_token (readToken?_atom hatom fun d hd => (hrest d hd).1),
      hs.atom hbare]
    rfl
  | quoted h =>
    obtain ⟨cs, rfl, hread⟩ := h.exists_readToken? hrest.head?_ne
    rw [List.cons_append, readOn_token hread, hs.string]
    rfl

/-! ## Values -/

/-- A state in which a value may begin. -/
def State.AwaitsValue (s : State) : Prop :=
  ∀ token, isLayout token = false → token ≠ .closeBracket → step s token = s.beginValue token

/-- Behind a value only a separator or the end of what holds the value may follow. -/
theorem step_of_finish {s s' : State} (h : s.finish document = some s') (token : Token) :
    step s' token = s'.stepEnd token := by
  unfold finish at h
  split at h
  next =>
    obtain ⟨root, -, rfl⟩ := Option.map_eq_some_iff.1 h
    rfl
  next =>
    cases h
    rfl
  next =>
    obtain ⟨entries, -, rfl⟩ := Option.map_eq_some_iff.1 h
    rfl
  next => cases h

/-- Whether a token goes on with a scalar. -/
def goesOn : Token → Bool
  | .atom _ | .dot => true
  | _ => false

theorem step_scalar {s : State} {text : List Char} {token : Token} (hdate : isDate text = false)
    (htoken : goesOn token = false) :
    step { s with phase := .scalar text } token = ((scalar? text).bind s.finish).bind
      fun s' => s'.stepEnd token := by
  have hend : step { s with phase := .scalar text } token =
      stepScalarEnd { s with phase := .scalar text } text token := by
    cases token with
    | atom | dot => cases htoken
    | blank run =>
      rw [step.eq_def]
      split <;> simp_all
    | _ => rfl
  rw [hend, stepScalarEnd]
  rfl

theorem goesOn_glyph {token : Token} (hglyph : glyph? c = some token) (hc : c ≠ '.') :
    goesOn token = false := by
  unfold glyph? at hglyph
  split at hglyph
  next => exact absurd rfl hc
  all_goals cases hglyph <;> rfl

/-- A string is no part of a scalar. -/
theorem goesOn_readString? {mark : Char} {read? : Bool → List Char → Option (List Char × List Char)}
    {token : Token} (hread : readString? mark read? cs = some (token, rest)) :
    goesOn token = false := by
  unfold readString? at hread
  split at hread
  all_goals
    obtain ⟨_, -, heq⟩ := Option.map_eq_some_iff.1 hread
    cases heq
    rfl

/-- A carriage return begins a line break or no token. -/
theorem goesOn_readToken?_return {token? : Option Token}
    (hread : readToken? '\r' cs = some (token?, rest)) :
    ∃ token, token? = some token ∧ goesOn token = false := by
  have hglyph : glyph? '\r' = none := rfl
  have hblank : isBlank '\r' = false := rfl
  rw [readToken?.eq_def, hglyph] at hread
  simp only [hblank, Bool.false_eq_true, if_false, Char.reduceEq, if_true] at hread
  split at hread
  next =>
    cases hread
    exact ⟨_, rfl, rfl⟩
  next => cases hread

/-- What stands behind a comment ends the line. -/
theorem head?_skipComment? (h : skipComment? cs = some rest) :
    ∀ c ∈ rest.head?, c = '\n' ∨ c = '\r' := by
  rw [skipComment?] at h
  split at h
  next =>
    cases h
    intro c hc
    have hstop := List.head?_dropWhile_not (fun c => c != '\n' && c != '\r') cs
    rw [hc] at hstop
    simpa [Decidable.imp_iff_not_or] using hstop
  next => cases h

/-- What follows neither goes on with a scalar nor hides a token behind a comment that does. -/
theorem goesOn_readToken? {token? : Option Token} (hread : readToken? c cs = some (token?, rest))
    (hc : isAtomChar c = false ∧ c ≠ '.') :
    (∃ token, token? = some token ∧ goesOn token = false) ∨
      token? = none ∧ ∀ d ∈ rest.head?, isAtomChar d = false ∧ d ≠ '.' := by
  obtain ⟨hatom, hdot⟩ := hc
  rcases of_isAtomChar_eq_false hatom with ⟨token, hglyph⟩ | hblank | rfl | rfl | rfl | rfl | rfl
  · rw [readToken?.eq_def, hglyph] at hread
    cases hread
    exact .inl ⟨token, rfl, goesOn_glyph hglyph hdot⟩
  · rw [readToken?_blank hblank] at hread
    cases hread
    exact .inl ⟨_, rfl, rfl⟩
  · have hnewline : readToken? '\n' cs = some (some .newline, cs) := rfl
    rw [hnewline] at hread
    cases hread
    exact .inl ⟨_, rfl, rfl⟩
  · exact .inl (goesOn_readToken?_return hread)
  · rw [readToken?_quote] at hread
    obtain ⟨⟨token, _⟩, hstring, heq⟩ := Option.map_eq_some_iff.1 hread
    cases heq
    exact .inl ⟨token, rfl, goesOn_readString? hstring⟩
  · rw [readToken?_apostrophe] at hread
    obtain ⟨⟨token, _⟩, hstring, heq⟩ := Option.map_eq_some_iff.1 hread
    cases heq
    exact .inl ⟨token, rfl, goesOn_readString? hstring⟩
  · rw [readToken?_hash] at hread
    obtain ⟨_, hskip, heq⟩ := Option.map_eq_some_iff.1 hread
    cases heq
    refine .inr ⟨rfl, fun d hd => ?_⟩
    rcases head?_skipComment? hskip d hd with rfl | rfl <;> decide

/-- What follows a value is no token that goes on with it. -/
theorem Ends.goesOn_head (h : Ends rest) {tokens : List Token}
    (htokens : tokens? rest = some tokens) :
    ∀ token ∈ tokens.head?, goesOn token = false := by
  have hrest : ∀ c ∈ rest.head?, isAtomChar c = false ∧ c ≠ '.' :=
    fun c hc => ⟨(h c hc).1, (h c hc).2.1⟩
  clear h
  -- A comment is no token, and what stands behind it is looked at next.
  fun_induction tokens? rest generalizing tokens with
  | case1 =>
    cases htokens
    nofun
  | case2 => cases htokens
  | case3 c cs token? rest hread _ ih =>
    obtain ⟨more, hmore, rfl⟩ := Option.map_eq_some_iff.1 htokens
    rcases goesOn_readToken? hread (hrest c rfl) with ⟨token, rfl, htoken⟩ | ⟨rfl, hbehind⟩
    · rintro _ ⟨⟩
      exact htoken
    · exact ih hmore hbehind

/-- A scalar that has been read as an atom is complete before the next token. -/
theorem readOn_scalar {s s' : State} {text : List Char} (hscalar : scalar? text = some document)
    (hdate : isDate text = false) (hfinish : s.finish document = some s') (hrest : Ends rest) :
    State.readOn { s with phase := .scalar text } rest = s'.readOn rest := by
  have hstep {token : Token} (htoken : goesOn token = false) :
      step { s with phase := .scalar text } token = step s' token := by
    rw [step_scalar hdate htoken, hscalar, Option.bind_some, hfinish, Option.bind_some,
      step_of_finish hfinish]
  cases htokens : tokens? rest with
  | none => simp [State.readOn, htokens]
  | some tokens =>
    simp only [State.readOn, htokens, Option.bind_some]
    cases tokens with
    | nil => rw [List.nil_append, List.foldlM_cons, List.foldlM_cons, hstep rfl]
    | cons token tokens =>
      rw [List.cons_append, List.foldlM_cons, List.foldlM_cons,
        hstep (hrest.goesOn_head htokens token rfl)]

/-- A scalar takes the reader to the state behind it. -/
theorem SpellsScalar.readOn (h : SpellsScalar cs document) {s s' : State} (hs : s.AwaitsValue)
    (hfinish : s.finish document = some s') (hrest : Ends rest) :
    s.readOn (cs ++ rest) = s'.readOn rest := by
  have hatom {text : List Char} (hne : text ≠ []) (htext : text.all isAtomChar = true)
      (hscalar : scalar? text = some document) (hdate : isDate text = false) :
      s.readOn (text ++ rest) = s'.readOn rest := by
    obtain ⟨c, text, rfl⟩ := List.exists_cons_of_ne_nil hne
    have htext := List.all_eq_true.1 htext
    rw [List.cons_append, readOn_token (readToken?_atom htext fun d hd => (hrest d hd).1),
      hs (.atom (c :: text)) rfl nofun]
    exact readOn_scalar hscalar hdate hfinish hrest
  cases h with
  | text h =>
    obtain ⟨cs, rfl, hread⟩ := h.exists_readToken? hrest.head?_ne
    rw [List.cons_append, readOn_token hread, hs (.string _ false) rfl nofun]
    exact congrArg (Option.bind · _) hfinish
  | boolTrue => exact hatom (by decide) (by decide) rfl (by decide)
  | boolFalse => exact hatom (by decide) (by decide) rfl (by decide)
  | natural h hn =>
    refine hatom h.ne_nil (List.all_eq_true.2 fun d hd => isAtomChar_of_isAlphanum ?_)
      (h.scalar?_eq hn) ?_
    · rcases h.forall_mem d hd with hdigit | heq | heq
      · exact .inl (by simp [Char.isAlphanum, hdigit])
      · exact .inr (.inr (.inl heq))
      · exact .inr (.inr (.inr heq))
    · simp [isDate, readDate?_of_not_mem (h.not_mem (c := '-') (by decide))]

theorem awaitsValue_line (root : Entries) (header path : List String) :
    AwaitsValue { root, header, stack := [.line path], phase := .value false } := by
  intro token hlayout _
  cases token with
  | blank | newline => cases hlayout
  | _ => rfl

theorem awaitsValue_item (root : Entries) (header : List String) (stack : List Frame) :
    AwaitsValue { root, header, stack, phase := .item } := by
  intro token hlayout hclose
  cases token with
  | blank | newline => cases hlayout
  | closeBracket => exact absurd rfl hclose
  | _ => rfl

/-- Blanks and line breaks are skipped between the items of a list. -/
theorem step_item_layout {s : State} (hs : s.phase = .item ∨ s.phase = .itemEnd) {token : Token}
    (h : isLayout token = true) : step s token = some s := by
  obtain ⟨root, header, stack, phase⟩ := s
  cases token with
  | blank | newline => rcases hs with rfl | rfl <;> rfl
  | _ => cases h

/-- The items of a list are added to those that have been read, and the bracket behind them closes
the list. -/
theorem SpellsItems.readOn {items : List Document} (h : SpellsItems cs items) (root : Entries)
    (header : List String) (stack : List Frame) (done : List Document) (rest : List Char) :
    State.readOn { root, header, stack := .list done :: stack, phase := .item }
        (cs ++ ']' :: rest) =
      (finish { root, header, stack, phase := .item } (.list (done ++ items))).bind
        fun s' => s'.readOn rest := by
  induction h generalizing done with
  | nil hgap =>
    rw [readOn_gap (fun _ => step_item_layout (.inl rfl)) hgap, readOn_glyph rfl, List.append_nil]
    rfl
  | last hbefore h hafter =>
    rw [List.append_assoc, List.append_assoc,
      readOn_gap (fun _ => step_item_layout (.inl rfl)) hbefore,
      h.readOn (awaitsValue_item _ _ _) rfl (ends_gap hafter (ends_cons (by decide))),
      readOn_gap (fun _ => step_item_layout (.inr rfl)) hafter, readOn_glyph rfl]
    rfl
  | @cons before cs after more document items hbefore h hafter _ ih =>
    have hitems : done ++ document :: items = (done ++ [document]) ++ items := by simp
    rw [List.append_assoc, List.append_assoc, List.append_assoc, List.cons_append,
      readOn_gap (fun _ => step_item_layout (.inl rfl)) hbefore,
      h.readOn (awaitsValue_item _ _ _) rfl (ends_gap hafter (ends_cons (by decide))),
      readOn_gap (fun _ => step_item_layout (.inr rfl)) hafter, readOn_glyph rfl, hitems,
      ← ih (done ++ [document])]
    rfl

/-- A value takes the reader to the state behind it. -/
theorem SpellsValue.readOn (h : SpellsValue cs document) {root : Entries}
    {header path : List String} {s' : State}
    (hfinish : finish { root, header, stack := [.line path], phase := .value false } document =
      some s')
    (hrest : Ends rest) :
    State.readOn { root, header, stack := [.line path], phase := .value false } (cs ++ rest) =
      s'.readOn rest := by
  cases h with
  | scalar h => exact h.readOn (awaitsValue_line root header path) hfinish hrest
  | list h =>
    rw [List.cons_append, List.append_assoc, List.singleton_append, readOn_glyph rfl]
    refine (h.readOn root header [.line path] [] rest).trans ?_
    exact congrArg (Option.bind · _) hfinish

/-! ## Lines -/

/-- What a line does to the entries of the document and to the table that the last header opened. -/
def Line.perform? (contents : Entries × List String) : Line → Option (Entries × List String)
  | .empty => some contents
  | .entry key document =>
    (assignUnder? contents.2 [key] document contents.1).map fun root => (root, contents.2)
  | .header name => (openTable? [name] contents.1).map fun root => (root, [name])

/-- The state between two lines. -/
def State.between (contents : Entries × List String) : State :=
  { root := contents.1, header := contents.2, stack := [], phase := .start }

theorem awaitsKey_between (contents : Entries × List String) :
    (State.between contents).AwaitsKey .line where
  string _ := rfl
  atom h := if_pos h

theorem awaitsKey_header {s : State}
    (h : s.phase = .header ∨ s.phase = .key (.header false) [] false) :
    s.AwaitsKey (.header false) where
  string _ := by
    obtain ⟨root, header, stack, phase⟩ := s
    rcases h with rfl | rfl <;> rfl
  atom hbare := by
    obtain ⟨root, header, stack, phase⟩ := s
    rcases h with rfl | rfl <;> exact if_pos hbare

/-- Blanks behind the opening bracket of a header make no difference to the key behind them. -/
theorem SpellsKey.readOn_header {name blanks : List Char} {key : String} (h : SpellsKey name key)
    (hblanks : IsBlanks blanks) (root : Entries) (header : List String) (hrest : Ends rest) :
    State.readOn { root, header, stack := [], phase := .header } (blanks ++ (name ++ rest)) =
      State.readOn { root, header, stack := [], phase := .key (.header false) [key] true }
        rest := by
  cases blanks with
  | nil => exact h.readOn (awaitsKey_header (.inl rfl)) hrest
  | cons c blanks =>
    -- All blanks are one token, which takes the reader to a state in which blanks are skipped.
    obtain ⟨hc, hblanks⟩ := List.forall_mem_cons.1 hblanks
    refine (readOn_token (readToken?_blank (isBlank_iff.2 hc))).trans ?_
    refine (readOn_dropWhile (fun _ => rfl) _).symm.trans ?_
    exact (readOn_blanks (fun _ => rfl) hblanks).trans
      (h.readOn (awaitsKey_header (.inr rfl)) hrest)

/-- A line acts on the contents of the document. -/
theorem SpellsLine.readOn {line : Line} (h : SpellsLine cs line)
    {contents contents' : Entries × List String}
    (hperform : line.perform? contents = some contents') {comment : List Char}
    (hcomment : IsComment comment) (hrest : AtLineEnd rest) :
    (State.between contents).readOn (cs ++ (comment ++ rest)) =
      (State.between contents').readOn (comment ++ rest) := by
  obtain ⟨root, header⟩ := contents
  -- Behind an entry or a header, the end of the line leads to the next one.
  have hstop (root : Entries) (header : List String) :
      State.readOn { root, header, stack := [], phase := .stop } (comment ++ rest) =
        (State.between (root, header)).readOn (comment ++ rest) := by
    rw [readOn_comment hcomment hrest, readOn_comment hcomment hrest]
    exact hrest.readOn_congr rfl
  have hends : Ends (comment ++ rest) := ends_comment hcomment hrest.ends
  cases h with
  | empty h =>
    cases hperform
    exact readOn_blanks (fun _ => rfl) h
  | @entry before name after between cs behind key document hbefore hkey hafter hbetween hvalue
      hbehind =>
    obtain ⟨root', hassign, rfl⟩ := Option.map_eq_some_iff.1 hperform
    have hfinish : finish { root, header, stack := [.line [key]], phase := .value false } document =
        some { root := root', header, stack := [], phase := .stop } := by
      simp only [finish, hassign, Option.map_some]
    simp only [List.append_assoc, List.cons_append]
    rw [readOn_blanks (fun _ => rfl) hbefore,
      hkey.readOn (awaitsKey_between _) (ends_blanks hafter (ends_cons (by decide))),
      readOn_blanks (fun _ => rfl) hafter, readOn_glyph rfl, ← hstop root' header,
      ← readOn_blanks (fun _ => rfl) hbehind, ← hvalue.readOn hfinish (ends_blanks hbehind hends),
      ← readOn_blanks (fun _ => rfl) hbetween]
    rfl
  | header hbefore hbetween hkey hafter hbehind =>
    obtain ⟨root', hopen, rfl⟩ := Option.map_eq_some_iff.1 hperform
    simp only [List.append_assoc, List.cons_append]
    rw [readOn_blanks (fun _ => rfl) hbefore, readOn_glyph rfl]
    have hclosing : isAtomChar ']' = false ∧ ']' ≠ '.' ∧ ']' ≠ '"' := by decide
    refine (hkey.readOn_header hbetween root header
      (ends_blanks hafter (ends_cons hclosing))).trans ?_
    rw [readOn_blanks (fun _ => rfl) hafter, readOn_glyph rfl, ← hstop root' [_],
      ← readOn_blanks (fun _ => rfl) hbehind]
    exact congrArg (Option.bind · _) (congrArg (Option.map _) hopen)

/-- Lines act on the contents of the document one after the other. -/
theorem SpellsLines.readOn {lines : List Line} (h : SpellsLines cs lines)
    {contents contents' : Entries × List String}
    (hperform : lines.foldlM Line.perform? contents = some contents') :
    (State.between contents).readOn cs = some (State.between contents') := by
  induction h generalizing contents with
  | @last cs comment line h hcomment =>
    have hline : line.perform? contents = some contents' := by
      simpa [List.foldlM_cons] using hperform
    have hread := h.readOn hline hcomment (.inl rfl)
    rw [readOn_comment hcomment (.inl rfl), List.append_nil] at hread
    exact hread.trans (readOn_nil _)
  | @cons _ _ newline more _ _ h hcomment hnewline _ ih =>
    rw [List.foldlM_cons] at hperform
    obtain ⟨middle, hline, hmore⟩ := Option.bind_eq_some_iff.1 hperform
    have hend : AtLineEnd (newline ++ more) := .inr ⟨newline, more, rfl, hnewline⟩
    rw [h.readOn hline hcomment hend, readOn_comment hcomment hend, readOn_newline hnewline]
    exact ih hmore

end Shorthand.Toml
