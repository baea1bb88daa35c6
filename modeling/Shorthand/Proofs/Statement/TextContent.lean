import Shorthand.Proofs.Statement.AttributeValues

/-!
# What stands between the braces of a text

The text of an element is what stands between its opening brace and the brace that closes it, or
everything behind the opening brace if no brace closes it. The end of a text is found by counting
braces, and the brace at the end is taken off afterwards. Both agree if the text is closed. If it is
not, the text goes up to the end of the tokens, and when the last token is a brace that closes
another one inside the text, it is taken for the one that closes the text.

In the tokens of a source this cannot happen, since there braces do not nest.

## Main definitions

* `bracesAfter?`, `BracesMatch`: in a run of tokens, every brace has its partner;
* `ClosesBehind`, `Content`: what stands between an opening brace and the one that closes it;
* `TextBegins`, `HasText`: where the text of an element begins;
* `ReadAt`, `Starts`: an element is read from the end of the tokens that begins with it, and all
  elements of a tree are, in their order.

## Main results

* `content_of_readText?_iff`: which texts are read as their content;
* `exists_starts_of_ofTokens`: all elements of the tree are read somewhere, one behind the other;
* `value_of_ofTokens`: the values of elements are the contents of their texts, unless a text is not
  closed and the last token is a closing brace;
* `content_of_parse`: in the tree of a source, all values are the contents of their texts.
-/

namespace Shorthand.Statement

variable {jsx present : Bool} {element head : Element} {depth : Nat}
  {tokens inner other value behind start rest : List Token} {token opening closing : Token}

/-! ## Matching braces -/

/-- How many braces are open behind a token, if `depth` are open before it. There is no such number
behind a brace that closes none. -/
def bracesAfter? (depth : Nat) (token : Token) : Option Nat :=
  match token.kind with
  | .bracket .expression true => some (depth + 1)
  | .bracket .expression false => if depth = 0 then none else some (depth - 1)
  | _ => some depth

/-- Every brace has its partner. -/
def BracesMatch (tokens : List Token) : Prop :=
  tokens.foldlM bracesAfter? 0 = some 0

instance (tokens : List Token) : Decidable (BracesMatch tokens) :=
  inferInstanceAs (Decidable (tokens.foldlM bracesAfter? 0 = some 0))

theorem bracesAfter?_opening (h : opening.kind = .bracket .expression true) :
    bracesAfter? depth opening = some (depth + 1) := by
  rw [bracesAfter?, h]

theorem bracesAfter?_inner {token : Token} (h : token.kind.isInner = true) :
    bracesAfter? depth token = some depth := by
  unfold bracesAfter?
  cases hkind : token.kind with
  | bracket bracket opening =>
    rw [hkind] at h
    cases h
  | _ => rfl

/-- Content changes nothing about the braces. -/
theorem foldlM_inner (h : ∀ token ∈ inner, token.kind.isInner = true) :
    inner.foldlM bracesAfter? depth = some depth := by
  induction inner with
  | nil => rfl
  | cons token inner ih =>
    obtain ⟨htoken, hinner⟩ := List.forall_mem_cons.1 h
    rw [List.foldlM_cons, bracesAfter?_inner htoken]
    exact ih hinner

/-- Without its partner, a closing brace matches none. -/
theorem not_bracesMatch_inner (h : ∀ token ∈ inner, token.kind.isInner = true)
    (hclosing : closing.kind = .bracket .expression false) (tokens : List Token) :
    ¬BracesMatch (inner ++ closing :: tokens) := by
  have hnone : bracesAfter? 0 closing = none := by
    rw [bracesAfter?, hclosing]
    rfl
  rw [BracesMatch, List.foldlM_append, foldlM_inner h]
  dsimp only [Option.bind_eq_bind, Option.bind_some]
  rw [List.foldlM_cons, hnone]
  intro hmatch
  cases hmatch

/-- Other tokens change nothing about the braces. -/
theorem bracesAfter?_of_ne (hopening : token.kind ≠ .bracket .expression true)
    (hclosing : token.kind ≠ .bracket .expression false) :
    bracesAfter? depth token = some depth := by
  unfold bracesAfter?
  split
  next hkind => exact absurd hkind hopening
  next hkind => exact absurd hkind hclosing
  next => rfl

/-- Only behind a brace that closes none there is no number of open braces. -/
theorem bracesAfter?_eq_none_iff : bracesAfter? depth token = none ↔
    token.kind = .bracket .expression false ∧ depth = 0 := by
  unfold bracesAfter?
  split
  next hkind => simp [hkind]
  next hkind => simp [hkind]
  next _ hclosing => simpa using fun hkind => absurd hkind hclosing

/-! ## The end of a text -/

/-- A text goes on behind a token, unless that is a brace that closes none in the text. -/
theorem readThroughBrace_cons (depth : Nat) (token : Token) (tokens : List Token) :
    readThroughBrace depth (token :: tokens) =
      match bracesAfter? depth token with
      | none => ([token], tokens)
      | some next =>
        (token :: (readThroughBrace next tokens).1, (readThroughBrace next tokens).2) := by
  by_cases hopening : token.kind = .bracket .expression true
  · simp [readThroughBrace, bracesAfter?_opening hopening, hopening]
  by_cases hclosing : token.kind = .bracket .expression false
  · cases depth with
    | zero => simp [readThroughBrace, bracesAfter?, hclosing]
    | succ depth => simp [readThroughBrace, bracesAfter?, hclosing]
  · rw [readThroughBrace.eq_def, bracesAfter?_of_ne hopening hclosing]
    dsimp only
    split
    next hkind => exact absurd hkind hclosing
    next hkind => exact absurd hkind hclosing
    next hkind => exact absurd hkind hopening
    next => rfl

/-- `inner` stands between an opening brace and the brace that closes it, if `behind` are the tokens
behind the opening one. -/
def ClosesBehind (behind inner : List Token) : Prop :=
  ∃ closing rest, behind = inner ++ closing :: rest ∧ BracesMatch inner ∧
    closing.kind = .bracket .expression false

/-- What stands between an opening brace, with the tokens `behind` it, and the brace that closes it.
Without such a brace these are all tokens. -/
inductive Content (behind : List Token) : List Token → Prop
  | closed {inner : List Token} (h : ClosesBehind behind inner) : Content behind inner
  | unclosed (h : ∀ inner, ¬ClosesBehind behind inner) : Content behind behind

/-- A text is read through the first brace that closes none in the text. -/
theorem readThroughBrace_of_foldlM (h : inner.foldlM bracesAfter? depth = some 0)
    (hclosing : closing.kind = .bracket .expression false) (rest : List Token) :
    readThroughBrace depth (inner ++ closing :: rest) = (inner ++ [closing], rest) := by
  induction inner generalizing depth with
  | nil =>
    obtain rfl : depth = 0 := Option.some.inj h
    rw [List.nil_append, readThroughBrace_cons, bracesAfter?_eq_none_iff.2 ⟨hclosing, rfl⟩]
    rfl
  | cons token inner ih =>
    rw [List.foldlM_cons, Option.bind_eq_bind, Option.bind_eq_some_iff] at h
    obtain ⟨next, hnext, hinner⟩ := h
    rw [List.cons_append, readThroughBrace_cons, hnext]
    simp only [ih hinner]
    rfl

/-- A text that no brace closes goes up to the end. -/
theorem readThroughBrace_eq_or (depth : Nat) (tokens : List Token) :
    (∃ inner closing rest, tokens = inner ++ closing :: rest ∧
      inner.foldlM bracesAfter? depth = some 0 ∧ closing.kind = .bracket .expression false) ∨
    readThroughBrace depth tokens = (tokens, []) := by
  induction tokens generalizing depth with
  | nil => exact .inr rfl
  | cons token tokens ih =>
    cases hnext : bracesAfter? depth token with
    | none =>
      obtain ⟨hkind, rfl⟩ := bracesAfter?_eq_none_iff.1 hnext
      exact .inl ⟨[], token, tokens, rfl, rfl, hkind⟩
    | some next =>
      rcases ih next with ⟨inner, closing, rest, rfl, hinner, hclosing⟩ | hend
      · refine .inl ⟨token :: inner, closing, rest, rfl, ?_, hclosing⟩
        rw [List.foldlM_cons, hnext]
        exact hinner
      · rw [readThroughBrace_cons, hnext]
        exact .inr (by simp only [hend])

/-- There is only one brace that closes another. -/
theorem ClosesBehind.unique (h : ClosesBehind behind inner) (hother : ClosesBehind behind other) :
    inner = other := by
  obtain ⟨closing, rest, rfl, hmatch, hclosing⟩ := h
  obtain ⟨closing', rest', heq, hmatch', hclosing'⟩ := hother
  have hread := readThroughBrace_of_foldlM hmatch hclosing rest
  rw [heq, readThroughBrace_of_foldlM hmatch' hclosing' rest', Prod.mk.injEq] at hread
  exact (List.append_inj' hread.1 rfl).1.symm

/-- There is only one content behind an opening brace. -/
theorem Content.unique (h : Content behind inner) (hother : Content behind other) :
    inner = other := by
  cases h with
  | closed h =>
    cases hother with
    | closed hother => exact h.unique hother
    | unclosed hother => exact absurd h (hother inner)
  | unclosed h =>
    cases hother with
    | closed hother => exact absurd hother (h other)
    | unclosed => rfl

/-- The last token is a closing brace. -/
def EndsInBrace (tokens : List Token) : Prop :=
  ∃ inner closing, tokens = inner ++ [closing] ∧ closing.kind = .bracket .expression false

/-- Where a text begins before the end of the tokens, it ends in a closing brace if these do. -/
theorem endsInBrace_iff_of_suffix (hopening : opening.kind = .bracket .expression true)
    (h : opening :: behind <:+ tokens) : EndsInBrace behind ↔ EndsInBrace tokens := by
  obtain ⟨before, rfl⟩ := h
  constructor
  · rintro ⟨inner, closing, rfl, hclosing⟩
    exact ⟨before ++ opening :: inner, closing, by simp, hclosing⟩
  · rintro ⟨inner, closing, heq, hclosing⟩
    rcases List.eq_nil_or_concat' behind with rfl | ⟨inside, last, rfl⟩
    -- The opening brace itself is no closing one.
    · obtain ⟨-, hlast⟩ := List.append_inj' heq rfl
      obtain rfl := List.singleton_inj.1 hlast
      simp [hopening] at hclosing
    · rw [← List.cons_append, ← List.append_assoc] at heq
      obtain ⟨-, hlast⟩ := List.append_inj' heq rfl
      obtain rfl := List.singleton_inj.1 hlast
      exact ⟨inside, last, rfl, hclosing⟩

theorem dropFinal_of_not_endsInBrace (h : ¬EndsInBrace tokens) :
    dropFinal (.bracket .expression false) tokens = tokens := by
  unfold dropFinal
  split
  next hlast =>
    rcases List.eq_nil_or_concat' tokens with rfl | ⟨inner, closing, rfl⟩
    · cases hlast
    · exact absurd ⟨inner, closing, rfl, by simpa using hlast⟩ h
  next => rfl

theorem exists_opening_of_readText? (h : readText? tokens = some (value, rest)) :
    ∃ opening behind, tokens = opening :: behind ∧ opening.kind = .bracket .expression true := by
  unfold readText? at h
  split at h
  next => exact ⟨_, _, rfl, rfl⟩
  next => cases h

/-- Of a text that is closed, what stands between the braces is read. -/
theorem value_eq_of_closesBehind (hopening : opening.kind = .bracket .expression true)
    (h : readText? (opening :: behind) = some (value, rest)) (hclosed : ClosesBehind behind inner) :
    value = inner := by
  obtain ⟨closing, rest, rfl, hmatch, hclosing⟩ := hclosed
  obtain ⟨kind, start, stop⟩ := opening
  subst hopening
  rw [readText?, readThroughBrace_of_foldlM hmatch hclosing, Option.some_inj, Prod.mk.injEq] at h
  rw [← h.1, dropFinal_append_of_kind hclosing]

/-- Of a text that is not closed, everything is read, but a closing brace at the end is dropped. -/
theorem value_eq_of_not_closesBehind (hopening : opening.kind = .bracket .expression true)
    (h : readText? (opening :: behind) = some (value, rest))
    (hunclosed : ∀ inner, ¬ClosesBehind behind inner) :
    value = dropFinal (.bracket .expression false) behind := by
  obtain ⟨kind, start, stop⟩ := opening
  subst hopening
  rcases readThroughBrace_eq_or 0 behind with hclosed | hend
  · obtain ⟨inner, closing, rest, hclosed⟩ := hclosed
    exact absurd ⟨closing, rest, hclosed⟩ (hunclosed inner)
  · rw [readText?, hend, Option.some_inj, Prod.mk.injEq] at h
    exact h.1.symm

/-- The content of a text is read, unless the text is not closed and the last token is a closing
brace. -/
theorem content_of_readText?_iff (hopening : opening.kind = .bracket .expression true)
    (h : readText? (opening :: behind) = some (value, rest)) :
    Content behind value ↔ (∃ inner, ClosesBehind behind inner) ∨ ¬EndsInBrace behind := by
  by_cases hclosed : ∃ inner, ClosesBehind behind inner
  · obtain ⟨inner, hinner⟩ := hclosed
    obtain rfl := value_eq_of_closesBehind hopening h hinner
    exact ⟨fun _ => .inl ⟨value, hinner⟩, fun _ => .closed hinner⟩
  · have hunclosed := not_exists.1 hclosed
    have hvalue := value_eq_of_not_closesBehind hopening h hunclosed
    constructor
    · intro hcontent
      refine .inr ?_
      rintro ⟨inner, closing, rfl, hclosing⟩
      rw [dropFinal_append_of_kind hclosing] at hvalue
      subst hvalue
      have hall := hcontent.unique (.unclosed hunclosed)
      simp at hall
    · rintro (hinner | hends)
      · exact absurd hinner hclosed
      · rw [dropFinal_of_not_endsInBrace hends] at hvalue
        rw [hvalue]
        exact .unclosed hunclosed

/-- A text that is not read as its content lacks the last token, a closing brace. -/
theorem eq_append_of_not_content (hopening : opening.kind = .bracket .expression true)
    (h : readText? (opening :: behind) = some (value, rest)) (hcontent : ¬Content behind value) :
    ∃ closing, behind = value ++ [closing] ∧ closing.kind = .bracket .expression false := by
  rw [content_of_readText?_iff hopening h, not_or, not_not] at hcontent
  obtain ⟨hunclosed, inner, closing, rfl, hclosing⟩ := hcontent
  have hvalue := value_eq_of_not_closesBehind hopening h (not_exists.1 hunclosed)
  rw [dropFinal_append_of_kind hclosing] at hvalue
  exact ⟨closing, by rw [hvalue], hclosing⟩

/-! ## The text of an element -/

/-- Reading on with the parts of `element` from `tokens` on, the opening brace of its text stands
before `behind`. No part before it is a text, and none closes the element. -/
inductive TextBegins (jsx : Bool) : Bool → Element → List Token → List Token → Prop
  | here {present : Bool} {element : Element} {opening : Token} {behind : List Token}
      (hopening : opening.kind = .bracket .expression true) (hnone : element.value = none) :
      TextBegins jsx present element (opening :: behind) behind
  | later {present : Bool} {element : Element} {part : Part} {tokens rest behind : List Token}
      (hpart : readPart? jsx present element tokens = .ok (some (part, rest)))
      (htext : ∀ value, part ≠ .text value) (hclose : part ≠ .close)
      (hmore : TextBegins jsx true (element.add part) rest behind) :
      TextBegins jsx present element tokens behind

/-- An opening brace begins a text, if the element has none. -/
theorem readPart?_opening (hopening : opening.kind = .bracket .expression true)
    (hnone : element.value = none) :
    readPart? jsx present element (opening :: behind) =
      .ok ((readText? (opening :: behind)).map fun (value, rest) => (.text value, rest)) := by
  simp [readPart?, hopening, hnone]

/-- The text of an element begins at one place only. -/
theorem TextBegins.unique {other : List Token} (h : TextBegins jsx present element tokens behind)
    (hother : TextBegins jsx present element tokens other) : behind = other := by
  have hbrace {present : Bool} {element : Element} {opening : Token} {part : Part}
      {behind rest : List Token} (hopening : opening.kind = .bracket .expression true)
      (hnone : element.value = none)
      (hpart : readPart? jsx present element (opening :: behind) = .ok (some (part, rest))) :
      ∃ value, part = .text value := by
    rw [readPart?_opening hopening hnone, Except.ok.injEq, Option.map_eq_some_iff] at hpart
    obtain ⟨⟨value, last⟩, -, heq⟩ := hpart
    exact ⟨value, (Prod.mk.inj heq).1.symm⟩
  induction h with
  | here hopening hnone =>
    cases hother with
    | here => rfl
    | later hpart htext =>
      obtain ⟨value, hvalue⟩ := hbrace hopening hnone hpart
      exact absurd hvalue (htext value)
  | later hpart htext hclose hmore ih =>
    cases hother with
    | here hopening hnone =>
      obtain ⟨value, hvalue⟩ := hbrace hopening hnone hpart
      exact absurd hvalue (htext value)
    | later hpart' _ _ hmore' =>
      rw [hpart, Except.ok.injEq, Option.some.injEq, Prod.mk.injEq] at hpart'
      obtain ⟨rfl, rfl⟩ := hpart'
      exact ih hmore'

/-- A value that comes with the parts of an element is the text that is read behind an opening
brace among their tokens. -/
theorem exists_textBegins_of_readParts?
    (h : readParts? jsx present element tokens = .ok (some (head, rest)))
    (hnone : element.value = none) (hvalue : head.value = some value) :
    ∃ opening behind last, TextBegins jsx present element tokens behind ∧
      opening :: behind <:+ tokens ∧ opening.kind = .bracket .expression true ∧
      readText? (opening :: behind) = some (value, last) := by
  fun_induction readParts? jsx present element tokens with
  | case1 => cases h
  | case2 =>
    split at h
    next =>
      cases h
      rw [hnone] at hvalue
      cases hvalue
    next => cases h
  | case3 present element tokens next hpart =>
    have hclose := Element.value_close element next
    rw [Option.some.inj (Except.ok.inj h), hnone, hvalue] at hclose
    cases hclose
  | case4 present element tokens part next hclose hpart _ ih =>
    have hsuffix := (continues_readPart? hpart).suffix
    -- The text is this part, or it comes with a later one.
    have hlater (htext : ∀ text, part ≠ .text text) (hnone : (element.add part).value = none) :
        ∃ opening behind last, TextBegins jsx present element tokens behind ∧
          opening :: behind <:+ tokens ∧ opening.kind = .bracket .expression true ∧
          readText? (opening :: behind) = some (value, last) := by
      obtain ⟨opening, behind, last, hbegins, hbehind, hopening, hread⟩ := ih h hnone
      exact ⟨opening, behind, last, .later hpart htext hclose hbegins, hbehind.trans hsuffix,
        hopening, hread⟩
    cases part with
    | repeater repeater => exact hlater (by simp) hnone
    | attributes attributes => exact hlater (by simp) hnone
    | close => exact absurd rfl hclose
    | text text =>
      obtain rfl : text = value :=
        Option.some.inj ((value_eq_of_readParts? (by rfl) h).symm.trans hvalue)
      obtain ⟨⟩ | ⟨htext, -⟩ := Part.spelled_of_readPart? hpart
      obtain ⟨opening, behind, rfl, hopening⟩ := exists_opening_of_readText? htext
      exact ⟨opening, behind, next, .here hopening hnone, List.suffix_rfl, hopening, htext⟩

/-- The text of the element with which the tokens begin has its opening brace before `behind`. -/
def HasText (jsx : Bool) (start behind : List Token) : Prop :=
  TextBegins jsx (!(readName jsx start).1.isEmpty) (.ofName (readName jsx start).1)
    (readName jsx start).2 behind

/-- The value of an element is the text that is read behind an opening brace among its tokens. -/
theorem exists_hasText_of_readElement? (h : readElement? jsx start = .ok (some (head, rest)))
    (hvalue : head.value = some value) :
    ∃ opening behind last, HasText jsx start behind ∧ opening :: behind <:+ start ∧
      opening.kind = .bracket .expression true ∧
      readText? (opening :: behind) = some (value, last) := by
  rcases hname : readName jsx start with ⟨name, more⟩
  have happend := readName_append jsx start
  rw [hname] at happend
  rw [readElement?_of_readName hname] at h
  -- A name alone is no text.
  have hnone : (Element.ofName name).value = none := by
    unfold Element.ofName
    split
    next => rfl
    next => rfl
  obtain ⟨opening, behind, last, hbegins, hsuffix, hopening, hread⟩ :=
    exists_textBegins_of_readParts? h hnone hvalue
  refine ⟨opening, behind, last, ?_, hsuffix.trans ⟨name, happend⟩, hopening, hread⟩
  rw [HasText, hname]
  exact hbegins

/-! ## The elements of a tree -/

/-- The tokens end with `start`, from where on the element `head` is read. -/
def ReadAt (jsx : Bool) (tokens : List Token) (head : Element) (start : List Token) : Prop :=
  start <:+ tokens ∧ ∃ rest, readElement? jsx start = .ok (some (head, rest))

theorem ReadAt.of_suffix (h : ReadAt jsx rest head start) (hsuffix : rest <:+ tokens) :
    ReadAt jsx tokens head start :=
  ⟨h.1.trans hsuffix, h.2⟩

/-- Each of the elements is read from the end of the tokens that begins with it. Each one begins
later than the one before it, and all of them before `rest`. -/
structure Starts (jsx : Bool) (tokens : List Token) (heads : List Element)
    (starts : List (List Token)) (rest : List Token) : Prop where
  readAt : List.Forall₂ (ReadAt jsx tokens) heads starts
  ordered : starts.Pairwise fun start later => later.length < start.length
  before : ∀ start ∈ starts, rest.length < start.length

namespace Starts

variable {heads more : List Element} {starts laters : List (List Token)}

theorem nil (tokens rest : List Token) : Starts jsx tokens [] [] rest :=
  ⟨.nil, .nil, List.forall_mem_nil _⟩

theorem singleton (h : readElement? jsx tokens = .ok (some (head, rest))) :
    Starts jsx tokens [head] [tokens] rest :=
  ⟨.cons ⟨List.suffix_rfl, rest, h⟩ .nil, List.pairwise_singleton _ _,
    List.forall_mem_singleton.2 (length_lt_of_readElement? h)⟩

theorem of_suffix (h : Starts jsx rest heads starts behind) (hsuffix : rest <:+ tokens) :
    Starts jsx tokens heads starts behind :=
  ⟨h.readAt.imp fun _ _ hat => hat.of_suffix hsuffix, h.ordered, h.before⟩

theorem length_le (h : Starts jsx tokens heads starts rest) :
    ∀ start ∈ starts, start.length ≤ tokens.length := by
  obtain ⟨hreadAt, -, -⟩ := h
  induction hreadAt with
  | nil => exact List.forall_mem_nil _
  | cons hat _ ih => exact List.forall_mem_cons.2 ⟨hat.1.length_le, ih⟩

/-- Elements that are read behind others follow them. -/
theorem append {between : List Token} (h : Starts jsx tokens heads starts behind)
    (hmore : Starts jsx between more laters rest) (hsuffix : between <:+ tokens)
    (hbetween : between.length ≤ behind.length) (hrest : rest.length ≤ between.length) :
    Starts jsx tokens (heads ++ more) (starts ++ laters) rest where
  readAt := List.rel_append h.readAt (hmore.of_suffix hsuffix).readAt
  ordered := List.pairwise_append.2 ⟨h.ordered, hmore.ordered, fun start hstart later hlater =>
    Nat.lt_of_le_of_lt ((hmore.length_le later hlater).trans hbetween) (h.before start hstart)⟩
  before := List.forall_mem_append.2 ⟨fun start hstart =>
    Nat.lt_of_le_of_lt (hrest.trans hbetween) (h.before start hstart), hmore.before⟩

end Starts

/-- The elements of items are read one behind the other. -/
theorem exists_starts_of_reads {items : List Item} (h : Reads jsx tokens items rest) :
    ∃ starts, Starts jsx tokens (Item.headsAll items) starts rest := by
  induction h with
  | nil tokens => exact ⟨[], .nil tokens tokens⟩
  | element hhead hlink hmore ih =>
    obtain ⟨starts, hstarts⟩ := ih
    exact ⟨_, (Starts.singleton hhead).append hstarts
      (hlink.suffix.trans (continues_readElement? hhead).suffix) hlink.suffix.length_le
      hmore.length_le⟩
  | @group opening closing _ _ _ _ _ _ _ _ _ hopening hinside hclosing hrepeater hlink hmore
      ihinside ihmore =>
    obtain ⟨starts, hstarts⟩ := ihinside
    obtain ⟨laters, hlaters⟩ := ihmore
    -- What stands behind the group stands behind its closing bracket.
    have hrepeated := hlink.suffix.trans (continues_readRepeater hrepeater).suffix
    have hclosed := hrepeated.trans (List.suffix_cons closing _)
    have hsuffix := hclosed.trans (hinside.suffix.trans (List.suffix_cons opening _))
    exact ⟨_, (hstarts.of_suffix (List.suffix_cons opening _)).append hlaters hsuffix
      hclosed.length_le hmore.length_le⟩

/-- All elements of the tree are read one behind the other. -/
theorem exists_starts_of_ofTokens {statements : List Statement}
    (h : ofTokens jsx tokens = .ok statements) :
    ∃ starts, Starts jsx tokens (elementsAll statements) starts [] := by
  obtain ⟨items, hreads, rfl⟩ := ofTokens_eq_ok_iff.1 h
  rw [elementsAll_eq_flatMap, flatMap_ofOutline elements_adopt (Item.nested_outline items),
    Item.flatMap_elements_outline]
  exact exists_starts_of_reads hreads

/-! ## Values -/

/-- The elements of the tree are read one behind the other. The value of each one is what stands
between the braces of its text, or all tokens behind the opening brace if no brace closes it, as
long as there is such a brace or the last token is no closing brace. Otherwise the value lacks just
that last token. -/
theorem value_of_ofTokens {statements : List Statement} (h : ofTokens jsx tokens = .ok statements) :
    ∃ starts, Starts jsx tokens (elementsAll statements) starts [] ∧
      List.Forall₂ (fun head start => ∀ value ∈ head.value, ∃ behind, HasText jsx start behind ∧
        (Content behind value ↔ (∃ inner, ClosesBehind behind inner) ∨ ¬EndsInBrace tokens) ∧
        (¬Content behind value →
          ∃ closing, behind = value ++ [closing] ∧ closing.kind = .bracket .expression false))
        (elementsAll statements) starts := by
  obtain ⟨starts, hstarts⟩ := exists_starts_of_ofTokens h
  refine ⟨starts, hstarts, hstarts.readAt.imp ?_⟩
  rintro head start ⟨hsuffix, rest, hhead⟩ value hvalue
  obtain ⟨opening, behind, last, htext, hbehind, hopening, hread⟩ :=
    exists_hasText_of_readElement? hhead hvalue
  refine ⟨behind, htext, ?_, eq_append_of_not_content hopening hread⟩
  rw [content_of_readText?_iff hopening hread,
    endsInBrace_iff_of_suffix hopening (hbehind.trans hsuffix)]

/-- A text with braces in it that is closed. -/
theorem value_of_ofTokens_nested : ∃ start behind,
    (ofTokens false [⟨.literal "p", 0, 1⟩, ⟨.bracket .expression true, 1, 2⟩,
      ⟨.bracket .expression true, 2, 3⟩, ⟨.bracket .expression false, 3, 4⟩,
      ⟨.bracket .expression false, 4, 5⟩, ⟨.repeater ⟨2, 0, false⟩, 5, 7⟩]).map elementsAll = .ok [
        { name := some [⟨.literal "p", 0, 1⟩]
          value := some [⟨.bracket .expression true, 2, 3⟩, ⟨.bracket .expression false, 3, 4⟩]
          repeater := some ⟨2, 0, false⟩ }] ∧
    HasText false start behind ∧
    Content behind [⟨.bracket .expression true, 2, 3⟩, ⟨.bracket .expression false, 3, 4⟩] := by
  have helements : (ofTokens false [⟨.literal "p", 0, 1⟩, ⟨.bracket .expression true, 1, 2⟩,
      ⟨.bracket .expression true, 2, 3⟩, ⟨.bracket .expression false, 3, 4⟩,
      ⟨.bracket .expression false, 4, 5⟩, ⟨.repeater ⟨2, 0, false⟩, 5, 7⟩]).map elementsAll = .ok [
        { name := some [⟨.literal "p", 0, 1⟩]
          value := some [⟨.bracket .expression true, 2, 3⟩, ⟨.bracket .expression false, 3, 4⟩]
          repeater := some ⟨2, 0, false⟩ }] := by
    decide +kernel
  obtain ⟨statements, htree, hheads⟩ := Except.map_eq_ok_iff.1 helements
  obtain ⟨starts, -, hvalues⟩ := value_of_ofTokens htree
  rw [hheads] at hvalues
  obtain _ | ⟨hvalue, -⟩ := hvalues
  obtain ⟨behind, htext, hcontent, -⟩ := hvalue _ rfl
  refine ⟨_, behind, helements, htext, hcontent.2 (.inr ?_)⟩
  rintro ⟨inner, closing, heq, hclosing⟩
  have hlast := congrArg List.getLast? heq
  rw [List.getLast?_concat] at hlast
  obtain rfl := Option.some.inj hlast
  cases hclosing

/-- The text of the element is not closed, and its last token closes the brace inside it. This brace
is missing from the value. -/
theorem not_content_unclosed :
    (ofTokens false [⟨.literal "p", 0, 1⟩, ⟨.bracket .expression true, 1, 2⟩,
      ⟨.bracket .expression true, 2, 3⟩, ⟨.bracket .expression false, 3, 4⟩]).map elementsAll =
        .ok [{ name := some [⟨.literal "p", 0, 1⟩]
               value := some [⟨.bracket .expression true, 2, 3⟩] }] ∧
    ∀ behind, HasText false [⟨.literal "p", 0, 1⟩, ⟨.bracket .expression true, 1, 2⟩,
      ⟨.bracket .expression true, 2, 3⟩, ⟨.bracket .expression false, 3, 4⟩] behind →
        ¬Content behind [⟨.bracket .expression true, 2, 3⟩] := by
  refine ⟨by decide +kernel, fun behind htext hcontent => ?_⟩
  have hbegins : HasText false [⟨.literal "p", 0, 1⟩, ⟨.bracket .expression true, 1, 2⟩,
      ⟨.bracket .expression true, 2, 3⟩, ⟨.bracket .expression false, 3, 4⟩]
      [⟨.bracket .expression true, 2, 3⟩, ⟨.bracket .expression false, 3, 4⟩] :=
    .here rfl rfl
  obtain rfl := htext.unique hbegins
  -- The brace alone does not match, and it is not everything behind the opening one.
  cases hcontent with
  | closed h =>
    obtain ⟨closing, rest, -, hmatch, -⟩ := h
    exact absurd hmatch (by decide)

/-- In the tokens of a source, a text is closed or it does not end in a closing brace. -/
theorem closesBehind_or_of_tokenize {source : String} (h : Token.tokenize source = .ok tokens)
    (hopening : opening.kind = .bracket .expression true) (hsuffix : opening :: behind <:+ tokens) :
    (∃ inner, ClosesBehind behind inner) ∨ ¬EndsInBrace behind := by
  obtain ⟨before, rfl⟩ := hsuffix
  obtain ⟨inner, rest, rfl, hinner, hclosing⟩ := Token.exists_inside_braces h hopening
  cases rest with
  | cons closing rest =>
    exact .inl ⟨inner, closing, rest, rfl, foldlM_inner hinner, hclosing closing rfl⟩
  | nil =>
    refine .inr ?_
    rintro ⟨inside, last, heq, hlast⟩
    rw [List.append_nil] at heq
    have hinside := hinner last (heq ▸ List.mem_concat_self)
    rw [hlast] at hinside
    cases hinside

/-- In the tree of a source, the value of each element is what stands between the braces of its
text, or everything behind the opening brace if no brace closes it. -/
theorem content_of_parse {source : String} {statements : List Statement}
    (h : parse jsx source = .ok statements) : ∃ tokens starts,
    Token.tokenize source = .ok tokens ∧ Starts jsx tokens (elementsAll statements) starts [] ∧
      List.Forall₂ (fun head start => ∀ value ∈ head.value,
        ∃ behind, HasText jsx start behind ∧ Content behind value)
        (elementsAll statements) starts := by
  unfold parse at h
  split at h
  next tokens htokens =>
    obtain ⟨starts, hstarts⟩ := exists_starts_of_ofTokens h
    refine ⟨tokens, starts, htokens, hstarts, hstarts.readAt.imp ?_⟩
    rintro head start ⟨hsuffix, rest, hhead⟩ value hvalue
    obtain ⟨opening, behind, last, htext, hbehind, hopening, hread⟩ :=
      exists_hasText_of_readElement? hhead hvalue
    have hcloses := closesBehind_or_of_tokenize htokens hopening (hbehind.trans hsuffix)
    exact ⟨behind, htext, (content_of_readText?_iff hopening hread).2 hcloses⟩
  next => cases h

end Shorthand.Statement
