import Shorthand.Proofs.Statement.Conservation

/-!
# Nesting while reading statements

The reader of tokens counts what is open from the first token on, the reader of statements anew for
each value and each text. The two counts agree but for two things that only the reader of tokens
remembers: a literal that opens braces and is interrupted before it closes them, and an unquoted
value in an attribute set that ends with square brackets open. Behind either, nothing is bare any
more, and names are read there as well.

## Main definitions

* `Token.leaked`: how many braces literals have left open;
* `unclosedIn`: how many square brackets the attributes of elements have left open;
* `Leads`: what is open behind tokens, given what is open before them.

## Main results

* `Passes.leads`: both readers count the same brackets inside an unquoted value;
* `Reads.nestedAll`: what is open at the names of elements;
* `nested_of_parse`: where names and short attributes are read.
-/

namespace Shorthand

open Token (Chained Emits Kind endOf chained_append)

variable {contexts : Nat → Context} {start : Nat}

namespace Token

/-! ## Braces that literals leave open -/

/-- How many braces a token of this kind leaves open inside itself, between the contexts before and
behind it. Only a literal can leave any. -/
def Kind.leak (context next : Context) : Kind → Nat
  | .literal _ => next.braces - context.braces
  | _ => 0

/-- How many braces the tokens leave open inside themselves. -/
def leaked (contexts : Nat → Context) (tokens : List Token) : Nat :=
  (tokens.map fun token => token.kind.leak (contexts token.start) (contexts token.stop)).sum

@[simp]
theorem leaked_nil : leaked contexts [] = 0 := rfl

@[simp]
theorem leaked_cons (token : Token) (tokens : List Token) :
    leaked contexts (token :: tokens) =
      token.kind.leak (contexts token.start) (contexts token.stop) + leaked contexts tokens :=
  rfl

@[simp]
theorem leaked_append (tokens more : List Token) :
    leaked contexts (tokens ++ more) = leaked contexts tokens + leaked contexts more := by
  rw [leaked, List.map_append, List.sum_append]
  rfl

variable {context next : Context} {kind : Kind}

/-- Whether tokens of this kind leave everything open as it is, but for braces of a literal. -/
def Kind.keepsNesting : Kind → Bool
  | .quote _ | .bracket .attributes _ | .bracket .expression _ => false
  | _ => true

/-- What is open behind a token that is neither a quotation mark nor a bracket of a set or text. -/
theorem Emits.eq_of_keepsNesting (h : Emits context kind next) (hkind : kind.keepsNesting = true) :
    next = { context with braces := context.braces + kind.leak context next } := by
  cases kind with
  | literal text =>
    obtain ⟨opened, -, rfl⟩ := h
    simp [Kind.leak]
  | bracket bracket opening =>
    cases bracket with
    | group => exact h.2.2
    | attributes | expression => cases hkind
  | quote mark => cases hkind
  | operator op => exact h.2.2.2
  | blank | repeater | numbering | placeholder | field => exact h

/-- Where nothing is open, such a token opens nothing. -/
theorem Emits.eq_of_bare (h : Emits {} kind next) (hkind : kind.keepsNesting = true) :
    next = {} := by
  cases kind with
  | literal text =>
    obtain ⟨opened, hopened, rfl⟩ := h
    rw [hopened rfl]
  | _ => exact h.eq_of_keepsNesting hkind

/-- Inside braces nothing but a closing brace changes what is open, apart from braces of a
literal. -/
theorem Emits.closes_or_keepsNesting (h : Emits context kind next) (hquote : context.quote = none)
    (hbraces : context.braces ≠ 0) :
    kind = .bracket .expression false ∨ kind.keepsNesting = true := by
  cases kind with
  | quote mark =>
    rcases h.1 with hopen | ⟨-, hnone⟩
    · rw [hquote] at hopen
      cases hopen
    · exact absurd hnone hbraces
  | bracket bracket opening =>
    obtain ⟨rfl, rfl⟩ := h.2.1 hbraces
    exact .inl rfl
  | _ => exact .inr rfl

/-- Inside a quoted value nothing but its closing mark changes what is open, and brackets are
text. -/
theorem Emits.eq_of_quote {mark : QuoteMark} (h : Emits context kind next)
    (hquote : context.quote = some mark) (hbraces : context.braces = 0)
    (hkind : kind ≠ .quote mark) :
    next = context ∧ ∀ bracket opening, kind ≠ .bracket bracket opening := by
  obtain ⟨sets, braces, quote⟩ := context
  obtain rfl : quote = some mark := hquote
  obtain rfl : braces = 0 := hbraces
  cases kind with
  | literal text =>
    obtain ⟨opened, hopened, rfl⟩ := h
    rw [hopened rfl]
    exact ⟨rfl, by simp⟩
  | quote other =>
    rcases h.1 with hopen | ⟨hnone, -⟩
    · exact absurd (congrArg Kind.quote (Option.some.inj hopen).symm) hkind
    · cases hnone
  | bracket bracket opening => cases h.1
  | operator op => cases h.1
  | blank | repeater | numbering | placeholder | field => exact ⟨h, by simp⟩

end Token

namespace Statement

open Token (leaked)

/-- What is open behind the tokens `taken`, the first of which stands at `start`: no quoted value,
`squares` more square brackets than before, and all braces that literals have left open. -/
structure Leads (contexts : Nat → Context) (start : Nat) (taken : List Token) (squares : Nat) :
    Prop where
  quote : (contexts (endOf start taken)).quote = none
  sets : (contexts (endOf start taken)).sets = (contexts start).sets + squares
  braces : (contexts (endOf start taken)).braces = (contexts start).braces + leaked contexts taken

variable {taken more value : List Token} {squares further : Nat}

/-- Nothing changes without a token. -/
theorem Leads.nil (hquote : (contexts start).quote = none) : Leads contexts start [] 0 :=
  ⟨hquote, rfl, rfl⟩

/-- What is opened in sequence adds up. -/
theorem Leads.trans (h : Leads contexts start taken squares)
    (hmore : Leads contexts (endOf start taken) more further) :
    Leads contexts start (taken ++ more) (squares + further) := by
  obtain ⟨hquote, hsets, hbraces⟩ := hmore
  refine ⟨?_, ?_, ?_⟩
  · rwa [Token.endOf_append]
  · rw [Token.endOf_append, hsets, h.sets, Nat.add_assoc]
  · rw [Token.endOf_append, hbraces, h.braces, Token.leaked_append, Nat.add_assoc]

/-- Tokens that are neither quotation marks nor brackets of a set or a text leave everything open as
it is, but for the braces that they leave open themselves. -/
theorem Leads.tokens (hchain : Chained contexts start taken)
    (hquote : (contexts start).quote = none)
    (hkind : ∀ token ∈ taken, token.kind.keepsNesting = true) : Leads contexts start taken 0 := by
  induction taken generalizing start with
  | nil => exact .nil hquote
  | cons token taken ih =>
    obtain ⟨rfl, hemits, hchain⟩ := hchain
    obtain ⟨htoken, hmore⟩ := List.forall_mem_cons.1 hkind
    -- The first token leads behind itself, and the others lead on from there.
    have hstop := hemits.eq_of_keepsNesting htoken
    have hfirst : Leads contexts token.start [token] 0 := by
      refine ⟨?_, ?_, ?_⟩
      · exact (congrArg Context.quote hstop).trans hquote
      · show (contexts token.stop).sets = (contexts token.start).sets
        rw [hstop]
      · exact congrArg Context.braces hstop
    exact hfirst.trans (ih hchain hfirst.quote hmore)

/-! ## Values -/

/-- How many square brackets the tokens open and do not close. -/
def unclosed (tokens : List Token) : Nat :=
  tokens.countP (·.kind == .bracket .attributes true) -
    tokens.countP (·.kind == .bracket .attributes false)

/-- Without opening brackets there are none to close. -/
theorem unclosed_eq_zero (h : ∀ token ∈ taken, token.kind ≠ .bracket .attributes true) :
    unclosed taken = 0 := by
  have hcount : taken.countP (·.kind == .bracket .attributes true) = 0 :=
    List.countP_eq_zero.2 fun token hmem => by simpa using h token hmem
  rw [unclosed, hcount, Nat.zero_sub]

/-- The inside of a quoted value leaves everything open as it is. -/
theorem eq_of_quoted_inner {mark : QuoteMark} (hchain : Chained contexts start taken)
    (hquote : (contexts start).quote = some mark) (hbraces : (contexts start).braces = 0)
    (hinner : ∀ token ∈ taken, token.kind ≠ .quote mark) :
    contexts (endOf start taken) = contexts start ∧ leaked contexts taken = 0 ∧
      ∀ token ∈ taken, ∀ bracket opening, token.kind ≠ .bracket bracket opening := by
  induction taken generalizing start with
  | nil => exact ⟨rfl, rfl, by simp⟩
  | cons token taken ih =>
    obtain ⟨rfl, hemits, hchain⟩ := hchain
    obtain ⟨htoken, hmore⟩ := List.forall_mem_cons.1 hinner
    -- The token does not close the value, so it changes nothing.
    obtain ⟨hstop, hbracket⟩ := hemits.eq_of_quote hquote hbraces htoken
    obtain ⟨hend, hleaked, hbrackets⟩ :=
      ih hchain (by rw [hstop, hquote]) (by rw [hstop, hbraces]) hmore
    refine ⟨hend.trans hstop, ?_, List.forall_mem_cons.2 ⟨hbracket, hbrackets⟩⟩
    rw [Token.leaked_cons, hleaked, hstop]
    cases token.kind with
    | literal text => exact Nat.sub_self _
    | _ => rfl

/-- A quoted value leaves everything open as it is. -/
theorem Quoted.leads (h : Quoted value) (hchain : Chained contexts start value)
    (hquote : (contexts start).quote = none) :
    Leads contexts start value (unclosed value) := by
  obtain ⟨hopening, hinner, hclosing⟩ := h
  rename_i mark opening closing inner
  obtain ⟨rfl, hemits, hchain⟩ := hchain
  obtain ⟨hinside, hstart, hends, -⟩ := chained_append.1 hchain
  rw [hopening] at hemits
  rw [hclosing] at hends
  -- The first mark opens a value, since none is open.
  have hbraces : (contexts opening.start).braces = 0 := by
    rcases hemits.1 with hopen | ⟨-, hbraces⟩
    · rw [hquote] at hopen
      cases hopen
    · exact hbraces
  have hopened : contexts opening.stop = { contexts opening.start with quote := some mark } := by
    rw [hemits.2]
    simp [Context.after, hquote]
  obtain ⟨hsame, hleaked, hbrackets⟩ := eq_of_quoted_inner hinside (by rw [hopened])
    (by rw [hopened]; exact hbraces) hinner
  -- The last mark is the one that is open: behind it everything is as before the value.
  have hend : contexts closing.stop = contexts opening.start := by
    rw [hends.2, hsame, hopened, Context.after, if_pos rfl, ← hquote]
  -- Brackets inside the value are text, so it has none to close.
  have hunclosed : unclosed (opening :: (inner ++ [closing])) = 0 := by
    apply unclosed_eq_zero
    exact List.forall_mem_cons.2 ⟨by simp [hopening], List.forall_mem_append.2
      ⟨fun token hmem => hbrackets token hmem .attributes true, by simp [hclosing]⟩⟩
  have hleak : leaked contexts (opening :: (inner ++ [closing])) = 0 := by
    simp [hleaked, hopening, hclosing, Token.Kind.leak]
  have hbehind : endOf opening.start (opening :: (inner ++ [closing])) = closing.stop :=
    Token.endOf_append opening.stop inner [closing]
  refine ⟨?_, ?_, ?_⟩
  · rw [hbehind, hend, hquote]
  · rw [hbehind, hend, hunclosed, Nat.add_zero]
  · rw [hbehind, hend, hleak, Nat.add_zero]

/-- Both readers count the same brackets at a token of an unquoted value. -/
theorem unquotedAfter?_of_emits {depths after : Depths} {kind : Kind} {context next : Context}
    (h : Emits context kind next) (hafter : unquotedAfter? true depths kind = some after)
    {sets braces : Nat} (hquote : context.quote = none)
    (hsets : context.sets = sets + depths .attributes)
    (hbraces : context.braces = braces + depths .expression) :
    next.quote = none ∧ next.sets = sets + after .attributes ∧
      next.braces = braces + kind.leak context next + after .expression ∧
      after .attributes + (if kind = .bracket .attributes false then 1 else 0) =
        depths .attributes + (if kind = .bracket .attributes true then 1 else 0) := by
  -- Inside the braces of a value, the reader of tokens is inside braces as well.
  have hinside (hdepth : depths .expression ≠ 0) : context.braces ≠ 0 := by omega
  cases kind with
  | literal text =>
    obtain ⟨opened, -, rfl⟩ := h
    cases hafter
    simp [Kind.leak, hquote, hsets, hbraces]
    omega
  | quote mark =>
    obtain ⟨hdepth, -⟩ : depths .expression ≠ 0 ∧ _ := by simpa [unquotedAfter?] using hafter
    rcases h.1 with hopen | ⟨-, hnone⟩
    · rw [hquote] at hopen
      cases hopen
    · exact absurd hnone (hinside hdepth)
  | operator op =>
    obtain ⟨hdepth, -⟩ : depths .expression ≠ 0 ∧ _ := by simpa [unquotedAfter?] using hafter
    exact absurd h.2.1 (hinside hdepth)
  | bracket bracket opening =>
    obtain ⟨-, honly, rfl⟩ := h
    by_cases hdepth : depths .expression = 0
    · -- A brace that closes more than the value has opened ends the value.
      obtain ⟨hallowed, rfl⟩ : (opening = true ∨ depths bracket ≠ 0) ∧
          depths.after bracket opening = after := by
        simpa [unquotedAfter?, hdepth] using hafter
      cases bracket <;> cases opening <;>
        simp_all [Context.after, Depths.after, Kind.leak] <;> omega
    · obtain ⟨rfl, rfl⟩ := honly (hinside hdepth)
      obtain rfl : depths.after .expression false = after := by
        simpa [unquotedAfter?, hdepth] using hafter
      simp [Context.after, Depths.after, Kind.leak, hquote, hsets, hbraces]
      omega
  | blank | repeater =>
    cases h
    obtain ⟨-, rfl⟩ : depths .expression ≠ 0 ∧ depths = after := by
      simpa [unquotedAfter?] using hafter
    simp [Kind.leak, hquote, hsets, hbraces]
  | numbering | placeholder | field =>
    cases h
    cases hafter
    simp [Kind.leak, hquote, hsets, hbraces]

/-- Both readers count the same brackets inside an unquoted value, those of the reader of statements
on top of what is open before the value. The braces that literals leave open are counted by the
reader of tokens alone. -/
theorem Passes.leads {depths last : Depths} (h : Passes true depths value last)
    {sets braces : Nat} (hchain : Chained contexts start value)
    (hquote : (contexts start).quote = none)
    (hsets : (contexts start).sets = sets + depths .attributes)
    (hbraces : (contexts start).braces = braces + depths .expression) :
    (contexts (endOf start value)).quote = none ∧
      (contexts (endOf start value)).sets = sets + last .attributes ∧
      (contexts (endOf start value)).braces =
        braces + leaked contexts value + last .expression ∧
      last .attributes + value.countP (·.kind == .bracket .attributes false) =
        depths .attributes + value.countP (·.kind == .bracket .attributes true) := by
  induction h generalizing start braces with
  | nil depths => exact ⟨hquote, hsets, hbraces, rfl⟩
  | cons htoken _ ih =>
    obtain ⟨rfl, hemits, hchain⟩ := hchain
    -- What both readers have counted behind the token is what they go on from.
    obtain ⟨hquote', hsets', hbraces', hcount⟩ :=
      unquotedAfter?_of_emits hemits htoken hquote hsets hbraces
    obtain ⟨hquote, hsets, hbraces, hcounts⟩ := ih hchain hquote' hsets' hbraces'
    refine ⟨hquote, hsets, ?_, ?_⟩
    · rw [Token.leaked_cons, ← Nat.add_assoc]
      exact hbraces
    · simp only [List.countP_cons, beq_iff_eq]
      omega

/-- An unquoted value leads behind it, unless the tokens end there. -/
theorem Unquoted.leads {rest : List Token} (h : Unquoted true value rest)
    (hchain : Chained contexts start value) (hquote : (contexts start).quote = none)
    (hrest : rest ≠ []) : Leads contexts start value (unclosed value) := by
  obtain ⟨last, hpasses, hlast⟩ := h.passes
  obtain ⟨hquote, hsets, hbraces, hcount⟩ := hpasses.leads hchain hquote (Nat.add_zero _).symm
    (Nat.add_zero _).symm
  -- The value ends where its braces are closed, so only square brackets can be left open.
  have hsquares : last .attributes = unclosed value := by
    rw [unclosed]
    omega
  refine ⟨hquote, ?_, ?_⟩
  · rw [hsets, hsquares]
  · rw [hbraces, hlast hrest, Nat.add_zero]

/-! ## Attributes and texts -/

/-- `tokens` lead to `rest`, behind `squares` more square brackets that are open. Where nothing is
left it does not matter what is open. -/
def Advances (contexts : Nat → Context) (tokens rest : List Token) (squares : Nat) : Prop :=
  ∀ start, Chained contexts start tokens → ∃ taken, tokens = taken ++ rest ∧
    (rest ≠ [] → (contexts start).quote = none → Leads contexts start taken squares)

variable {tokens behind rest : List Token}

theorem Advances.refl (contexts : Nat → Context) (tokens : List Token) :
    Advances contexts tokens tokens 0 :=
  fun _ _ => ⟨[], rfl, fun _ hquote => .nil hquote⟩

theorem Advances.trans (h : Advances contexts tokens behind squares)
    (hmore : Advances contexts behind rest further) :
    Advances contexts tokens rest (squares + further) := by
  intro start hchain
  obtain ⟨taken, rfl, hleads⟩ := h start hchain
  obtain ⟨more, rfl, hleads'⟩ := hmore _ (chained_append.1 hchain).2
  refine ⟨taken ++ more, (List.append_assoc taken more rest).symm, fun hrest hquote => ?_⟩
  have hfirst := hleads (List.append_ne_nil_of_right_ne_nil more hrest) hquote
  exact hfirst.trans (hleads' hrest hfirst.quote)

theorem Advances.skip (h : Advances contexts tokens behind 0)
    (hmore : Advances contexts behind rest squares) : Advances contexts tokens rest squares := by
  have hadvances := h.trans hmore
  rwa [Nat.zero_add] at hadvances

/-- Tokens that are neither quotation marks nor brackets of a set or a text open no set. -/
theorem Advances.plain (hkind : ∀ token ∈ taken, token.kind.keepsNesting = true)
    (rest : List Token) : Advances contexts (taken ++ rest) rest 0 :=
  fun _ hchain => ⟨taken, rfl, fun _ hquote =>
    .tokens (chained_append.1 hchain).1 hquote hkind⟩

theorem Advances.single {token : Token} {kind : Kind} (hkind : token.kind = kind)
    (hkeeps : kind.keepsNesting = true) (rest : List Token) :
    Advances contexts (token :: rest) rest 0 := by
  have hall : ∀ kept ∈ [token], kept.kind.keepsNesting = true := by simpa [hkind] using hkeeps
  exact .plain hall rest

theorem Quoted.advances (h : Quoted value) (rest : List Token) :
    Advances contexts (value ++ rest) rest (unclosed value) :=
  fun _ hchain => ⟨value, rfl, fun _ hquote => h.leads (chained_append.1 hchain).1 hquote⟩

theorem Unquoted.advances (h : Unquoted true value rest) :
    Advances contexts (value ++ rest) rest (unclosed value) :=
  fun _ hchain => ⟨value, rfl, fun hrest hquote =>
    h.leads (chained_append.1 hchain).1 hquote hrest⟩

/-- How many square brackets an attribute leaves open. -/
def Attribute.unclosed (attr : Attribute) : Nat :=
  Statement.unclosed (attr.name.getD []) + Statement.unclosed (attr.value.getD [])

/-- How many square brackets the attributes of an element leave open. -/
def Element.unclosed (head : Element) : Nat :=
  (head.attributes.map Attribute.unclosed).sum

theorem Attribute.Spelled.advances {attr : Attribute} (h : attr.Spelled tokens rest) :
    Advances contexts tokens rest attr.unclosed := by
  rcases h with hvalue | hname | ⟨hname, hequal⟩ | ⟨hname, hequal, hvalue | hvalue⟩
  · have hadvances : Advances contexts _ rest (0 + _) :=
      (Advances.refl contexts _).trans (hvalue.advances rest)
    exact hadvances
  · exact hname.advances
  · exact hname.advances.trans (.single hequal rfl rest)
  · exact hname.advances.trans ((Advances.single hequal rfl _).skip (hvalue.advances rest))
  · exact hname.advances.trans ((Advances.single hequal rfl _).skip hvalue.advances)

/-- `tokens` lead to `rest` behind the bracket that closes the set that is open before them, and
behind `squares` square brackets that are open besides. -/
def Closes (contexts : Nat → Context) (tokens rest : List Token) (squares : Nat) : Prop :=
  ∀ start, Chained contexts start tokens → ∃ taken, tokens = taken ++ rest ∧
    (rest ≠ [] → (contexts start).quote = none → ∀ sets, (contexts start).sets = sets + 1 →
      (contexts (endOf start taken)).quote = none ∧
      (contexts (endOf start taken)).sets = sets + squares ∧
      (contexts (endOf start taken)).braces = (contexts start).braces + leaked contexts taken)

theorem Advances.closes (h : Advances contexts tokens behind squares)
    (hmore : Closes contexts behind rest further) :
    Closes contexts tokens rest (squares + further) := by
  intro start hchain
  obtain ⟨taken, rfl, hleads⟩ := h start hchain
  obtain ⟨more, rfl, hcloses⟩ := hmore _ (chained_append.1 hchain).2
  refine ⟨taken ++ more, (List.append_assoc taken more rest).symm,
    fun hrest hquote sets hsets => ?_⟩
  have hfirst := hleads (List.append_ne_nil_of_right_ne_nil more hrest) hquote
  -- What is read first opens square brackets on top of the set, which stays open below them.
  have hopen : (contexts (endOf start taken)).sets = sets + squares + 1 := by
    rw [hfirst.sets, hsets]
    omega
  obtain ⟨hquote', hsets', hbraces'⟩ := hcloses hrest hfirst.quote _ hopen
  rw [Token.endOf_append, hsets', hbraces', hfirst.braces, Token.leaked_append]
  exact ⟨hquote', Nat.add_assoc _ _ _, Nat.add_assoc _ _ _⟩

theorem SetSpelled.closes {attributes : List Attribute} (h : SetSpelled tokens attributes rest) :
    Closes contexts tokens rest (attributes.map Attribute.unclosed).sum := by
  induction h with
  | ended => exact fun _ _ => ⟨[], rfl, fun hrest => absurd rfl hrest⟩
  | @closing closing rest hclosing =>
    rintro start ⟨rfl, hemits, -⟩
    rw [hclosing] at hemits
    refine ⟨[closing], rfl, fun _ hquote sets hsets => ?_⟩
    show (contexts closing.stop).quote = none ∧ (contexts closing.stop).sets = sets + 0 ∧
      (contexts closing.stop).braces = (contexts closing.start).braces + leaked contexts [closing]
    simp [hemits.2.2, Context.after, hquote, hsets, hclosing, Kind.leak]
  | blank hblank _ ih =>
    have hcloses := (Advances.single hblank rfl _).closes ih
    rwa [Nat.zero_add] at hcloses
  | attr hattr _ ih => exact hattr.advances.closes ih

/-- A set of attributes is closed where it ends. -/
theorem SetSpelled.advances {attributes : List Attribute} {opening : Token}
    (h : SetSpelled tokens attributes rest) (hopening : opening.kind = .bracket .attributes true) :
    Advances contexts (opening :: tokens) rest (attributes.map Attribute.unclosed).sum := by
  rintro start ⟨rfl, hemits, hchain⟩
  rw [hopening] at hemits
  obtain ⟨taken, rfl, hcloses⟩ := h.closes _ hchain
  refine ⟨opening :: taken, rfl, fun hrest hquote => ?_⟩
  have hstop : contexts opening.stop = _ := hemits.2.2
  obtain ⟨hquote', hsets, hbraces⟩ :=
    hcloses hrest (by rw [hstop]; exact hquote) _ (by rw [hstop]; rfl)
  refine ⟨hquote', hsets, ?_⟩
  show (contexts (endOf opening.stop taken)).braces = _
  rw [hbraces, hstop, Token.leaked_cons, hopening]
  simp [Context.after, Kind.leak]

/-- A text goes on over every token that is no brace. -/
theorem readThroughBrace_of_keepsNesting {token : Token} (h : token.kind.keepsNesting = true) :
    readThroughBrace 0 (token :: tokens) =
      (token :: (readThroughBrace 0 tokens).1, (readThroughBrace 0 tokens).2) := by
  rw [readThroughBrace.eq_def]
  dsimp only
  split
  next hkind _ => rw [hkind] at h; cases h
  next hkind _ => rw [hkind] at h; cases h
  next hkind => rw [hkind] at h; cases h
  next => rfl

/-- Inside a text no further brace opens, so the first one that closes is the end of the text. -/
theorem readThroughBrace_leads {braces : Nat} (hchain : Chained contexts start tokens)
    (hquote : (contexts start).quote = none) (hbraces : (contexts start).braces = braces + 1)
    (hrest : (readThroughBrace 0 tokens).2 ≠ []) :
    (contexts (endOf start (readThroughBrace 0 tokens).1)).quote = none ∧
      (contexts (endOf start (readThroughBrace 0 tokens).1)).sets = (contexts start).sets ∧
      (contexts (endOf start (readThroughBrace 0 tokens).1)).braces =
        braces + leaked contexts (readThroughBrace 0 tokens).1 := by
  induction tokens generalizing start braces with
  | nil => exact absurd rfl hrest
  | cons token tokens ih =>
    obtain ⟨rfl, hemits, hchain⟩ := hchain
    rcases hemits.closes_or_keepsNesting hquote (by omega) with hclosing | hkeeps
    -- The brace that closes is the last token of the text.
    · have hread : readThroughBrace 0 (token :: tokens) = ([token], tokens) := by
        simp [readThroughBrace, hclosing]
      rw [hclosing] at hemits
      rw [hread]
      show (contexts token.stop).quote = none ∧ (contexts token.stop).sets = _ ∧
        (contexts token.stop).braces = braces + leaked contexts [token]
      simp [hemits.2.2, Context.after, hquote, hbraces, hclosing, Kind.leak]
    -- Every other token is read over.
    · rw [readThroughBrace_of_keepsNesting hkeeps] at hrest ⊢
      have hstop := hemits.eq_of_keepsNesting hkeeps
      have hfirst : Leads contexts token.start [token] 0 :=
        .tokens ⟨rfl, hemits, trivial⟩ hquote (by simpa using hkeeps)
      obtain ⟨hquote', hsets, hbraces'⟩ :=
        ih hchain hfirst.quote (hfirst.braces.trans (by rw [hbraces, Nat.add_right_comm])) hrest
      refine ⟨hquote', hsets.trans hfirst.sets, ?_⟩
      rw [Token.leaked_cons, ← Nat.add_assoc]
      exact hbraces'

/-- A text leaves open what its literals do. -/
theorem advances_of_readText? (h : readText? tokens = some (value, rest)) :
    Advances contexts tokens rest 0 := by
  unfold readText? at h
  split at h
  next begin stop tokens =>
    obtain ⟨-, rfl⟩ : _ ∧ (readThroughBrace 0 tokens).2 = rest := by simpa using h
    rintro start ⟨rfl, hemits, hchain⟩
    have hstop : contexts stop = _ := hemits.2.2
    refine ⟨⟨.bracket .expression true, begin, stop⟩ :: (readThroughBrace 0 tokens).1, ?_,
      fun hrest hquote => ?_⟩
    · rw [List.cons_append, readThroughBrace_append]
    · obtain ⟨hquote', hsets, hbraces⟩ := readThroughBrace_leads hchain
        (by rw [hstop]; exact hquote) (by rw [hstop]; rfl) hrest
      refine ⟨hquote', ?_, ?_⟩
      · show (contexts (endOf stop _)).sets = _
        rw [hsets, hstop]
        rfl
      · show (contexts (endOf stop _)).braces = _
        rw [hbraces, Token.leaked_cons]
        exact congrArg _ (Nat.zero_add _).symm
  next => cases h

/-! ## Elements -/

/-- The tokens of a value without brackets leave everything open as it is. -/
theorem Passes.keepsNesting {depths last : Depths} (h : Passes false depths value last)
    (hdepth : depths .expression = 0) : ∀ token ∈ value, token.kind.keepsNesting = true := by
  induction h with
  | nil => simp
  | @cons depths next last token tokens htoken _ ih =>
    -- Outside braces every other token ends the value.
    have hkind : next = depths ∧ token.kind.keepsNesting = true := by
      cases hkind : token.kind <;> simp_all [unquotedAfter?, Kind.keepsNesting]
    obtain ⟨rfl, hkeeps⟩ := hkind
    exact List.forall_mem_cons.2 ⟨hkeeps, ih hdepth⟩

theorem Unquoted.keepsNesting (h : Unquoted false value rest) :
    ∀ token ∈ value, token.kind.keepsNesting = true := by
  obtain ⟨last, hpasses, -⟩ := h.passes
  exact hpasses.keepsNesting rfl

theorem unclosed_of_keepsNesting (h : ∀ token ∈ taken, token.kind.keepsNesting = true) :
    unclosed taken = 0 :=
  unclosed_eq_zero fun token hmem hkind => by
    have hkeeps := h token hmem
    rw [hkind] at hkeeps
    cases hkeeps

/-- Where nothing is open, such tokens are all read where nothing is. -/
theorem contexts_eq_of_keepsNesting (hchain : Chained contexts start taken)
    (hbare : contexts start = {}) (hkind : ∀ token ∈ taken, token.kind.keepsNesting = true) :
    ∀ token ∈ taken, contexts token.start = {} := by
  induction taken generalizing start with
  | nil => simp
  | cons token taken ih =>
    obtain ⟨rfl, hemits, hchain⟩ := hchain
    obtain ⟨htoken, hmore⟩ := List.forall_mem_cons.1 hkind
    rw [hbare] at hemits
    exact List.forall_mem_cons.2 ⟨hbare, ih hchain (hemits.eq_of_bare htoken) hmore⟩

/-- How many square brackets a part leaves open. -/
def Part.unclosed : Part → Nat
  | .attributes added => (added.map Attribute.unclosed).sum
  | _ => 0

theorem Attribute.ShortSpelled.advances {name : String} {mark : Token} {attr : Attribute}
    {op : Operator} (h : attr.ShortSpelled false name mark tokens rest)
    (hmark : mark.kind = .operator op) :
    Advances contexts (mark :: tokens) rest attr.unclosed := by
  rcases h with _ | ⟨hvalue⟩ | ⟨hjsx, -⟩
  · exact .single hmark rfl tokens
  · have hunclosed := unclosed_of_keepsNesting hvalue.keepsNesting
    rw [Attribute.unclosed, Option.getD_some, Option.getD_some, hunclosed]
    exact (Advances.single hmark rfl _).skip (.plain hvalue.keepsNesting rest)
  · cases hjsx

theorem Part.Spelled.advances {element : Element} {part : Part}
    (h : part.Spelled false element tokens rest) : Advances contexts tokens rest part.unclosed := by
  rcases h with ⟨htoken, -⟩ | ⟨htext, -⟩ | ⟨hmark, hattr⟩ | ⟨hopening, hset⟩ | ⟨htoken⟩
  · exact .single htoken rfl rest
  · exact advances_of_readText? htext
  · rw [Part.unclosed, List.map_singleton, List.sum_singleton]
    rcases hmark with ⟨hmark, -⟩ | ⟨hmark, -⟩
    · exact hattr.advances hmark
    · exact hattr.advances hmark
  · exact hset.advances hopening
  · exact .single htoken rfl rest

theorem Part.unclosed_add (part : Part) (element : Element) :
    element.unclosed + part.unclosed = (element.add part).unclosed := by
  cases part with
  | attributes => rw [Part.unclosed, Element.add, Element.unclosed, Element.unclosed,
      List.map_append, List.sum_append]
  | _ => rfl

/-- Behind the mark of an element that closes itself, a repeater may follow. -/
theorem advances_readRepeater (tokens : List Token) :
    Advances contexts tokens (readRepeater tokens).2 0 := by
  unfold readRepeater
  split
  next repeater start stop rest => exact .single rfl rfl rest
  next => exact .refl contexts tokens

theorem advances_close (element : Element) (tokens : List Token) :
    Advances contexts tokens (element.close tokens).2 0 ∧
      (element.close tokens).1.attributes = element.attributes := by
  by_cases hnone : element.repeater = none
  · simpa [Element.close, Element.add, hnone] using advances_readRepeater tokens
  · simpa [Element.close, Element.add, hnone] using Advances.refl contexts tokens

theorem PartsSpelled.advances {element last : Element}
    (h : PartsSpelled false element tokens last rest) : ∃ squares,
      Advances contexts tokens rest squares ∧ element.unclosed + squares = last.unclosed := by
  induction h with
  | nil element rest => exact ⟨0, .refl contexts rest, rfl⟩
  | cons hpart _ _ ih =>
    obtain ⟨squares, hadvances, hsum⟩ := ih
    refine ⟨_, hpart.advances.trans hadvances, ?_⟩
    rw [← Nat.add_assoc, Part.unclosed_add, hsum]
  | @close element token htoken tokens =>
    obtain ⟨hadvances, hattributes⟩ := @advances_close contexts element tokens
    refine ⟨0, (Advances.single htoken rfl tokens).skip hadvances, ?_⟩
    rw [Nat.add_zero, Element.unclosed, Element.unclosed, hattributes]

/-- Only tokens that open and close nothing stand in a name. -/
theorem keepsNesting_of_readName {name : List Token} (h : readName false tokens = (name, behind)) :
    tokens = name ++ behind ∧ ∀ token ∈ name, token.kind.keepsNesting = true := by
  have happend := readName_append false tokens
  rw [h] at happend
  refine ⟨happend.symm, fun token hmem => ?_⟩
  have hname : tokens.takeWhile isNamePart = name := by
    simpa [readName] using congrArg Prod.fst h
  rw [← hname] at hmem
  have hpart : isNamePart token = true := List.mem_takeWhile_imp hmem
  cases hkind : token.kind <;> simp_all [isNamePart, Kind.keepsNesting]

/-- An element leaves open the square brackets that its attributes do. -/
theorem Element.Spelled.advances {head : Element} (h : head.Spelled false tokens rest) :
    Advances contexts tokens rest head.unclosed := by
  obtain ⟨hname, hparts⟩ := h
  rename_i name behind
  obtain ⟨rfl, hkind⟩ := keepsNesting_of_readName hname
  obtain ⟨squares, hadvances, hsum⟩ := @PartsSpelled.advances contexts _ _ _ _ hparts
  have hsum : 0 + squares = head.unclosed := hsum
  rw [← hsum]
  exact (Advances.plain hkind behind).trans hadvances

/-! ## Short attributes -/

/-- Whether an attribute is a short one, with a name that stands for the mark. -/
def Attribute.isShort (attr : Attribute) : Bool :=
  (attr.name.getD []).any Token.standsForMark

/-- The value of the attribute, if that is a short one, is read where nothing is open. -/
def Attribute.ReadBare (contexts : Nat → Context) (attr : Attribute) : Prop :=
  attr.isShort = true → ∀ token ∈ attr.value.getD [], contexts token.start = {}

/-- A mark is an operator, so nothing is open there, and the value behind it opens nothing. -/
theorem Attribute.ShortSpelled.readBare {name : String} {mark : Token} {attr : Attribute}
    {op : Operator} (h : attr.ShortSpelled false name mark tokens rest)
    (hmark : mark.kind = .operator op) (hop : op ≠ .equal)
    (hchain : Chained contexts start (mark :: tokens)) : attr.ReadBare contexts := by
  obtain ⟨rfl, hemits, hchain⟩ := hchain
  rw [hmark] at hemits
  obtain ⟨hquote, hbraces, hsets, hstop⟩ := hemits
  -- An operator other than the equals sign is a token only where nothing is open.
  have hbare : contexts mark.stop = {} := by
    rw [hstop]
    generalize contexts mark.start = context at hquote hbraces hsets
    obtain ⟨sets, braces, quote⟩ := context
    obtain rfl : sets = 0 := hsets.resolve_right hop
    obtain rfl : braces = 0 := hbraces
    obtain rfl : quote = none := hquote
    rfl
  rcases h with _ | ⟨hvalue⟩ | ⟨hjsx, -⟩
  · rintro - token hmem
    cases hmem
  · exact fun _ => contexts_eq_of_keepsNesting (chained_append.1 hchain).1 hbare
      hvalue.keepsNesting
  · cases hjsx

/-- The attributes of a set are not short: their names are tokens of the source. -/
theorem Attribute.Spelled.isShort_eq_false {attr : Attribute} (h : attr.Spelled tokens rest)
    (hsized : ∀ token ∈ tokens, token.Sized) : attr.isShort = false := by
  have hname {name more : List Token} (hsized : ∀ token ∈ name ++ more, token.Sized) :
      name.any Token.standsForMark = false := by
    rw [List.any_eq_false]
    intro token hmem
    rw [(hsized token (List.mem_append_left more hmem)).standsForMark]
    exact Bool.false_ne_true
  rcases h with _ | _ | _ | _
  · rfl
  · exact hname hsized
  · exact hname hsized
  · exact hname hsized

theorem SetSpelled.readBare {attributes : List Attribute} (h : SetSpelled tokens attributes rest)
    (hchain : Chained contexts start tokens) (hsized : ∀ token ∈ tokens, token.Sized) :
    ∀ attr ∈ attributes, attr.ReadBare contexts := by
  induction h generalizing start with
  | ended => simp
  | closing => simp
  | blank _ _ ih => exact ih hchain.2.2 (List.forall_mem_cons.1 hsized).2
  | attr hattr _ ih =>
    have hnone := hattr.isShort_eq_false hsized
    obtain ⟨taken, rfl, -⟩ := hattr.advances start hchain
    refine List.forall_mem_cons.2 ⟨fun hshort => ?_, ?_⟩
    · rw [hnone] at hshort
      cases hshort
    · exact ih (chained_append.1 hchain).2 (List.forall_mem_append.1 hsized).2

theorem PartsSpelled.readBare {element last : Element}
    (h : PartsSpelled false element tokens last rest) (hchain : Chained contexts start tokens)
    (hsized : ∀ token ∈ tokens, token.Sized)
    (helement : ∀ attr ∈ element.attributes, attr.ReadBare contexts) :
    ∀ attr ∈ last.attributes, attr.ReadBare contexts := by
  induction h generalizing start with
  | nil => exact helement
  | @cons element last part tokens behind rest hpart _ _ ih =>
    -- A mark and a set are the parts that add attributes.
    have hadded : ∀ attr ∈ (element.add part).attributes, attr.ReadBare contexts := by
      rcases hpart with _ | _ | ⟨hmark, hattr⟩ | ⟨-, hset⟩ | _
      · exact helement
      · exact helement
      · refine List.forall_mem_append.2 ⟨helement, List.forall_mem_singleton.2 ?_⟩
        rcases hmark with ⟨hmark, -⟩ | ⟨hmark, -⟩
        · exact hattr.readBare hmark (by simp) hchain
        · exact hattr.readBare hmark (by simp) hchain
      · exact List.forall_mem_append.2
          ⟨helement, hset.readBare hchain.2.2 (List.forall_mem_cons.1 hsized).2⟩
      · exact helement
    obtain ⟨taken, rfl, -⟩ := hpart.advances start hchain
    exact ih (chained_append.1 hchain).2 (List.forall_mem_append.1 hsized).2 hadded
  | @close element token _ tokens =>
    rw [(@advances_close contexts element tokens).2]
    exact helement

/-- The short attributes of an element are read where nothing is open. -/
theorem Element.Spelled.readBare {head : Element} (h : head.Spelled false tokens rest)
    (hchain : Chained contexts start tokens) (hsized : ∀ token ∈ tokens, token.Sized) :
    ∀ attr ∈ head.attributes, attr.ReadBare contexts := by
  obtain ⟨hname, hparts⟩ := h
  obtain ⟨rfl, -⟩ := keepsNesting_of_readName hname
  exact hparts.readBare (chained_append.1 hchain).2 (List.forall_mem_append.1 hsized).2 (by simp)

/-! ## Names -/

/-- How many square brackets elements leave open. -/
def unclosedIn (heads : List Element) : Nat :=
  (heads.map Element.unclosed).sum

/-- What is open behind the tokens `done`, where a statement can begin: what the elements `before`
and the literals among the tokens have left open. -/
def Between (contexts : Nat → Context) (done : List Token) (before : List Element) : Prop :=
  contexts (endOf 0 done) = { sets := unclosedIn before, braces := leaked contexts done }

/-- How an element behind the elements `before` is read, among `all` tokens of a source. -/
structure Element.Nested (contexts : Nat → Context) (all : List Token) (before : List Element)
    (head : Element) : Prop where
  /-- At a token of the name, what is open is what has been left open before. -/
  name : ∀ token ∈ head.name.getD [], ∃ earlier later, all = earlier ++ token :: later ∧
    contexts token.start = { sets := unclosedIn before, braces := leaked contexts earlier }
  /-- Nothing is open at a token of a short attribute. -/
  attributes : ∀ attr ∈ head.attributes, attr.ReadBare contexts

/-- How several elements are read that follow each other. -/
def NestedAll (contexts : Nat → Context) (all : List Token) (before : List Element) :
    List Element → Prop
  | [] => True
  | head :: heads =>
    head.Nested contexts all before ∧ NestedAll contexts all (before ++ [head]) heads

variable {all done : List Token} {before heads later : List Element}

theorem nestedAll_append : NestedAll contexts all before (heads ++ later) ↔
    NestedAll contexts all before heads ∧ NestedAll contexts all (before ++ heads) later := by
  induction heads generalizing before with
  | nil => simp [NestedAll]
  | cons head heads ih => simp [NestedAll, ih, and_assoc]

/-- What is open behind tokens that lead on. -/
theorem Between.advance (h : tokens ≠ [] → Between contexts done before)
    (hadvances : Advances contexts tokens rest squares)
    (hchain : Chained contexts 0 (done ++ tokens))
    (hsum : unclosedIn heads = unclosedIn before + squares) : ∃ taken, tokens = taken ++ rest ∧
      (rest ≠ [] → Between contexts (done ++ taken) heads) := by
  obtain ⟨taken, rfl, hleads⟩ := hadvances _ (chained_append.1 hchain).2
  refine ⟨taken, rfl, fun hrest => ?_⟩
  have hbetween := h (List.append_ne_nil_of_right_ne_nil taken hrest)
  obtain ⟨hquote, hsets, hbraces⟩ := hleads hrest (congrArg Context.quote hbetween)
  rw [Between, Token.endOf_append, Token.leaked_append, hsum]
  generalize contexts (endOf (endOf 0 done) taken) = context at hquote hsets hbraces
  obtain ⟨sets, braces, quote⟩ := context
  obtain rfl : quote = none := hquote
  obtain rfl : sets = _ := hsets
  obtain rfl : braces = _ := hbraces
  rw [hbetween]

/-- Between the tokens of a name only braces of literals come to be open. -/
theorem exists_of_mem_name (hchain : Chained contexts 0 (done ++ taken))
    (hbetween : taken ≠ [] → Between contexts done before)
    (hkind : ∀ token ∈ taken, token.kind.keepsNesting = true) :
    ∀ token ∈ taken, ∃ earlier later, taken = earlier ++ token :: later ∧
      contexts token.start =
        { sets := unclosedIn before, braces := leaked contexts (done ++ earlier) } := by
  intro token hmem
  obtain ⟨earlier, later, rfl⟩ := List.append_of_mem hmem
  refine ⟨earlier, later, rfl, ?_⟩
  obtain ⟨hfirst, hlater⟩ := List.forall_mem_append.1 hkind
  have hsum : unclosedIn before = unclosedIn before + 0 := rfl
  obtain ⟨middle, hmiddle, hbehind⟩ :=
    Between.advance hbetween (.plain hfirst (token :: later)) hchain hsum
  obtain rfl := List.append_cancel_right hmiddle
  have hplace : token.start = endOf 0 (done ++ earlier) := by
    rw [← List.append_assoc] at hchain
    exact (chained_append.1 hchain).2.1
  rw [hplace]
  exact hbehind (List.cons_ne_nil token later)

/-- No part of an element changes its name. -/
theorem PartsSpelled.name_eq {jsx : Bool} {element last : Element}
    (h : PartsSpelled jsx element tokens last rest) : last.name = element.name := by
  induction h with
  | nil => rfl
  | @cons element last part _ _ _ _ _ _ ih =>
    rw [ih]
    cases part with
    | repeater | text | attributes | close => rfl
  | @close element token _ tokens =>
    by_cases hnone : element.repeater = none
    · simp [Element.close, Element.add, hnone]
    · simp [Element.close, Element.add, hnone]

/-- An element is read behind what the tokens before it have left open. -/
theorem Element.Spelled.nested {head : Element} (h : head.Spelled false tokens rest)
    (hchain : Chained contexts 0 (done ++ tokens)) (hsized : ∀ token ∈ tokens, token.Sized)
    (hbetween : tokens ≠ [] → Between contexts done before) :
    head.Nested contexts (done ++ tokens) before := by
  refine ⟨?_, h.readBare (chained_append.1 hchain).2 hsized⟩
  obtain ⟨hname, hparts⟩ := h
  rename_i name behind
  obtain ⟨rfl, hkind⟩ := keepsNesting_of_readName hname
  -- An empty name is stored as none, which has no tokens either.
  have hhead : head.name.getD [] = name := by
    rw [hparts.name_eq]
    dsimp only
    split
    next hempty => rw [List.isEmpty_iff.1 hempty, Option.getD_none]
    next => rfl
  intro token hmem
  rw [hhead] at hmem
  rw [← List.append_assoc] at hchain
  obtain ⟨earlier, later, rfl, hcontext⟩ := exists_of_mem_name (chained_append.1 hchain).1
    (fun hne => hbetween (List.append_ne_nil_of_left_ne_nil hne behind)) hkind token hmem
  refine ⟨done ++ earlier, later ++ behind, ?_, hcontext⟩
  simp only [List.append_assoc, List.cons_append]

/-! ## Items -/

/-- The operators of a link change nothing that is open. -/
theorem Link.Follows.advances {link : Link} (h : link.Follows tokens rest) :
    Advances contexts tokens rest 0 := by
  rcases h with hmark | hmark | _ | ⟨-, hmarks, -⟩
  · exact .single hmark rfl rest
  · exact .single hmark rfl rest
  · exact .refl contexts tokens
  · refine .plain (fun mark hmem => ?_) rest
    rw [hmarks mark hmem]
    rfl

/-- Elements are read behind what the tokens and the elements before them have left open. -/
theorem Reads.nestedAll {items : List Item} (h : Reads false tokens items rest)
    (hchain : Chained contexts 0 (done ++ tokens)) (hsized : ∀ token ∈ tokens, token.Sized)
    (hbetween : tokens ≠ [] → Between contexts done before) : ∃ taken, tokens = taken ++ rest ∧
      (rest ≠ [] → Between contexts (done ++ taken) (before ++ Item.headsAll items)) ∧
      NestedAll contexts (done ++ tokens) before (Item.headsAll items) := by
  induction h generalizing done before with
  | nil tokens =>
    rw [Item.headsAll]
    exact ⟨[], rfl, by simpa using hbetween, trivial⟩
  | @element tokens behind rest last head link items hhead hlink _ ih =>
    -- The element and the operators behind it lead to where the next statement begins.
    have hspelled := Element.spelled_of_readElement? hhead
    have hnested := hspelled.nested hchain hsized hbetween
    have hsum : unclosedIn (before ++ [head]) = unclosedIn before + head.unclosed := by
      simp [unclosedIn]
    obtain ⟨taken, rfl, hbehind⟩ :=
      Between.advance hbetween (hspelled.advances.trans hlink.advances) hchain hsum
    obtain ⟨more, rfl, hlast, hall⟩ := ih (by rwa [List.append_assoc])
      (List.forall_mem_append.1 hsized).2 hbehind
    rw [Item.headsAll, Item.heads, List.singleton_append]
    refine ⟨taken ++ more, (List.append_assoc ..).symm, fun hne => ?_, hnested, ?_⟩
    · rw [← List.append_assoc, List.append_cons]
      exact hlast hne
    · rwa [List.append_assoc] at hall
  | @group opening closing tokens repeated behind rest last inside items repeater link hopening _
      hclosing hrepeater hlink _ ihinside ihmore =>
    have hsum (heads : List Element) : unclosedIn heads = unclosedIn heads + 0 := rfl
    have hrepeated : Advances contexts repeated _ 0 := advances_readRepeater repeated
    rw [hrepeater] at hrepeated
    have hbehind := (Advances.single hclosing rfl repeated).skip (hrepeated.skip hlink.advances)
    -- What is inside follows the opening bracket, and the next statement what closes the group.
    obtain ⟨taken, htaken, hopened⟩ :=
      Between.advance hbetween (.single hopening rfl tokens) hchain (hsum before)
    obtain rfl : [opening] = taken := List.append_cancel_right htaken
    obtain ⟨inner, rfl, hinner, hinside⟩ := ihinside (by rwa [List.append_assoc])
      (List.forall_mem_cons.1 hsized).2 hopened
    obtain ⟨closed, hclosed, hlater⟩ := Between.advance hinner hbehind
      (by simpa using hchain) (hsum _)
    rw [hclosed] at hchain hsized hinside ⊢
    obtain ⟨more, rfl, hlast, hall⟩ := ihmore (by simpa using hchain)
      (fun token hmem => hsized token (by simp [hmem])) hlater
    rw [Item.headsAll, Item.heads]
    refine ⟨opening :: (inner ++ (closed ++ more)), by simp, fun hne => ?_, ?_⟩
    · simpa using hlast hne
    · rw [nestedAll_append]
      exact ⟨by simpa using hinside, by simpa using hall⟩

/-! ## Sources -/

theorem NestedAll.nested {head : Element}
    (h : NestedAll contexts all [] (before ++ head :: later)) : head.Nested contexts all before :=
  (nestedAll_append.1 h).2.1

/-- Literals leave no braces open if and only if the contexts before and behind each are the
same. -/
theorem leaked_eq_zero_iff (hchain : Chained contexts start tokens) :
    leaked contexts tokens = 0 ↔ ∀ token ∈ tokens, ∀ text, token.kind = .literal text →
      contexts token.stop = contexts token.start := by
  induction tokens generalizing start with
  | nil => simp
  | cons token tokens ih =>
    obtain ⟨rfl, hemits, hchain⟩ := hchain
    have hfirst : token.kind.leak (contexts token.start) (contexts token.stop) = 0 ↔
        ∀ text, token.kind = .literal text → contexts token.stop = contexts token.start := by
      cases hkind : token.kind with
      | literal text =>
        rw [hkind] at hemits
        obtain ⟨opened, -, hstop⟩ := hemits
        rw [hstop]
        generalize contexts token.start = context
        obtain ⟨sets, braces, quote⟩ := context
        simp [Kind.leak]
      | _ => simp [Kind.leak]
    rw [Token.leaked_cons, Nat.add_eq_zero_iff, List.forall_mem_cons, hfirst, ih hchain]

/-- Behind a token that is not the last one there is a token. -/
theorem exists_start_eq_stop {token earlier : Token}
    (hchain : Chained contexts start (taken ++ token :: more)) (hmem : earlier ∈ taken) :
    ∃ next ∈ taken ++ token :: more, next.start = earlier.stop := by
  induction taken generalizing start with
  | nil => cases hmem
  | cons first taken ih =>
    rcases List.mem_cons.1 hmem with rfl | hmem
    · cases taken with
      | nil => exact ⟨token, by simp, hchain.2.2.1⟩
      | cons second taken => exact ⟨second, by simp, hchain.2.2.1⟩
    · obtain ⟨next, hnext, hstart⟩ := ih hchain.2.2 hmem
      exact ⟨next, List.mem_cons_of_mem first hnext, hstart⟩

/-- Every literal before byte `offset` of a source closes the braces that it opens inside a text:
what is open behind it is what is open before it. -/
def ClosesBraces (source : String) (offset : Nat) : Prop :=
  ∀ tokens, Token.tokenize source = .ok tokens → ∀ token ∈ tokens, token.start < offset →
    ∀ text, token.kind = .literal text →
      Token.contextAt? source token.stop = Token.contextAt? source token.start

/-- The literals before a token leave no braces open if and only if each of them closes its own. -/
theorem closesBraces_iff {source : String} {token : Token}
    (htokens : Token.tokenize source = .ok (taken ++ token :: more))
    (hchain : Chained contexts 0 (taken ++ token :: more))
    (hcontexts : ∀ other ∈ taken ++ token :: more,
      Token.contextAt? source other.start = some (contexts other.start)) :
    ClosesBraces source token.start ↔ leaked contexts taken = 0 := by
  have hstarts := Token.pairwise_start_of_tokenize htokens
  rw [leaked_eq_zero_iff (chained_append.1 hchain).1]
  -- What is open behind an earlier token is what the token behind it is read in.
  have hstop : ∀ earlier ∈ taken,
      Token.contextAt? source earlier.stop = some (contexts earlier.stop) := by
    intro earlier hmem
    obtain ⟨next, hnext, hstart⟩ := exists_start_eq_stop hchain hmem
    rw [← hstart]
    exact hcontexts next hnext
  constructor
  · intro hcloses earlier hmem text hkind
    have hall := List.mem_append_left (token :: more) hmem
    have hlt := (List.pairwise_append.1 hstarts).2.2 earlier hmem token List.mem_cons_self
    have hsame := hcloses _ htokens earlier hall hlt text hkind
    rwa [hstop earlier hmem, hcontexts earlier hall, Option.some.injEq] at hsame
  · intro hcloses tokens hread earlier hall hlt text hkind
    obtain rfl := Except.ok.inj (htokens.symm.trans hread)
    -- A token that begins earlier is one of those before the token.
    have hmem : earlier ∈ taken := by
      rcases List.mem_append.1 hall with hmem | hmem
      · exact hmem
      · obtain ⟨hlater, -⟩ := List.pairwise_cons.1 (List.pairwise_append.1 hstarts).2.1
        rcases List.mem_cons.1 hmem with rfl | hmem
        · omega
        · have := hlater earlier hmem
          omega
    rw [hstop earlier hmem, hcontexts earlier hall, hcloses earlier hmem text hkind]

/-- The two readers agree on nesting as far as literals close their braces and attributes their
square brackets. Short attributes are always read where nothing is open. A token of a name is read
there if and only if every literal before it closes the braces that it opens inside a text, and no
attribute of an earlier element leaves a square bracket open. Without backslashes in the source, a
literal that is read there is a plain name. -/
theorem nested_of_parse {source : String} {statements : List Statement}
    (h : parse false source = .ok statements) :
    (∀ head ∈ elementsAll statements, ∀ attr ∈ head.attributes, attr.isShort = true →
      ∀ token ∈ attr.value.getD [], Token.contextAt? source token.start = some {}) ∧
    ∀ before head after, elementsAll statements = before ++ head :: after →
      ∀ token ∈ head.name.getD [],
        (Token.contextAt? source token.start = some {} ↔
          ClosesBraces source token.start ∧ unclosedIn before = 0) ∧
        ('\\' ∉ source.toList → Token.contextAt? source token.start = some {} →
          ∀ text, token.kind = .literal text → ∃ left right,
            source.toList = left ++ text.toList ++ right ∧ Text.width left = token.start ∧
              PlainName left text.toList right ∧
              ∀ op : Operator, op.glyph ∈ text.toList → op = .close) := by
  obtain ⟨tokens, items, htokens, hreads, helements, hrepeaters⟩ := exists_reads_of_parse h
  obtain ⟨contexts, hbare, hchain, hcontexts⟩ := Token.exists_chained_of_tokenize htokens
  have hconserved := hreads.conserved htokens helements hrepeaters
  -- Before the first statement nothing is open.
  have hbetween : tokens ≠ [] → Between contexts [] [] := fun _ => hbare
  obtain ⟨-, -, -, hall⟩ := hreads.nestedAll hchain
    (fun token hmem => Token.sized_of_mem_tokenize htokens hmem) hbetween
  rw [List.nil_append, ← helements] at hall
  constructor
  · intro head hhead attr hattr hshort token hmem
    have hstored : token ∈ storedAll statements :=
      List.mem_flatMap.2 ⟨head, hhead, by
        simp only [Element.stored, List.mem_append, List.mem_flatMap]
        exact .inr (.inl ⟨attr, hattr, List.mem_append_right _ hmem⟩)⟩
    -- The token is one of the source, so there is a context in which it is read.
    obtain ⟨before, later, hsplit⟩ := List.append_of_mem hhead
    rw [hsplit] at hall
    rw [hcontexts token (hconserved.mem hstored)]
    exact congrArg some (hall.nested.attributes attr hattr hshort token hmem)
  · intro before head after hsplit token hmem
    rw [hsplit] at hall
    obtain ⟨earlier, later, rfl, hcontext⟩ := hall.nested.name token hmem
    have htoken : token ∈ earlier ++ token :: later := by simp
    have hiff := closesBraces_iff htokens hchain hcontexts
    refine ⟨?_, ?_⟩
    · rw [hiff, hcontexts token htoken, hcontext]
      simp [and_comm]
    · intro hescape hopen text hkind
      obtain ⟨left, right, hsource, hwidth, hplain⟩ :=
        Token.exists_plainName_of_contextAt? htokens hescape htoken hkind hopen
      exact ⟨left, right, hsource, hwidth, hplain, fun _ => hplain.operator⟩

/-- Behind brackets in a value and braces in a text that are closed, a name and the value of a short
attribute are read where nothing is open. -/
theorem nested_of_parse_closed : ∃ statements,
    parse false "p[a=[b]]\x7b\x7bx\x7d\x7d>q.r1/2" = .ok statements ∧
    elementsAll statements = [
      { name := some [⟨.literal "p", 0, 1⟩]
        attributes := [{
          name := some [⟨.literal "a", 2, 3⟩]
          value := some [⟨.bracket .attributes true, 4, 5⟩, ⟨.literal "b", 5, 6⟩,
            ⟨.bracket .attributes false, 6, 7⟩] }]
        value := some [⟨.literal "\x7bx\x7d", 9, 12⟩] },
      { name := some [⟨.literal "q", 14, 15⟩]
        attributes := [{
          name := some [⟨.literal "class", 15, 16⟩]
          value := some [⟨.literal "r1/2", 16, 20⟩] }] }] ∧
    ClosesBraces "p[a=[b]]\x7b\x7bx\x7d\x7d>q.r1/2" 14 ∧
    Token.contextAt? "p[a=[b]]\x7b\x7bx\x7d\x7d>q.r1/2" 16 = some {} := by
  have helements : (parse false "p[a=[b]]\x7b\x7bx\x7d\x7d>q.r1/2").map elementsAll = .ok [
      { name := some [⟨.literal "p", 0, 1⟩]
        attributes := [{
          name := some [⟨.literal "a", 2, 3⟩]
          value := some [⟨.bracket .attributes true, 4, 5⟩, ⟨.literal "b", 5, 6⟩,
            ⟨.bracket .attributes false, 6, 7⟩] }]
        value := some [⟨.literal "\x7bx\x7d", 9, 12⟩] },
      { name := some [⟨.literal "q", 14, 15⟩]
        attributes := [{
          name := some [⟨.literal "class", 15, 16⟩]
          value := some [⟨.literal "r1/2", 16, 20⟩] }] }] := by
    decide +kernel
  cases hparse : parse false "p[a=[b]]\x7b\x7bx\x7d\x7d>q.r1/2" with
  | error error =>
    rw [hparse] at helements
    cases helements
  | ok statements =>
    rw [hparse] at helements
    have helements := Except.ok.inj helements
    obtain ⟨hshort, hnames⟩ := nested_of_parse hparse
    have hname := (hnames [_] _ [] helements ⟨.literal "q", 14, 15⟩ (by simp)).1
    have hbare : Token.contextAt? "p[a=[b]]\x7b\x7bx\x7d\x7d>q.r1/2" 14 = some {} := by
      decide +kernel
    refine ⟨statements, rfl, helements, (hname.1 hbare).1, ?_⟩
    rw [helements] at hshort
    exact hshort _ (List.mem_cons_of_mem _ (List.mem_singleton.2 rfl)) _ (List.mem_singleton.2 rfl)
      (by decide) ⟨.literal "r1/2", 16, 20⟩ (by simp)

/-- A brace that is not closed before a dollar sign, and a square bracket that is not closed before
white space. Behind either, the greater-than sign is taken as part of a name, which is read inside
braces or inside a set. -/
theorem not_nested_of_parse :
    (∃ statements head, parse false "p\x7b\x7b$\x7d>a" = .ok statements ∧
      head ∈ elementsAll statements ∧ head.name = some [⟨.literal ">a", 5, 7⟩] ∧
      Token.contextAt? "p\x7b\x7b$\x7d>a" 5 = some { braces := 1 }) ∧
    ∃ statements head, parse false "p[a=[b c]>x" = .ok statements ∧
      head ∈ elementsAll statements ∧ head.name = some [⟨.literal ">x", 9, 11⟩] ∧
      Token.contextAt? "p[a=[b c]>x" 9 = some { sets := 1 } := by
  have hlast {source : String} {token : Token} {before : List Element}
      (h : (parse false source).map elementsAll = .ok (before ++ [{ name := some [token] }])) :
      ∃ statements head, parse false source = .ok statements ∧ head ∈ elementsAll statements ∧
        head.name = some [token] := by
    cases hparse : parse false source with
    | error error =>
      rw [hparse] at h
      cases h
    | ok statements =>
      rw [hparse] at h
      refine ⟨statements, { name := some [token] }, rfl, ?_, rfl⟩
      rw [Except.ok.inj h]
      exact List.mem_append_right before (List.mem_singleton.2 rfl)
  have hbraces : (parse false "p\x7b\x7b$\x7d>a").map elementsAll = .ok ([
      { name := some [⟨.literal "p", 0, 1⟩]
        value := some [⟨.literal "\x7b", 2, 3⟩, ⟨.numbering ⟨1, false, 1, 0⟩, 3, 4⟩] }] ++
      [{ name := some [⟨.literal ">a", 5, 7⟩] }]) := by
    decide +kernel
  have hsets : (parse false "p[a=[b c]>x").map elementsAll = .ok ([
      { name := some [⟨.literal "p", 0, 1⟩]
        attributes := [
          { name := some [⟨.literal "a", 2, 3⟩]
            value := some [⟨.bracket .attributes true, 4, 5⟩, ⟨.literal "b", 5, 6⟩] },
          { name := some [⟨.literal "c", 7, 8⟩] }] }] ++
      [{ name := some [⟨.literal ">x", 9, 11⟩] }]) := by
    decide +kernel
  obtain ⟨statements, head, hparse, hmem, hname⟩ := hlast hbraces
  obtain ⟨statements', head', hparse', hmem', hname'⟩ := hlast hsets
  exact ⟨⟨statements, head, hparse, hmem, hname, by decide +kernel⟩,
    statements', head', hparse', hmem', hname', by decide +kernel⟩

end Statement

end Shorthand
