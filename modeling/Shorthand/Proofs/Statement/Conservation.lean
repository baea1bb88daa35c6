import Mathlib.Data.List.Sort
import Shorthand.Proofs.Statement.Contents
import Shorthand.Proofs.Statement.Spelling
import Shorthand.Proofs.Token.Sizes

/-!
# Tokens in the tree

Reading statements loses no token and makes none. Every token of a source is stored in the tree
once, or it is structure: an operator, a bracket, white space, or the repeater of a statement. The
tree holds no other tokens, except for the names `id` and `class` of short attributes, which stand
for the marks.

## Main definitions

* `Token.standsForMark`: the name of a short attribute;
* `storedAll`: the tokens that are stored in statements;
* `Keeps`: what becomes of tokens when some of them are read.

## Main results

* `Element.Spelled.keeps`, `Reads.keeps`: what becomes of the tokens of elements and of items;
* `conserved_of_parse`: what becomes of the tokens of a source.
-/

namespace Shorthand

/-! ## Kinds of tokens -/

/-- Whether a token is the name of a short attribute, in place of the mark at its byte. -/
def Token.standsForMark (token : Token) : Bool :=
  (token.kind == .literal "id" || token.kind == .literal "class") && token.stop == token.start + 1

/-- Whether tokens of this kind are text, marks of a quoted value, or something to be resolved. -/
def Token.Kind.isContent : Token.Kind → Bool
  | .literal _ | .numbering _ | .placeholder | .field _ | .quote _ => true
  | _ => false

/-- Whether tokens of this kind can be structure alone. -/
def Token.Kind.isStructural : Token.Kind → Bool
  | .operator _ | .bracket _ _ | .blank _ | .repeater _ => true
  | _ => false

/-- What is structure is not content. -/
theorem Token.Kind.isContent_eq_false {kind : Token.Kind} (h : kind.isStructural = true) :
    kind.isContent = false := by
  cases kind with
  | operator | bracket | blank | repeater => rfl
  | literal | numbering | placeholder | field | quote => cases h

/-- Whether tokens of this kind are repeaters. -/
def Token.Kind.isRepeater : Token.Kind → Bool
  | .repeater _ => true
  | _ => false

/-- A token covers too many bytes to stand for a mark, if it covers as many as its kind says. -/
theorem Token.Sized.standsForMark {token : Token} (h : token.Sized) :
    token.standsForMark = false := by
  obtain ⟨kind, start, stop⟩ := token
  rw [Bool.eq_false_iff]
  intro hmark
  simp only [Token.standsForMark, Bool.and_eq_true, Bool.or_eq_true, beq_iff_eq] at hmark
  obtain ⟨rfl | rfl, rfl⟩ := hmark
  · have hle : 2 ≤ start + 1 - start := h
    omega
  · have hle : 5 ≤ start + 1 - start := h
    omega

/-- The name that is put in place of a mark stands for it. -/
theorem Token.Sized.standsForMark_mark {mark : Token} (h : mark.Sized) {op : Operator}
    (hmark : mark.kind = .operator op) {name : String} (hname : name = "id" ∨ name = "class") :
    Token.standsForMark { mark with kind := .literal name } = true := by
  obtain ⟨kind, start, stop⟩ := mark
  obtain rfl : kind = .operator op := hmark
  have hsize : stop - start = 1 := h
  obtain rfl : stop = start + 1 := by omega
  rcases hname with rfl | rfl
  · simp [Token.standsForMark]
  · simp [Token.standsForMark]

namespace Statement

/-! ## Stored tokens -/

/-- The tokens that are stored in an attribute, without the name of a short one. -/
def Attribute.stored (attr : Attribute) : List Token :=
  (attr.name.getD []).filter (!·.standsForMark) ++ attr.value.getD []

/-- The tokens that are stored in an element. -/
def Element.stored (head : Element) : List Token :=
  head.name.getD [] ++ (head.attributes.flatMap Attribute.stored ++ head.value.getD [])

/-- The tokens that are stored in statements. -/
def storedAll (statements : List Statement) : List Token :=
  (elementsAll statements).flatMap Element.stored

/-- Of `tokens`, of which none stands for a mark, those of the list `stored` are kept and those of
the list `rest` are left. The others are structure, and as many of them as said are repeaters. -/
def Keeps (tokens stored : List Token) (repeaters : Nat) (rest : List Token) : Prop :=
  (∀ token ∈ tokens, token.Sized) → ∃ dropped, tokens.Perm (stored ++ (dropped ++ rest)) ∧
    (∀ token ∈ dropped, token.kind.isStructural = true) ∧
    dropped.countP (·.kind.isRepeater) = repeaters

namespace Keeps

variable {tokens stored more behind rest : List Token} {repeaters further : Nat}

/-- All tokens up to the rest are kept. -/
theorem keep (stored rest : List Token) : Keeps (stored ++ rest) stored 0 rest :=
  fun _ => ⟨[], List.Perm.refl _, by simp, rfl⟩

theorem nothing (tokens : List Token) : Keeps tokens [] 0 tokens :=
  keep [] tokens

/-- A token that is structure is dropped. -/
theorem drop {token : Token} {kind : Token.Kind} (hkind : token.kind = kind)
    (h : kind.isStructural = true) (rest : List Token) :
    Keeps (token :: rest) [] kind.isRepeater.toNat rest := by
  subst hkind
  refine fun _ => ⟨[token], List.Perm.refl _, by simpa using h, ?_⟩
  rw [List.countP_singleton]
  cases token.kind.isRepeater with
  | false => rfl
  | true => rfl

/-- Reading on from where tokens are left keeps more of them. -/
theorem trans (h : Keeps tokens stored repeaters behind) (hmore : Keeps behind more further rest) :
    Keeps tokens (stored ++ more) (repeaters + further) rest := by
  intro hsized
  obtain ⟨dropped, hperm, hdropped, rfl⟩ := h hsized
  have hbehind : ∀ token ∈ behind, token.Sized := fun token hmem =>
    hsized token (hperm.mem_iff.2 (by simp [hmem]))
  -- What is left is a part of the tokens, so none of it stands for a mark either.
  obtain ⟨dropped', hperm', hdropped', rfl⟩ := hmore hbehind
  refine ⟨dropped ++ dropped', ?_, ?_, List.countP_append⟩
  · rw [List.perm_iff_count] at hperm hperm' ⊢
    intro token
    have hcount := hperm token
    have hcount' := hperm' token
    simp only [List.count_append] at hcount hcount' ⊢
    omega
  · intro token hmem
    rcases List.mem_append.1 hmem with hmem | hmem
    · exact hdropped token hmem
    · exact hdropped' token hmem

/-- Reading on from where tokens are left, if none has been kept so far and no repeater dropped. -/
theorem skip (h : Keeps tokens [] 0 behind) (hmore : Keeps behind more further rest) :
    Keeps tokens more further rest := by
  have hkeeps := h.trans hmore
  rwa [List.nil_append, Nat.zero_add] at hkeeps

/-- The order of what is kept does not matter. -/
theorem perm (h : Keeps tokens stored repeaters rest) (hperm : stored.Perm more) :
    Keeps tokens more repeaters rest := by
  intro hsized
  obtain ⟨dropped, htokens, hdropped⟩ := h hsized
  exact ⟨dropped, htokens.trans (hperm.append_right _), hdropped⟩

/-- What is kept can be said where the sizes of the tokens are known. -/
theorem of_sized (h : (∀ token ∈ tokens, token.Sized) → Keeps tokens stored repeaters rest) :
    Keeps tokens stored repeaters rest :=
  fun hsized => h hsized hsized

end Keeps

variable {jsx : Bool} {tokens value rest : List Token}

/-! ## Attributes -/

/-- The tokens of a name that is written are all stored. -/
theorem Attribute.stored_of_sized {name : List Token} (h : ∀ token ∈ name, token.Sized)
    (value : Option (List Token)) :
    Attribute.stored { name := some name, value } = name ++ value.getD [] := by
  have hname : name.filter (!·.standsForMark) = name := by
    rw [List.filter_eq_self]
    intro token hmem
    rw [(h token hmem).standsForMark]
    rfl
  rw [stored, Option.getD_some, hname]

theorem Attribute.Spelled.keeps {attr : Attribute} (h : attr.Spelled tokens rest) :
    Keeps tokens attr.stored 0 rest := by
  refine .of_sized fun hsized => ?_
  rcases h with hvalue | hname | ⟨hname, hequal⟩ | ⟨hname, hequal, hvalue⟩
  · exact .keep _ rest
  · rw [stored_of_sized fun token hmem => hsized token (List.mem_append_left _ hmem)]
    rw [Option.getD_none, List.append_nil]
    exact .keep _ rest
  · rw [stored_of_sized fun token hmem => hsized token (List.mem_append_left _ hmem)]
    exact (Keeps.keep _ _).trans (.drop hequal rfl rest)
  · rw [stored_of_sized fun token hmem => hsized token (List.mem_append_left _ hmem)]
    exact (Keeps.keep _ _).trans ((Keeps.drop hequal rfl _).skip (.keep _ rest))

theorem SetSpelled.keeps {attributes : List Attribute} (h : SetSpelled tokens attributes rest) :
    Keeps tokens (attributes.flatMap Attribute.stored) 0 rest := by
  induction h with
  | ended => exact .nothing []
  | closing hclosing => exact .drop hclosing rfl _
  | blank hblank _ ih => exact (Keeps.drop hblank rfl _).skip ih
  | attr hattr _ ih => exact hattr.keeps.trans ih

/-- What is read of a text up to its closing brace is kept without that brace. -/
theorem keeps_dropFinal {kind : Token.Kind} (h : kind.isStructural = true)
    (hrepeater : kind.isRepeater = false) (body rest : List Token) :
    Keeps (body ++ rest) (dropFinal kind body) 0 rest := by
  unfold dropFinal
  split
  next hfinal =>
    obtain ⟨closing, hclosing, hkind⟩ := (Option.any_eq_true _ _).1 hfinal
    -- The closing brace is dropped from the end of what has been read.
    obtain ⟨value, rfl⟩ := List.getLast?_eq_some_iff.1 hclosing
    have hkeeps := (Keeps.keep value (closing :: rest)).trans (.drop (beq_iff_eq.1 hkind) h rest)
    rw [List.dropLast_concat, List.append_assoc]
    rwa [List.append_nil, hrepeater] at hkeeps
  next => exact .keep body rest

/-- A text is kept without its braces, of which the second one may be missing. -/
theorem keeps_of_readText? (h : readText? tokens = some (value, rest)) :
    Keeps tokens value 0 rest := by
  unfold readText? at h
  split at h
  next start stop tokens =>
    obtain ⟨rfl, rfl⟩ : dropFinal _ (readThroughBrace 0 tokens).1 = value ∧
        (readThroughBrace 0 tokens).2 = rest := by simpa using h
    have hbody : Keeps _ (dropFinal (.bracket .expression false) _) 0 _ :=
      keeps_dropFinal rfl rfl (readThroughBrace 0 tokens).1 (readThroughBrace 0 tokens).2
    rw [readThroughBrace_append] at hbody
    exact (Keeps.drop rfl rfl tokens).skip hbody
  next => cases h

/-! ## Elements -/

theorem Attribute.ShortSpelled.keeps {name : String} {mark : Token} {attr : Attribute}
    {op : Operator} (h : attr.ShortSpelled jsx name mark tokens rest) (hmark : mark.Sized)
    (hkind : mark.kind = .operator op) (hname : name = "id" ∨ name = "class") :
    Keeps tokens attr.stored 0 rest := by
  -- The name stands for the mark, so only the value is stored.
  have hstands := hmark.standsForMark_mark hkind hname
  rcases h with _ | ⟨hvalue⟩ | ⟨-, htext⟩
  · simpa [Attribute.stored, hstands] using Keeps.nothing tokens
  · simpa [Attribute.stored, hstands] using Keeps.keep _ rest
  · simpa [Attribute.stored, hstands] using keeps_of_readText? htext

/-- What a part adds to the tokens that are stored in an element. -/
def Part.stored : Part → List Token
  | .text value => value
  | .attributes added => added.flatMap Attribute.stored
  | _ => []

/-- The repeater that a part adds to an element. -/
def Part.repeater? : Part → Option Repeater
  | .repeater added => some added
  | _ => none

theorem Part.Spelled.keeps {element : Element} {part : Part}
    (h : part.Spelled jsx element tokens rest) :
    Keeps tokens part.stored part.repeater?.toList.length rest := by
  refine .of_sized fun hsized => ?_
  rcases h with ⟨htoken, -⟩ | ⟨htext, -⟩ | ⟨hmark, hattr⟩ | ⟨hopening, hset⟩ | ⟨htoken⟩
  · exact .drop htoken rfl rest
  · exact keeps_of_readText? htext
  · -- The mark is an operator, whichever of the two it is.
    obtain ⟨hsized, -⟩ := List.forall_mem_cons.1 hsized
    rw [Part.stored, List.flatMap_singleton]
    rcases hmark with ⟨hmark, hname⟩ | ⟨hmark, hname⟩
    · exact (Keeps.drop hmark rfl _).skip (hattr.keeps hsized hmark (.inl hname))
    · exact (Keeps.drop hmark rfl _).skip (hattr.keeps hsized hmark (.inr hname))
  · exact (Keeps.drop hopening rfl _).skip hset.keeps
  · exact .drop htoken rfl rest

/-- Further attributes are stored along with those that are there. -/
theorem Element.perm_stored_attributes (element : Element) (added : List Attribute) :
    (element.stored ++ added.flatMap Attribute.stored).Perm
      (element.add (.attributes added)).stored := by
  -- The new attributes are stored before the text, but the order does not count here.
  rw [List.perm_iff_count]
  intro token
  simp only [Element.add, Element.stored, List.flatMap_append, List.count_append]
  omega

/-- A part that is read adds to what is stored in the element: it does not take the place of
another. -/
theorem Part.Spelled.perm_stored {element : Element} {part : Part}
    (h : part.Spelled jsx element tokens rest) :
    (element.stored ++ part.stored).Perm (element.add part).stored ∧
      element.repeater.toList.length + part.repeater?.toList.length =
        (element.add part).repeater.toList.length := by
  rcases h with ⟨-, hnone⟩ | ⟨-, hnone⟩ | _ | _ | _
  · simp [Element.add, Part.stored, Part.repeater?, Element.stored, hnone]
  · simp [Element.add, Part.stored, Part.repeater?, Element.stored, hnone]
  · exact ⟨element.perm_stored_attributes _, rfl⟩
  · exact ⟨element.perm_stored_attributes _, rfl⟩
  · simp [Element.add, Part.stored, Part.repeater?, Element.stored]

/-- The repeater with which tokens begin is dropped. -/
theorem keeps_readRepeater (tokens : List Token) :
    Keeps tokens [] (readRepeater tokens).1.toList.length (readRepeater tokens).2 := by
  unfold readRepeater
  split
  next repeater start stop rest => exact .drop rfl rfl rest
  next => exact .nothing tokens

/-- Behind the mark of an element that closes itself, its repeater may be dropped. -/
theorem keeps_close (element : Element) (tokens : List Token) : ∃ repeaters,
    Keeps tokens [] repeaters (element.close tokens).2 ∧
      (element.close tokens).1.stored = element.stored ∧
      (element.close tokens).1.repeater.toList.length =
        element.repeater.toList.length + repeaters := by
  by_cases hnone : element.repeater = none
  · refine ⟨(readRepeater tokens).1.toList.length, ?_, ?_, ?_⟩
    · simpa [Element.close, Element.add, hnone] using keeps_readRepeater tokens
    · simp [Element.close, Element.add, hnone, Element.stored]
    · simp [Element.close, Element.add, hnone]
  · exact ⟨0, by simpa [Element.close, Element.add, hnone] using Keeps.nothing tokens, by
      simp [Element.close, Element.add, hnone, Element.stored], by
      simp [Element.close, Element.add, hnone]⟩

/-- What the parts of an element add to what is stored in it, and to its repeater. -/
theorem PartsSpelled.keeps {element last : Element}
    (h : PartsSpelled jsx element tokens last rest) : ∃ stored repeaters,
      Keeps tokens stored repeaters rest ∧
      (element.stored ++ stored).Perm last.stored ∧
      element.repeater.toList.length + repeaters = last.repeater.toList.length := by
  induction h with
  | nil element rest => exact ⟨[], 0, .nothing rest, by simp, rfl⟩
  | cons hpart hclose _ ih =>
    obtain ⟨stored, repeaters, hkeeps, hperm, hcount⟩ := ih
    -- The part adds to the element what the tokens of the part keep.
    obtain ⟨hadd, hrepeater⟩ := hpart.perm_stored
    refine ⟨_, _, hpart.keeps.trans hkeeps, ?_, by omega⟩
    rw [← List.append_assoc]
    exact (hadd.append_right stored).trans hperm
  | @close element token htoken tokens =>
    obtain ⟨repeaters, hkeeps, hstored, hcount⟩ := keeps_close element tokens
    exact ⟨[], repeaters, (Keeps.drop htoken rfl tokens).skip hkeeps, by simp [hstored],
      hcount.symm⟩

/-- The tokens of an element are kept in it, or they are structure. -/
theorem Element.Spelled.keeps {head : Element} (h : head.Spelled jsx tokens rest) :
    Keeps tokens head.stored head.repeater.toList.length rest := by
  obtain ⟨hname, hparts⟩ := h
  rename_i name behind
  obtain ⟨stored, repeaters, hkeeps, hperm, hcount⟩ := hparts.keeps
  have hcount : 0 + repeaters = head.repeater.toList.length := hcount
  -- The name is stored in the element before any part is read.
  have hstored : Element.stored { name := if name.isEmpty then none else some name } = name := by
    split
    next hempty => simp [Element.stored, List.isEmpty_iff.1 hempty]
    next => simp [Element.stored]
  have happend := readName_append jsx tokens
  rw [hname] at happend
  rw [hstored] at hperm
  have hkept := ((Keeps.keep name behind).trans hkeeps).perm hperm
  rwa [happend, hcount] at hkept

/-! ## Items -/

/-- The operators of a link are dropped. -/
theorem Link.Follows.keeps {link : Link} (h : link.Follows tokens rest) :
    Keeps tokens [] 0 rest := by
  rcases h with hmark | hmark | _ | ⟨-, hmarks, -⟩
  · exact .drop hmark rfl rest
  · exact .drop hmark rfl rest
  · exact .nothing tokens
  · rename_i marks
    induction marks with
    | nil => exact .nothing rest
    | cons mark marks ih =>
      -- Each operator that climbs is dropped by itself.
      obtain ⟨hmark, hmarks⟩ := List.forall_mem_cons.1 hmarks
      exact (Keeps.drop hmark rfl (marks ++ rest)).skip (ih hmarks)

/-- The tokens of items are kept in their elements, or they are structure. -/
theorem Reads.keeps {items : List Item} (h : Reads jsx tokens items rest) :
    Keeps tokens ((Item.headsAll items).flatMap Element.stored) (Item.repeatersAll items).length
      rest := by
  induction h with
  | nil tokens =>
    rw [Item.headsAll, Item.repeatersAll]
    exact .nothing tokens
  | element hhead hlink _ ih =>
    rw [Item.headsAll, Item.heads, Item.repeatersAll, Item.repeaters, List.flatMap_append,
      List.flatMap_singleton, List.length_append]
    exact (Element.spelled_of_readElement? hhead).keeps.trans (hlink.keeps.skip ih)
  | @group _ _ _ repeated _ _ _ inside items repeater _ hopening _ hclosing hrepeater hlink _
      ihinside ihmore =>
    rw [Item.headsAll, Item.heads, Item.repeatersAll, Item.repeaters, List.flatMap_append,
      List.length_append, List.length_append, Nat.add_comm repeater.toList.length, Nat.add_assoc]
    have hrepeated := keeps_readRepeater repeated
    rw [hrepeater] at hrepeated
    -- The group is opened and closed around what is inside, and its repeater comes behind that.
    exact (Keeps.drop hopening rfl _).skip (ihinside.trans
      ((Keeps.drop hclosing rfl _).skip (hrepeated.trans (hlink.keeps.skip ihmore))))

/-! ## Sources -/

/-- What becomes of the tokens of a source in a tree: each is stored there once or is structure, and
no other tokens are stored. -/
structure Conserved (tokens : List Token) (statements : List Statement) : Prop where
  /-- No token is stored twice. -/
  nodup : (storedAll statements).Nodup
  /-- In the order in which they begin, the stored tokens are some of those of the source, in their
  order. -/
  sublist : ((storedAll statements).mergeSort fun token later => token.start ≤ later.start).Sublist
    tokens
  /-- Literals, numberings, placeholders, fields and quotation marks are stored. -/
  content : ∀ token ∈ tokens, token.kind.isContent = true → token ∈ storedAll statements
  /-- What is not stored is an operator, a bracket, white space or a repeater. -/
  structural : ∀ token ∈ tokens, token ∉ storedAll statements → token.kind.isStructural = true
  /-- A repeater is stored, or it belongs to a statement. -/
  repeaters : (repeatersAll statements).length +
    (storedAll statements).countP (·.kind.isRepeater) = tokens.countP (·.kind.isRepeater)

/-- Sorted by where they begin, tokens of which no two begin at one byte begin at ever later
bytes. -/
theorem pairwise_start_mergeSort {tokens : List Token} (h : (tokens.map Token.start).Nodup) :
    (tokens.mergeSort fun token later => token.start ≤ later.start).Pairwise
      fun token later => token.start < later.start := by
  have hsorted := @List.pairwise_mergeSort Token (fun a b => a.start ≤ b.start)
    (by simp only [decide_eq_true_eq]; omega)
    (by simp only [Bool.or_eq_true, decide_eq_true_eq]; omega) tokens
  -- Sorting keeps the tokens apart, since it only reorders them.
  have hdistinct : (tokens.mergeSort fun token later => token.start ≤ later.start).Pairwise
      fun token later => token.start ≠ later.start := by
    rw [← List.pairwise_map]
    exact ((List.mergeSort_perm tokens _).map Token.start).nodup_iff.2 h
  refine (hsorted.and hdistinct).imp fun {token later} hle => ?_
  exact Nat.lt_of_le_of_ne (of_decide_eq_true hle.1) hle.2

/-- Where tokens are kept or dropped, and nothing is left of them, they are conserved. -/
theorem Keeps.conserved {tokens : List Token} {statements : List Statement}
    (h : Keeps tokens (storedAll statements) (repeatersAll statements).length [])
    (hsized : ∀ token ∈ tokens, token.Sized)
    (hstarts : tokens.Pairwise fun token later => token.start < later.start) :
    Conserved tokens statements := by
  obtain ⟨dropped, hperm, hdropped, hcount⟩ := h hsized
  rw [List.append_nil] at hperm
  -- No two tokens of the source begin at one byte, and the stored ones are some of these.
  have hdistinct : ((storedAll statements).map Token.start).Nodup := by
    have hall : (tokens.map Token.start).Nodup :=
      List.pairwise_map.2 (hstarts.imp Nat.ne_of_lt)
    rw [(hperm.map Token.start).nodup_iff, List.map_append] at hall
    exact hall.of_append_left
  have hstructural : ∀ token ∈ tokens, token ∉ storedAll statements →
      token.kind.isStructural = true := fun token hmem hnot =>
    hdropped token ((List.mem_append.1 (hperm.mem_iff.1 hmem)).resolve_left hnot)
  refine ⟨hdistinct.of_map, ?_, fun token hmem hcontent => ?_, hstructural, ?_⟩
  · -- Two lists of tokens that begin at ever later bytes, the first one a part of the second.
    apply List.sublist_of_subperm_of_pairwise (r := fun token later => token.start < later.start)
      _ (pairwise_start_mergeSort hdistinct) hstarts
    exact (List.mergeSort_perm _ _).subperm.trans
      ((List.sublist_append_left _ _).subperm.trans hperm.symm.subperm)
  · apply Decidable.byContradiction
    intro hnot
    rw [Token.Kind.isContent_eq_false (hstructural token hmem hnot)] at hcontent
    cases hcontent
  · rw [hperm.countP_eq, List.countP_append, hcount, Nat.add_comm]

/-- The tokens of a source are conserved in statements that have the elements and the repeaters of
the items that the tokens spell. -/
theorem Reads.conserved {source : String} {items : List Item} {statements : List Statement}
    (htokens : Token.tokenize source = .ok tokens) (h : Reads jsx tokens items [])
    (helements : elementsAll statements = Item.headsAll items)
    (hrepeaters : repeatersAll statements = Item.repeatersAll items) :
    Conserved tokens statements := by
  have hkeeps := h.keeps
  rw [← helements, ← hrepeaters] at hkeeps
  exact Keeps.conserved hkeeps (fun token hmem => Token.sized_of_mem_tokenize htokens hmem)
    (Token.pairwise_start_of_tokenize htokens)

/-- Whatever is stored is a token of the source. -/
theorem Conserved.mem {statements : List Statement} (h : Conserved tokens statements)
    {token : Token} (hmem : token ∈ storedAll statements) : token ∈ tokens :=
  h.sublist.subset (List.mem_mergeSort.2 hmem)

/-- The tokens of a source are conserved in what is parsed of it. -/
theorem conserved_of_parse {jsx : Bool} {source : String} {statements : List Statement}
    (h : parse jsx source = .ok statements) :
    ∃ tokens, Token.tokenize source = .ok tokens ∧ Conserved tokens statements := by
  obtain ⟨tokens, items, htokens, hreads, helements, hrepeaters⟩ := exists_reads_of_parse h
  exact ⟨tokens, htokens, hreads.conserved htokens helements hrepeaters⟩

/-- A quoted value is stored with its marks, a class without the dot. The repeater is that of an
element. -/
theorem conserved_of_parse_quoted : ∃ statements tokens,
    parse false "a[\"x\"]>p.c*2" = .ok statements ∧
    Token.tokenize "a[\"x\"]>p.c*2" = .ok tokens ∧ Conserved tokens statements ∧
    storedAll statements = [⟨.literal "a", 0, 1⟩, ⟨.quote .double, 2, 3⟩, ⟨.literal "x", 3, 4⟩,
      ⟨.quote .double, 4, 5⟩, ⟨.literal "p", 7, 8⟩, ⟨.literal "c", 9, 10⟩] := by
  have hstored : (parse false "a[\"x\"]>p.c*2").map storedAll = .ok [⟨.literal "a", 0, 1⟩,
      ⟨.quote .double, 2, 3⟩, ⟨.literal "x", 3, 4⟩, ⟨.quote .double, 4, 5⟩, ⟨.literal "p", 7, 8⟩,
      ⟨.literal "c", 9, 10⟩] := by
    decide +kernel
  cases hparse : parse false "a[\"x\"]>p.c*2" with
  | error error =>
    rw [hparse] at hstored
    cases hstored
  | ok statements =>
    rw [hparse] at hstored
    obtain ⟨tokens, htokens, hconserved⟩ := conserved_of_parse hparse
    exact ⟨statements, tokens, rfl, htokens, hconserved, Except.ok.inj hstored⟩

end Statement

end Shorthand
