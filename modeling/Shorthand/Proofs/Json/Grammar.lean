import Shorthand.Document
import Shorthand.Proofs.Text.CodePoints
import Shorthand.Proofs.Text.Digits

/-!
# The grammar of JSON

Which texts spell which documents. The relations follow the rules of the notation one by one and do
not mention how a text is read.

## Main definitions

* `SpellsNumber`, `SpellsString`: numbers and strings;
* `Spells`: any value, with white space around it and inside;
* `IsReader`: a reader that follows the grammar.
-/

namespace Shorthand.Json

/-- White space, which may stand around any value, key, bracket or separator. -/
def IsSpaces (cs : List Char) : Prop :=
  ∀ c ∈ cs, c ∈ [' ', '\t', '\n', '\r']

theorem isSpaces_nil : IsSpaces [] :=
  nofun

/-! ## Numbers -/

/-- One or more digits. -/
def Digits (cs : List Char) : Prop :=
  cs ≠ [] ∧ ∀ c ∈ cs, c.isDigit = true

/-- The digits of a number before its decimal point. The first of several is not zero. -/
def Whole (cs : List Char) : Prop :=
  Digits cs ∧ (cs.length = 1 ∨ cs.head? ≠ some '0')

/-- A decimal point and what follows it, which may be missing. -/
inductive Fraction : List Char → Prop
  | none : Fraction []
  | point {digits : List Char} (h : Digits digits) : Fraction ('.' :: digits)

/-- A power of ten, which may be missing. -/
inductive Exponent : List Char → Prop
  | none : Exponent []
  | power {letter : Char} {sign digits : List Char} (hletter : letter = 'e' ∨ letter = 'E')
      (hsign : sign = [] ∨ sign = ['+'] ∨ sign = ['-']) (h : Digits digits) :
      Exponent (letter :: (sign ++ digits))

/-- A number. Only one that is written as a natural number keeps its value. -/
inductive SpellsNumber : List Char → Document → Prop
  | natural {digits : List Char} (h : Whole digits) :
      SpellsNumber digits (.natural (Nat.ofDigitChars 10 digits 0))
  | other {sign whole fraction exponent : List Char} (hsign : sign = [] ∨ sign = ['-'])
      (hwhole : Whole whole) (hfraction : Fraction fraction) (hexponent : Exponent exponent)
      (hmore : sign ≠ [] ∨ fraction ≠ [] ∨ exponent ≠ []) :
      SpellsNumber (sign ++ whole ++ fraction ++ exponent) .other

/-! ## Strings -/

/-- The letters of the short escapes, with the characters that they stand for. -/
def escapes : List (Char × Char) :=
  [('"', '"'), ('\\', '\\'), ('/', '/'), ('b', '\x08'), ('f', '\x0c'), ('n', '\n'), ('r', '\r'),
    ('t', '\t')]

/-- The code units that the characters between the marks of a string spell. -/
inductive SpellsUnits : List Char → List Nat → Prop
  | nil : SpellsUnits [] []
  | plain {c : Char} {cs : List Char} {units : List Nat} (hmark : c ≠ '"') (hslash : c ≠ '\\')
      (hcontrol : 0x20 ≤ c.toNat) (h : SpellsUnits cs units) :
      SpellsUnits (c :: cs) (c.toNat :: units)
  | short {letter c : Char} {cs : List Char} {units : List Nat} (hletter : (letter, c) ∈ escapes)
      (h : SpellsUnits cs units) : SpellsUnits ('\\' :: letter :: cs) (c.toNat :: units)
  | code {digits cs : List Char} {unit : Nat} {units : List Nat} (hlength : digits.length = 4)
      (hdigits : Text.SpellsHex digits unit) (h : SpellsUnits cs units) :
      SpellsUnits ('\\' :: 'u' :: (digits ++ cs)) (unit :: units)

/-- A string, with its text if its code units stand for one. -/
def SpellsString (cs : List Char) (text? : Option String) : Prop :=
  ∃ inside units, cs = '"' :: (inside ++ ['"']) ∧ SpellsUnits inside units ∧
    ∀ text, text? = some text ↔ Text.Encodes units text.toList

/-! ## Values -/

/-- A string with white space around it, which is the key of an entry. -/
def SpellsKey (cs : List Char) (key : Option String) : Prop :=
  ∃ before string after, cs = before ++ string ++ after ∧
    IsSpaces before ∧ SpellsString string key ∧ IsSpaces after

mutual

/-- The document that a text spells. -/
inductive Spells : List Char → Document → Prop
  | spaced {before cs after : List Char} {document : Document} (hbefore : IsSpaces before)
      (h : Spells cs document) (hafter : IsSpaces after) : Spells (before ++ cs ++ after) document
  | null : Spells "null".toList .null
  | boolTrue : Spells "true".toList (.bool true)
  | boolFalse : Spells "false".toList (.bool false)
  | number {cs : List Char} {document : Document} (h : SpellsNumber cs document) :
      Spells cs document
  | string {cs : List Char} {text? : Option String} (h : SpellsString cs text?) :
      Spells cs (.ofText? text?)
  | emptyList {spaces : List Char} (h : IsSpaces spaces) :
      Spells ('[' :: (spaces ++ [']'])) (.list [])
  | list {cs : List Char} {items : List Document} (h : SpellsItems cs items) :
      Spells ('[' :: (cs ++ [']'])) (.list items)
  | emptyTable {spaces : List Char} (h : IsSpaces spaces) :
      Spells ('{' :: (spaces ++ ['}'])) (.table [])
  | table {cs : List Char} {entries : List (Option String × Document)}
      (h : SpellsEntries cs entries) : Spells ('{' :: (cs ++ ['}'])) (.table entries)

/-- One or more items with commas between them. -/
inductive SpellsItems : List Char → List Document → Prop
  | last {cs : List Char} {document : Document} (h : Spells cs document) : SpellsItems cs [document]
  | cons {cs more : List Char} {document : Document} {items : List Document}
      (h : Spells cs document) (hmore : SpellsItems more items) :
      SpellsItems (cs ++ ',' :: more) (document :: items)

/-- One or more entries with commas between them. -/
inductive SpellsEntries : List Char → List (Option String × Document) → Prop
  | last {name cs : List Char} {key : Option String} {document : Document}
      (hkey : SpellsKey name key) (h : Spells cs document) :
      SpellsEntries (name ++ ':' :: cs) [(key, document)]
  | cons {name cs more : List Char} {key : Option String} {document : Document}
      {entries : List (Option String × Document)} (hkey : SpellsKey name key)
      (h : Spells cs document) (hmore : SpellsEntries more entries) :
      SpellsEntries (name ++ ':' :: (cs ++ ',' :: more)) ((key, document) :: entries)

end

/-- A reader of documents reads JSON: every text that spells a document is read as that document. -/
def IsReader (read? : String → Option Document) : Prop :=
  ∀ (text : String) (document : Document), Spells text.toList document → read? text = some document

/-! ## Everything can be spelled -/

/-- Escapes spell the characters that may not stand for themselves. -/
theorem exists_spellsUnits (text : List Char) :
    ∃ inside, SpellsUnits inside (text.map Char.toNat) := by
  induction text with
  | nil => exact ⟨[], .nil⟩
  | cons c text ih =>
    obtain ⟨inside, hinside⟩ := ih
    -- Control characters have no short escape in general, so they are spelled by their code points.
    rcases Nat.lt_or_ge c.toNat 0x20 with hcontrol | hcontrol
    · have hsize : c.toNat < Nat.pow 16 4 := Nat.lt_trans hcontrol (by decide)
      obtain ⟨digits, hlength, hdigits⟩ := Text.exists_spellsHex 4 hsize
      exact ⟨_, .code hlength hdigits hinside⟩
    · have hquote : ('"', '"') ∈ escapes := by decide
      have hbackslash : ('\\', '\\') ∈ escapes := by decide
      rcases Decidable.em (c = '"') with rfl | hmark
      · exact ⟨_, .short hquote hinside⟩
      · rcases Decidable.em (c = '\\') with rfl | hslash
        · exact ⟨_, .short hbackslash hinside⟩
        · exact ⟨_, .plain hmark hslash hcontrol hinside⟩

/-- A string spells a text if its code units are the code points of that text. -/
theorem spellsString_of_units {inside : List Char} {text : String}
    (h : SpellsUnits inside (text.toList.map Char.toNat)) :
    SpellsString ('"' :: (inside ++ ['"'])) (some text) := by
  have hencodes := Text.encodes_map_toNat text.toList
  refine ⟨inside, _, rfl, h, fun text' => ⟨?_, fun h => ?_⟩⟩
  · rintro ⟨⟩
    exact hencodes
  · exact congrArg some (String.toList_inj.1 (hencodes.unique h))

/-- Characters without a special meaning stand for themselves. -/
theorem spellsUnits_self {cs : List Char}
    (h : ∀ c ∈ cs, c ≠ '"' ∧ c ≠ '\\' ∧ 0x20 ≤ c.toNat) : SpellsUnits cs (cs.map Char.toNat) := by
  induction cs with
  | nil => exact .nil
  | cons c cs ih =>
    obtain ⟨⟨hmark, hslash, hcontrol⟩, hcs⟩ := List.forall_mem_cons.1 h
    exact .plain hmark hslash hcontrol (ih hcs)

theorem exists_spellsString (text : String) : ∃ cs, SpellsString cs (some text) := by
  obtain ⟨inside, hinside⟩ := exists_spellsUnits text.toList
  exact ⟨_, spellsString_of_units hinside⟩

/-- A string is a key as it stands. -/
theorem SpellsString.spellsKey {cs : List Char} {text? : Option String}
    (h : SpellsString cs text?) : SpellsKey cs text? :=
  ⟨[], cs, [], by simp, isSpaces_nil, h, isSpaces_nil⟩

theorem exists_spells_text (text : String) : ∃ cs, Spells cs (.text text) := by
  obtain ⟨cs, hcs⟩ := exists_spellsString text
  exact ⟨cs, .string hcs⟩

theorem exists_spells_bool (value : Bool) : ∃ cs, Spells cs (.bool value) := by
  cases value
  · exact ⟨_, .boolFalse⟩
  · exact ⟨_, .boolTrue⟩

theorem exists_spells_natural (n : Nat) : ∃ cs, Spells cs (.natural n) := by
  have hwhole : Whole (Nat.toDigits 10 n) := by
    refine ⟨⟨Nat.toDigits_ne_nil, fun c hc => ?_⟩, ?_⟩
    · exact Nat.isDigit_of_mem_toDigits (by decide) (by decide) hc
    · rcases Decidable.em (n = 0) with rfl | hne
      · exact .inl rfl
      · exact .inr (Text.head?_toDigits_ne hne)
  have hnumber := SpellsNumber.natural hwhole
  rw [Nat.ofDigitChars_toDigits (by decide) (by decide)] at hnumber
  exact ⟨_, .number hnumber⟩

theorem exists_spells_list {items : List Document} (h : ∀ item ∈ items, ∃ cs, Spells cs item) :
    ∃ cs, Spells cs (.list items) := by
  have hitems (item : Document) (items : List Document)
      (h : ∀ next ∈ item :: items, ∃ cs, Spells cs next) :
      ∃ cs, SpellsItems cs (item :: items) := by
    induction items generalizing item with
    | nil =>
      obtain ⟨cs, hcs⟩ := h item List.mem_cons_self
      exact ⟨cs, .last hcs⟩
    | cons next items ih =>
      obtain ⟨⟨cs, hcs⟩, hmore⟩ := List.forall_mem_cons.1 h
      obtain ⟨more, hmore⟩ := ih next hmore
      exact ⟨_, .cons hcs hmore⟩
  cases items with
  | nil => exact ⟨_, .emptyList isSpaces_nil⟩
  | cons item items =>
    obtain ⟨cs, hcs⟩ := hitems item items h
    exact ⟨_, .list hcs⟩

theorem exists_spells_table {entries : List (String × Document)}
    (h : ∀ entry ∈ entries, ∃ cs, Spells cs entry.2) :
    ∃ cs, Spells cs (.table (entries.map fun entry => (some entry.1, entry.2))) := by
  have hkey (key : String) : ∃ name, SpellsKey name (some key) := by
    obtain ⟨string, hstring⟩ := exists_spellsString key
    exact ⟨string, hstring.spellsKey⟩
  have hentries (entry : String × Document) (entries : List (String × Document))
      (h : ∀ next ∈ entry :: entries, ∃ cs, Spells cs next.2) :
      ∃ cs, SpellsEntries cs ((entry :: entries).map fun entry => (some entry.1, entry.2)) := by
    induction entries generalizing entry with
    | nil =>
      obtain ⟨cs, hcs⟩ := h entry List.mem_cons_self
      obtain ⟨name, hname⟩ := hkey entry.1
      exact ⟨_, .last hname hcs⟩
    | cons next entries ih =>
      obtain ⟨⟨cs, hcs⟩, hmore⟩ := List.forall_mem_cons.1 h
      obtain ⟨name, hname⟩ := hkey entry.1
      obtain ⟨more, hmore⟩ := ih next hmore
      exact ⟨_, .cons hname hcs hmore⟩
  cases entries with
  | nil => exact ⟨_, .emptyTable isSpaces_nil⟩
  | cons entry entries =>
    obtain ⟨cs, hcs⟩ := hentries entry entries h
    exact ⟨_, .table hcs⟩

end Shorthand.Json
