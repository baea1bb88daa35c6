import Shorthand.Document
import Shorthand.Proofs.Text.Digits

/-!
# A part of the grammar of TOML

Which texts spell which documents, as far as options need it: lines with a key and its value, and
headers that open a table. Keys have a single part, and values are strings, truth values, natural
numbers and lists of them. Blanks, comments and empty lines may stand wherever the notation allows
them. The relations do not mention how a text is read.

## Main definitions

* `SpellsText`: the characters between the marks of a string;
* `SpellsKey`, `SpellsValue`: keys and values;
* `SpellsLines`: lines, with what they say;
* `Spells`: a document;
* `IsReader`: a reader that follows this part of the grammar.
-/

namespace Shorthand.Toml

/-! ## Blanks and comments -/

/-- Spaces and tabs. -/
def IsBlanks (cs : List Char) : Prop :=
  ∀ c ∈ cs, c = ' ' ∨ c = '\t'

/-- A line break. -/
def IsNewline (cs : List Char) : Prop :=
  cs = ['\n'] ∨ cs = ['\r', '\n']

/-- A character that may stand in a comment or a string: a tab, or no control character. -/
def IsPlain (c : Char) : Prop :=
  c = '\t' ∨ (0x20 ≤ c.toNat ∧ c.toNat ≠ 0x7f)

/-- A comment, which goes on to the end of its line, or nothing. -/
def IsComment (cs : List Char) : Prop :=
  cs = [] ∨ ∃ body, cs = '#' :: body ∧ ∀ c ∈ body, IsPlain c

/-- Blanks, comments and line breaks, which may stand between the items of a list. -/
inductive IsGap : List Char → Prop
  | blanks {cs : List Char} (h : IsBlanks cs) : IsGap cs
  | line {blanks comment newline gap : List Char} (hblanks : IsBlanks blanks)
      (hcomment : IsComment comment) (hnewline : IsNewline newline) (hgap : IsGap gap) :
      IsGap (blanks ++ comment ++ newline ++ gap)

/-! ## Strings -/

/-- The letters of the short escapes, with the characters that they stand for. -/
def escapes : List (Char × Char) :=
  [('"', '"'), ('\\', '\\'), ('b', '\x08'), ('e', '\x1b'), ('f', '\x0c'), ('n', '\n'), ('r', '\r'),
    ('t', '\t')]

/-- The letters of the escapes with a code point, with the numbers of its digits. -/
def codeEscapes : List (Char × Nat) :=
  [('x', 2), ('u', 4), ('U', 8)]

/-- The text that the characters between the marks of a string spell. -/
inductive SpellsText : List Char → List Char → Prop
  | nil : SpellsText [] []
  | plain {c : Char} {cs text : List Char} (hmark : c ≠ '"') (hslash : c ≠ '\\') (hc : IsPlain c)
      (h : SpellsText cs text) : SpellsText (c :: cs) (c :: text)
  | short {letter c : Char} {cs text : List Char} (hletter : (letter, c) ∈ escapes)
      (h : SpellsText cs text) : SpellsText ('\\' :: letter :: cs) (c :: text)
  | code {letter c : Char} {digits cs text : List Char}
      (hletter : (letter, digits.length) ∈ codeEscapes) (hdigits : Text.SpellsHex digits c.toNat)
      (h : SpellsText cs text) : SpellsText ('\\' :: letter :: (digits ++ cs)) (c :: text)

/-- A string between its marks. -/
def SpellsString (cs : List Char) (text : String) : Prop :=
  ∃ inside, cs = '"' :: (inside ++ ['"']) ∧ SpellsText inside text.toList

/-! ## Keys and values -/

/-- A key with a single part. -/
inductive SpellsKey : List Char → String → Prop
  | bare {cs : List Char} (hne : cs ≠ [])
      (h : ∀ c ∈ cs, c.isAlphanum = true ∨ c = '-' ∨ c = '_') : SpellsKey cs (String.ofList cs)
  | quoted {cs : List Char} {name : String} (h : SpellsString cs name) : SpellsKey cs name

/-- Digits, between two of which an underscore may stand. -/
inductive Grouped : List Char → List Char → Prop
  | last {d : Char} (hd : d.isDigit = true) : Grouped [d] [d]
  | next {d : Char} {cs digits : List Char} (hd : d.isDigit = true) (h : Grouped cs digits) :
      Grouped (d :: cs) (d :: digits)
  | apart {d : Char} {cs digits : List Char} (hd : d.isDigit = true) (h : Grouped cs digits) :
      Grouped (d :: '_' :: cs) (d :: digits)

/-- A natural number, which may have a plus sign. The first of several digits is not zero. -/
def SpellsNatural (cs : List Char) (n : Nat) : Prop :=
  ∃ sign text digits, cs = sign ++ text ∧ (sign = [] ∨ sign = ['+']) ∧ Grouped text digits ∧
    (digits.length = 1 ∨ digits.head? ≠ some '0') ∧ n = Nat.ofDigitChars 10 digits 0

/-- The greatest integer of 64 bits with a sign. Readers of the notation have to take integers up to
this one, and may take others. -/
def greatestSigned : Nat := Nat.pow 2 63 - 1

/-- A value that is no list. -/
inductive SpellsScalar : List Char → Document → Prop
  | text {cs : List Char} {text : String} (h : SpellsString cs text) : SpellsScalar cs (.text text)
  | boolTrue : SpellsScalar "true".toList (.bool true)
  | boolFalse : SpellsScalar "false".toList (.bool false)
  | natural {cs : List Char} {n : Nat} (h : SpellsNatural cs n) (hn : n ≤ greatestSigned) :
      SpellsScalar cs (.natural n)

/-- The items of a list. A comma may stand behind the last one, too. -/
inductive SpellsItems : List Char → List Document → Prop
  | nil {gap : List Char} (hgap : IsGap gap) : SpellsItems gap []
  | last {before cs after : List Char} {document : Document} (hbefore : IsGap before)
      (h : SpellsScalar cs document) (hafter : IsGap after) :
      SpellsItems (before ++ cs ++ after) [document]
  | cons {before cs after more : List Char} {document : Document} {items : List Document}
      (hbefore : IsGap before) (h : SpellsScalar cs document) (hafter : IsGap after)
      (hmore : SpellsItems more items) :
      SpellsItems (before ++ cs ++ after ++ ',' :: more) (document :: items)

/-- A value. -/
inductive SpellsValue : List Char → Document → Prop
  | scalar {cs : List Char} {document : Document} (h : SpellsScalar cs document) :
      SpellsValue cs document
  | list {cs : List Char} {items : List Document} (h : SpellsItems cs items) :
      SpellsValue ('[' :: (cs ++ [']'])) (.list items)

/-! ## Lines -/

/-- What a line says. -/
inductive Line
  | empty
  /-- A key has a value. -/
  | entry (key : String) (document : Document)
  /-- The table with this name begins. -/
  | header (name : String)

/-- Whether a line says nothing. -/
def Line.isEmpty : Line → Bool
  | .empty => true
  | .entry _ _ | .header _ => false

/-- What a line says, without the comment at its end. -/
inductive SpellsLine : List Char → Line → Prop
  | empty {blanks : List Char} (h : IsBlanks blanks) : SpellsLine blanks .empty
  | entry {before name after between cs behind : List Char} {key : String} {document : Document}
      (hbefore : IsBlanks before) (hkey : SpellsKey name key) (hafter : IsBlanks after)
      (hbetween : IsBlanks between) (hvalue : SpellsValue cs document) (hbehind : IsBlanks behind) :
      SpellsLine (before ++ name ++ after ++ '=' :: (between ++ cs ++ behind)) (.entry key document)
  | header {before between name after behind : List Char} {key : String}
      (hbefore : IsBlanks before) (hbetween : IsBlanks between) (hkey : SpellsKey name key)
      (hafter : IsBlanks after) (hbehind : IsBlanks behind) :
      SpellsLine (before ++ '[' :: (between ++ name ++ after ++ ']' :: behind)) (.header key)

/-- What lines say. The last one need not be ended. -/
inductive SpellsLines : List Char → List Line → Prop
  | last {cs comment : List Char} {line : Line} (h : SpellsLine cs line)
      (hcomment : IsComment comment) : SpellsLines (cs ++ comment) [line]
  | cons {cs comment newline more : List Char} {line : Line} {lines : List Line}
      (h : SpellsLine cs line) (hcomment : IsComment comment) (hnewline : IsNewline newline)
      (hmore : SpellsLines more lines) :
      SpellsLines (cs ++ (comment ++ (newline ++ more))) (line :: lines)

/-! ## Documents -/

/-- The lines with the entries of a table. -/
def linesOf (entries : List (String × Document)) : List Line :=
  entries.map fun entry => .entry entry.1 entry.2

/-- The table with these entries. -/
def tableOf (entries : List (String × Document)) : List (Option String × Document) :=
  entries.map fun entry => (some entry.1, entry.2)

/-- A document: the entries at its top, and then tables, each behind its header. No name is given
twice. -/
inductive Spells (cs : List Char) : Document → Prop
  | intro {lines : List Line} (top : List (String × Document))
      (tables : List (String × List (String × Document))) (hlines : SpellsLines cs lines)
      (hcontents : lines.filter (fun line => !line.isEmpty) =
        linesOf top ++ tables.flatMap fun table => .header table.1 :: linesOf table.2)
      (hnames : (top.map Prod.fst ++ tables.map Prod.fst).Nodup)
      (hkeys : ∀ table ∈ tables, (table.2.map Prod.fst).Nodup) :
      Spells cs (.table (tableOf top ++
        tableOf (tables.map fun table => (table.1, .table (tableOf table.2)))))

/-- A reader of documents reads TOML: every text that spells a document is read as that
document. -/
def IsReader (read? : String → Option Document) : Prop :=
  ∀ (text : String) (document : Document), Spells text.toList document → read? text = some document

/-! ## Everything can be spelled -/

/-- Escapes spell the characters that may not stand for themselves. -/
theorem exists_spellsText (text : List Char) : ∃ inside, SpellsText inside text := by
  induction text with
  | nil => exact ⟨[], .nil⟩
  | cons c text ih =>
    obtain ⟨inside, hinside⟩ := ih
    have hquote : ('"', '"') ∈ escapes := by decide
    have hbackslash : ('\\', '\\') ∈ escapes := by decide
    have hcode : ('u', 4) ∈ codeEscapes := by decide
    by_cases hplain : IsPlain c
    · rcases Decidable.em (c = '"') with rfl | hmark
      · exact ⟨_, .short hquote hinside⟩
      · rcases Decidable.em (c = '\\') with rfl | hslash
        · exact ⟨_, .short hbackslash hinside⟩
        · exact ⟨_, .plain hmark hslash hplain hinside⟩
    · rw [IsPlain] at hplain
      have hascii : c.toNat < 0x80 := by omega
      have hsize : c.toNat < Nat.pow 16 4 := Nat.lt_trans hascii (by decide)
      obtain ⟨digits, hlength, hdigits⟩ := Text.exists_spellsHex 4 hsize
      exact ⟨_, .code (hlength ▸ hcode) hdigits hinside⟩

theorem exists_spellsString (text : String) : ∃ cs, SpellsString cs text := by
  obtain ⟨inside, hinside⟩ := exists_spellsText text.toList
  exact ⟨_, inside, rfl, hinside⟩

theorem exists_spellsKey (name : String) : ∃ cs, SpellsKey cs name := by
  obtain ⟨cs, hcs⟩ := exists_spellsString name
  exact ⟨cs, .quoted hcs⟩

theorem exists_spellsScalar_text (text : String) : ∃ cs, SpellsScalar cs (.text text) := by
  obtain ⟨cs, hcs⟩ := exists_spellsString text
  exact ⟨cs, .text hcs⟩

theorem exists_spellsScalar_bool (value : Bool) : ∃ cs, SpellsScalar cs (.bool value) := by
  cases value
  · exact ⟨_, .boolFalse⟩
  · exact ⟨_, .boolTrue⟩

theorem grouped_self {digits : List Char} (hne : digits ≠ []) (h : ∀ c ∈ digits, c.isDigit = true) :
    Grouped digits digits := by
  induction digits with
  | nil => exact absurd rfl hne
  | cons d digits ih =>
    obtain ⟨hd, hdigits⟩ := List.forall_mem_cons.1 h
    cases digits with
    | nil => exact .last hd
    | cons e digits => exact .next hd (ih (List.cons_ne_nil e digits) hdigits)

theorem exists_spellsScalar_natural {n : Nat} (hn : n ≤ greatestSigned) :
    ∃ cs, SpellsScalar cs (.natural n) := by
  have hgrouped : Grouped (Nat.toDigits 10 n) (Nat.toDigits 10 n) :=
    grouped_self Nat.toDigits_ne_nil fun c hc =>
      Nat.isDigit_of_mem_toDigits (by decide) (by decide) hc
  refine ⟨_, .natural ⟨[], _, _, rfl, .inl rfl, hgrouped, ?_, ?_⟩ hn⟩
  · rcases Decidable.em (n = 0) with rfl | hne
    · exact .inl rfl
    · exact .inr (Text.head?_toDigits_ne hne)
  · exact (Nat.ofDigitChars_toDigits (by decide) (by decide)).symm

theorem isBlanks_nil : IsBlanks [] :=
  nofun

theorem exists_spellsValue_list {items : List Document}
    (h : ∀ item ∈ items, ∃ cs, SpellsScalar cs item) : ∃ cs, SpellsValue cs (.list items) := by
  have hgap : IsGap [] := .blanks isBlanks_nil
  suffices ∃ cs, SpellsItems cs items from this.elim fun cs hcs => ⟨_, .list hcs⟩
  induction items with
  | nil => exact ⟨[], .nil hgap⟩
  | cons item items ih =>
    obtain ⟨⟨cs, hcs⟩, hmore⟩ := List.forall_mem_cons.1 h
    obtain ⟨more, hmore⟩ := ih hmore
    exact ⟨_, .cons hgap hcs hgap hmore⟩

theorem exists_spellsLine_entry {key : String} {document : Document}
    (h : ∃ cs, SpellsValue cs document) : ∃ cs, SpellsLine cs (.entry key document) := by
  obtain ⟨name, hname⟩ := exists_spellsKey key
  obtain ⟨cs, hcs⟩ := h
  exact ⟨_, .entry isBlanks_nil hname isBlanks_nil isBlanks_nil hcs isBlanks_nil⟩

theorem exists_spellsLine_header (name : String) : ∃ cs, SpellsLine cs (.header name) := by
  obtain ⟨cs, hcs⟩ := exists_spellsKey name
  exact ⟨_, .header isBlanks_nil isBlanks_nil hcs isBlanks_nil isBlanks_nil⟩

/-- Lines are written one below the other. The last one is ended, so an empty one follows. -/
theorem exists_spellsLines {lines : List Line} (h : ∀ line ∈ lines, ∃ cs, SpellsLine cs line) :
    ∃ cs, SpellsLines cs (lines ++ [.empty]) := by
  have hcomment : IsComment [] := .inl rfl
  induction lines with
  | nil => exact ⟨_, .last (.empty isBlanks_nil) hcomment⟩
  | cons line lines ih =>
    obtain ⟨⟨cs, hcs⟩, hmore⟩ := List.forall_mem_cons.1 h
    obtain ⟨more, hmore⟩ := ih hmore
    exact ⟨_, .cons hcs hcomment (.inl rfl) hmore⟩

/-- Entries and tables can be written if their values can and no name is given twice. -/
theorem exists_spells (top : List (String × Document))
    (tables : List (String × List (String × Document)))
    (htop : ∀ entry ∈ top, ∃ cs, SpellsValue cs entry.2)
    (htables : ∀ table ∈ tables, ∀ entry ∈ table.2, ∃ cs, SpellsValue cs entry.2)
    (hnames : (top.map Prod.fst ++ tables.map Prod.fst).Nodup)
    (hkeys : ∀ table ∈ tables, (table.2.map Prod.fst).Nodup) :
    ∃ cs, Spells cs (.table (tableOf top ++
      tableOf (tables.map fun table => (table.1, .table (tableOf table.2))))) := by
  have hlinesOf {entries : List (String × Document)}
      (h : ∀ entry ∈ entries, ∃ cs, SpellsValue cs entry.2) :
      ∀ line ∈ linesOf entries, line.isEmpty = false ∧ ∃ cs, SpellsLine cs line := by
    intro line hline
    obtain ⟨entry, hentry, rfl⟩ := List.mem_map.1 hline
    exact ⟨rfl, exists_spellsLine_entry (h entry hentry)⟩
  have hall : ∀ line ∈ linesOf top ++
      tables.flatMap fun table => .header table.1 :: linesOf table.2,
      line.isEmpty = false ∧ ∃ cs, SpellsLine cs line := by
    refine List.forall_mem_append.2 ⟨hlinesOf htop, fun line hline => ?_⟩
    obtain ⟨table, htable, hline⟩ := List.mem_flatMap.1 hline
    rcases List.mem_cons.1 hline with rfl | hline
    · exact ⟨rfl, exists_spellsLine_header table.1⟩
    · exact hlinesOf (htables table htable) line hline
  obtain ⟨cs, hcs⟩ := exists_spellsLines fun line hline => (hall line hline).2
  refine ⟨cs, .intro top tables hcs ?_ hnames hkeys⟩
  rw [List.filter_append, List.filter_eq_self.2 fun line hline => by rw [(hall line hline).1]; rfl]
  exact List.append_nil _

end Shorthand.Toml
