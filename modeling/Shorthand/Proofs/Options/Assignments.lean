import Shorthand.Options.Loading

/-!
# Assignments of options

Entries that give options their values, in any order, with defaults written out or left out and with
entries that are no options between them, are read as just these options.

## Main definitions

* `Sets`: an entry gives an option its value;
* `Assigns`: entries do so for all options.

## Main results

* `Sets.exists_set?`: an entry sets its option and leaves the others;
* `Assigns.ofEntries?_eq`: the entries are read as the options.
-/

namespace Shorthand

namespace Variables

variable {vars : Variables} {entries : List (String × String)} {name value : String}

theorem nodup_names (vars : Variables) : (vars.entries.map Prod.fst).Nodup := by
  rw [List.nodup_iff_pairwise_ne, List.pairwise_map]
  exact vars.sorted.imp fun hlt => String.ne_of_lt hlt

theorem lookup?_of_not_mem (h : name ∉ entries.map Prod.fst) : lookup? name entries = none := by
  induction entries with
  | nil => rfl
  | cons entry entries ih =>
    rw [List.map_cons, List.mem_cons, not_or] at h
    rw [lookup?, if_neg h.1, ih h.2]

theorem lookup?_of_mem (hnodup : (entries.map Prod.fst).Nodup) (h : (name, value) ∈ entries) :
    lookup? name entries = some value := by
  induction entries with
  | nil => cases h
  | cons entry entries ih =>
    rw [List.map_cons, List.nodup_cons] at hnodup
    rcases List.mem_cons.1 h with rfl | h
    · exact if_pos rfl
    · rw [lookup?, if_neg, ih hnodup.2 h]
      rintro rfl
      exact hnodup.1 (List.mem_map.2 ⟨_, h, rfl⟩)

theorem get?_insertMany_of_not_mem (h : name ∉ entries.map Prod.fst) :
    (vars.insertMany entries).get? name = vars.get? name := by
  induction entries generalizing vars with
  | nil => rfl
  | cons entry entries ih =>
    rw [List.map_cons, List.mem_cons, not_or] at h
    rw [insertMany, List.foldl_cons, ← insertMany, ih h.2, get?_insert, if_neg h.1]

theorem get?_insertMany_of_mem (hnodup : (entries.map Prod.fst).Nodup)
    (h : (name, value) ∈ entries) : (vars.insertMany entries).get? name = some value := by
  induction entries generalizing vars with
  | nil => cases h
  | cons entry entries ih =>
    rw [List.map_cons, List.nodup_cons] at hnodup
    rw [insertMany, List.foldl_cons, ← insertMany]
    rcases List.mem_cons.1 h with rfl | h
    · rw [get?_insertMany_of_not_mem hnodup.1, get?_insert, if_pos rfl]
    · exact ih hnodup.2 h

/-- A map is made of its entries, in any order. -/
theorem insertMany_of_perm (h : entries.Perm vars.entries) :
    (∅ : Variables).insertMany entries = vars := by
  have hnames : (entries.map Prod.fst).Perm (vars.entries.map Prod.fst) := h.map Prod.fst
  refine ext_get? fun name => ?_
  rcases Decidable.em (name ∈ entries.map Prod.fst) with hmem | hmem
  · obtain ⟨⟨_, value⟩, hentry, rfl⟩ := List.mem_map.1 hmem
    rw [get?_insertMany_of_mem (hnames.nodup_iff.2 vars.nodup_names) hentry, get?,
      lookup?_of_mem vars.nodup_names (h.mem_iff.1 hentry)]
  · rw [get?_insertMany_of_not_mem hmem, get?_empty, get?,
      lookup?_of_not_mem (mt hnames.mem_iff.2 hmem)]

end Variables

namespace Options

/-- The document that holds a text to wrap, or none. -/
def textDocument : Option SuppliedText → Document
  | none => .null
  | some (.block text) => .text text
  | some (.lines lines) => .list (lines.map .text)

/-- The document that holds a limit on clones, or none. -/
def limitDocument : Option Nat → Document
  | none => .null
  | some limit => .natural limit

/-- The entry with this key and this document gives an option its value in `options`, or it is none
of the options. -/
inductive Sets (options : Options) : String → Document → Prop
  | text : Sets options "text" (textDocument options.text)
  | vars {vars : List (String × String)} (h : vars.Perm options.vars.entries) :
      Sets options "variables" (.table (vars.map fun entry => (some entry.1, .text entry.2)))
  | maxRepeat : Sets options "maxRepeat" (limitDocument options.maxRepeat)
  | jsx : Sets options "jsx" (.bool options.jsx)
  | href : Sets options "href" (.bool options.href)
  | unknown {key : String} (h : key ∉ keys) (document : Document) : Sets options key document

/-- Two options have the same value for a key. -/
structure SameAt (key : String) (options options' : Options) : Prop where
  text : key = "text" → options.text = options'.text
  vars : key = "variables" → options.vars = options'.vars
  maxRepeat : key = "maxRepeat" → options.maxRepeat = options'.maxRepeat
  jsx : key = "jsx" → options.jsx = options'.jsx
  href : key = "href" → options.href = options'.href

/-- Entries give all options their values. -/
structure Assigns (options : Options) (entries : List (Option String × Document)) : Prop where
  sets : ∀ entry ∈ entries, ∃ key, entry.1 = some key ∧ Sets options key entry.2
  once : ∀ key ∈ keys, (entries.map Prod.fst).count (some key) ≤ 1
  /-- Only defaults are left out. -/
  default : ∀ key ∈ keys, some key ∉ entries.map Prod.fst → SameAt key options {}

variable {options options' : Options} {key : String} {document : Document}
  {entries : List (Option String × Document)}

theorem eq_of_sameAt (h : ∀ key ∈ keys, SameAt key options options') : options = options' := by
  obtain ⟨text, vars, maxRepeat, jsx, href⟩ := options
  obtain ⟨text', vars', maxRepeat', jsx', href'⟩ := options'
  obtain rfl : text = text' := (h "text" (by decide)).text rfl
  obtain rfl : vars = vars' := (h "variables" (by decide)).vars rfl
  obtain rfl : maxRepeat = maxRepeat' := (h "maxRepeat" (by decide)).maxRepeat rfl
  obtain rfl : jsx = jsx' := (h "jsx" (by decide)).jsx rfl
  obtain rfl : href = href' := (h "href" (by decide)).href rfl
  rfl

theorem SameAt.refl (key : String) (options : Options) : SameAt key options options where
  text _ := rfl
  vars _ := rfl
  maxRepeat _ := rfl
  jsx _ := rfl
  href _ := rfl

theorem SameAt.trans {middle : Options} (h : SameAt key options middle)
    (h' : SameAt key middle options') : SameAt key options options' where
  text hkey := (h.text hkey).trans (h'.text hkey)
  vars hkey := (h.vars hkey).trans (h'.vars hkey)
  maxRepeat hkey := (h.maxRepeat hkey).trans (h'.maxRepeat hkey)
  jsx hkey := (h.jsx hkey).trans (h'.jsx hkey)
  href hkey := (h.href hkey).trans (h'.href hkey)

theorem SameAt.symm (h : SameAt key options options') : SameAt key options' options where
  text hkey := (h.text hkey).symm
  vars hkey := (h.vars hkey).symm
  maxRepeat hkey := (h.maxRepeat hkey).symm
  jsx hkey := (h.jsx hkey).symm
  href hkey := (h.href hkey).symm

/-! ## Reading values -/

/-- What a reader gives back of each document of a list, it gives back of the list. -/
theorem mapM_map_eq_some {α β : Type} {read? : β → Option α} {write : α → β}
    (h : ∀ a, read? (write a) = some a) (list : List α) :
    (list.map write).mapM read? = some list := by
  induction list with
  | nil => rfl
  | cons a list ih =>
    rw [List.map_cons, List.mapM_cons, h, ih]
    rfl

theorem ofText?_text (text : String) : ofText? (.text text) = some text := rfl

theorem ofVariable?_entry (entry : String × String) :
    ofVariable? (some entry.1, .text entry.2) = some entry := rfl

theorem ofSuppliedText?_textDocument (text : Option SuppliedText) :
    ofSuppliedText? (textDocument text) = some text := by
  match text with
  | none | some (.block _) => rfl
  | some (.lines lines) =>
    rw [textDocument, ofSuppliedText?, mapM_map_eq_some ofText?_text]
    rfl

theorem ofLimit?_limitDocument {limit? : Option Nat}
    (h : ∀ limit ∈ limit?, limit ≤ Count.greatest) :
    ofLimit? (limitDocument limit?) = some limit? := by
  cases limit? with
  | none => rfl
  | some limit => exact if_pos (h limit rfl)

theorem ofVariables?_of_perm {vars : Variables} {entries : List (String × String)}
    (h : entries.Perm vars.entries) :
    ofVariables? (.table (entries.map fun entry => (some entry.1, .text entry.2))) = some vars := by
  rw [ofVariables?, mapM_map_eq_some ofVariable?_entry, Option.map_some,
    Variables.insertMany_of_perm h]

/-- An entry sets its option and leaves the others as they are. -/
theorem Sets.exists_set? (h : Sets options key document)
    (hlimit : ∀ limit ∈ options.maxRepeat, limit ≤ Count.greatest) (before : Options) :
    ∃ after, set? before (some key, document) = some after ∧ SameAt key after options ∧
      ∀ other, other ≠ key → SameAt other after before := by
  cases h with
  | text =>
    exact ⟨{ before with text := options.text }, by simp [set?, ofSuppliedText?_textDocument],
      by constructor <;> simp, fun other hne => by constructor <;> simp [hne]⟩
  | vars h =>
    exact ⟨{ before with vars := options.vars }, by simp [set?, ofVariables?_of_perm h],
      by constructor <;> simp, fun other hne => by constructor <;> simp [hne]⟩
  | maxRepeat =>
    exact ⟨{ before with maxRepeat := options.maxRepeat },
      by simp [set?, ofLimit?_limitDocument hlimit],
      by constructor <;> simp, fun other hne => by constructor <;> simp [hne]⟩
  | jsx =>
    exact ⟨{ before with jsx := options.jsx }, by simp [set?, ofFlag?],
      by constructor <;> simp, fun other hne => by constructor <;> simp [hne]⟩
  | href =>
    exact ⟨{ before with href := options.href }, by simp [set?, ofFlag?],
      by constructor <;> simp, fun other hne => by constructor <;> simp [hne]⟩
  | unknown hkey =>
    simp only [keys, List.mem_cons, List.not_mem_nil, or_false, not_or] at hkey
    exact ⟨before, by simp [set?, hkey], by constructor <;> simp [hkey],
      fun other _ => .refl other before⟩

/-- Entries set the options that they name and leave the others as they are. -/
theorem exists_foldlM_set?
    (h : ∀ entry ∈ entries, ∃ key, entry.1 = some key ∧ Sets options key entry.2)
    (hlimit : ∀ limit ∈ options.maxRepeat, limit ≤ Count.greatest) (before : Options) :
    ∃ after, entries.foldlM set? before = some after ∧ ∀ key,
      (some key ∈ entries.map Prod.fst → SameAt key after options) ∧
      (some key ∉ entries.map Prod.fst → SameAt key after before) := by
  induction entries generalizing before with
  | nil => exact ⟨before, rfl, fun key => ⟨nofun, fun _ => .refl key before⟩⟩
  | cons entry entries ih =>
    obtain ⟨key?, document⟩ := entry
    obtain ⟨⟨first, rfl, hsets⟩, hrest⟩ := List.forall_mem_cons.1 h
    obtain ⟨middle, hmiddle, hset, hothers⟩ := hsets.exists_set? hlimit before
    obtain ⟨after, hafter, hsame⟩ := ih hrest middle
    refine ⟨after, by rw [List.foldlM_cons, hmiddle]; exact hafter, fun key => ?_⟩
    simp only [List.map_cons, List.mem_cons, Option.some.injEq]
    -- If a later entry names the key as well, that one decides.
    rcases Decidable.em (some key ∈ entries.map Prod.fst) with hmem | hmem
    · exact ⟨fun _ => (hsame key).1 hmem, fun hnot => absurd (.inr hmem) hnot⟩
    · refine ⟨fun h => ?_, fun hnot => ?_⟩
      · obtain rfl := h.resolve_right hmem
        exact ((hsame key).2 hmem).trans hset
      · exact ((hsame key).2 hmem).trans (hothers key fun heq => hnot (.inl heq))

/-- Entries that give all options their values are read as the options. -/
theorem Assigns.ofEntries?_eq (h : Assigns options entries)
    (hlimit : ∀ limit ∈ options.maxRepeat, limit ≤ Count.greatest) :
    ofEntries? entries = some options := by
  obtain ⟨after, hafter, hsame⟩ := exists_foldlM_set? h.sets hlimit {}
  rw [ofEntries?, if_pos, hafter]
  · refine congrArg some (eq_of_sameAt fun key hkey => ?_)
    rcases Decidable.em (some key ∈ entries.map Prod.fst) with hmem | hmem
    · exact (hsame key).1 hmem
    · exact ((hsame key).2 hmem).trans (h.default key hkey hmem).symm
  · simpa using h.once

end Options

end Shorthand
