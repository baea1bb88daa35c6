import Shorthand.Proofs.Json.Reading
import Shorthand.Proofs.Options.Assignments
import Shorthand.Proofs.Toml.Contents

/-!
# Loading options

Options come back from every document that assigns them their values, be it a JSON or a TOML text,
so both readers agree on documents with the same assignments. All options can be written in JSON,
and in TOML if the limit on clones is an integer there.

## Main results

* `exists_json`, `exists_toml`: options can be written as a JSON and as a TOML text;
* `loads`: they are loaded from all such texts, whatever the readers of the two notations are.
-/

namespace Shorthand.Options

variable {options : Options}

/-- The entries at the top of a document, without the options that are absent. -/
def topEntries (options : Options) : List (String × Document) :=
  (options.text.toList.map fun text => ("text", textDocument (some text))) ++
    (options.maxRepeat.toList.map fun limit => ("maxRepeat", limitDocument (some limit))) ++
      [("jsx", .bool options.jsx), ("href", .bool options.href)]

/-- The entries of the table of variables. -/
def variableEntries (options : Options) : List (String × Document) :=
  options.vars.entries.map fun entry => (entry.1, .text entry.2)

/-- All entries. -/
def allEntries (options : Options) : List (String × Document) :=
  options.topEntries ++ [("variables", .table (Toml.tableOf options.variableEntries))]

theorem sets_of_mem_allEntries : ∀ entry ∈ options.allEntries, Sets options entry.1 entry.2 := by
  rw [allEntries, topEntries]
  simp only [List.forall_mem_append, List.forall_mem_cons, List.forall_mem_map, Option.mem_toList]
  refine ⟨⟨⟨fun text htext => ?_, fun limit hlimit => ?_⟩, .jsx, .href, nofun⟩, ?_, nofun⟩
  · rw [← show options.text = some text from htext]
    exact .text
  · rw [← show options.maxRepeat = some limit from hlimit]
    exact .maxRepeat
  · have hvars : Toml.tableOf options.variableEntries =
        options.vars.entries.map fun entry => (some entry.1, .text entry.2) := by
      simp [Toml.tableOf, variableEntries]
    rw [hvars]
    exact .vars (List.Perm.refl _)

theorem nodup_allEntries (options : Options) : (options.allEntries.map Prod.fst).Nodup := by
  obtain ⟨text, vars, maxRepeat, jsx, href⟩ := options
  cases text <;> cases maxRepeat <;> simp [allEntries, topEntries]

theorem map_fst_tableOf (entries : List (String × Document)) :
    (Toml.tableOf entries).map Prod.fst = (entries.map Prod.fst).map some := by
  simp [Toml.tableOf]

/-- The entries give all options their values. -/
theorem assigns_allEntries (options : Options) :
    Assigns options (Toml.tableOf options.allEntries) where
  sets entry hentry := by
    obtain ⟨pair, hpair, rfl⟩ := List.mem_map.1 hentry
    exact ⟨pair.1, rfl, sets_of_mem_allEntries pair hpair⟩
  once key _ := by
    have hnodup : ((options.allEntries.map Prod.fst).map some).Nodup :=
      List.pairwise_map.2 ((nodup_allEntries options).imp fun hne heq => hne (Option.some.inj heq))
    rw [map_fst_tableOf]
    exact List.nodup_iff_count.1 hnodup (some key)
  default key hkey hnot := by
    rw [map_fst_tableOf] at hnot
    -- Only the text and the limit can have no entry.
    obtain ⟨text, vars, maxRepeat, jsx, href⟩ := options
    cases text <;> cases maxRepeat <;> simp [allEntries, topEntries] at hnot <;>
      constructor <;> simp_all

/-- Options can be written as a JSON text. -/
theorem exists_json (options : Options) :
    ∃ cs, Json.Spells cs (.table (Toml.tableOf options.allEntries)) := by
  refine Json.exists_spells_table ?_
  rw [allEntries, topEntries]
  simp only [List.forall_mem_append, List.forall_mem_cons, List.forall_mem_map, Option.mem_toList]
  refine ⟨⟨⟨fun text _ => ?_, fun limit _ => Json.exists_spells_natural limit⟩,
    Json.exists_spells_bool _, Json.exists_spells_bool _, nofun⟩, ?_, nofun⟩
  · cases text with
    | block text => exact Json.exists_spells_text text
    | lines lines =>
      exact Json.exists_spells_list
        (List.forall_mem_map.2 fun text _ => Json.exists_spells_text text)
  · exact Json.exists_spells_table
      (List.forall_mem_map.2 fun entry _ => Json.exists_spells_text entry.2)

/-- Options can be written as a TOML text, if the limit on clones is an integer of this notation. -/
theorem exists_toml (hlimit : ∀ limit ∈ options.maxRepeat, limit ≤ Toml.greatestSigned) :
    ∃ cs, Toml.Spells cs (.table (Toml.tableOf options.allEntries)) := by
  have hscalar {document : Document} (h : ∃ cs, Toml.SpellsScalar cs document) :
      ∃ cs, Toml.SpellsValue cs document := h.imp fun _ => .scalar
  have hspells : ∃ cs, Toml.Spells cs (.table (Toml.tableOf options.topEntries ++
      Toml.tableOf [("variables", .table (Toml.tableOf options.variableEntries))])) := by
    refine Toml.exists_spells options.topEntries [("variables", options.variableEntries)]
      ?_ ?_ ?_ ?_
    · rw [topEntries]
      simp only [List.forall_mem_append, List.forall_mem_cons, List.forall_mem_map,
        Option.mem_toList]
      refine ⟨⟨fun text _ => ?_, fun limit hmem => ?_⟩, ?_, ?_, nofun⟩
      · cases text with
        | block text => exact hscalar (Toml.exists_spellsScalar_text text)
        | lines lines =>
          exact Toml.exists_spellsValue_list
            (List.forall_mem_map.2 fun text _ => Toml.exists_spellsScalar_text text)
      · exact hscalar (Toml.exists_spellsScalar_natural (hlimit limit hmem))
      · exact hscalar (Toml.exists_spellsScalar_bool _)
      · exact hscalar (Toml.exists_spellsScalar_bool _)
    · exact List.forall_mem_singleton.2
        (List.forall_mem_map.2 fun entry _ => hscalar (Toml.exists_spellsScalar_text entry.2))
    · simpa [allEntries] using nodup_allEntries options
    · refine List.forall_mem_singleton.2 ?_
      rw [variableEntries, List.map_map]
      exact options.vars.nodup_names
  rw [allEntries, Toml.tableOf, List.map_append]
  exact hspells

/-- Options are loaded from a text that spells an assignment of their values. -/
theorem Assigns.load_eq {entries : List (Option String × Document)} {text : String}
    {read? : String → Option Document} (hassigns : Assigns options entries)
    (hlimit : ∀ limit ∈ options.maxRepeat, limit ≤ Count.greatest)
    (hread : read? text = some (.table entries)) : load read? text = .ok options := by
  rw [load, hread, Option.bind_some, ofDocument?, hassigns.ofEntries?_eq hlimit]

/-- With a reader of JSON and one of TOML, options are loaded from every JSON or TOML text that
assigns them their values. There is such a JSON text, and unless the limit on clones is too great
for it, there is a TOML text with the same assignments. -/
theorem loads {readJson? readToml? : String → Option Document} (hjson : Json.IsReader readJson?)
    (htoml : Toml.IsReader readToml?) (options : Options)
    (hlimit : ∀ limit ∈ options.maxRepeat, limit ≤ Count.greatest) :
    (∀ entries, Assigns options entries →
      (∀ text : String, Json.Spells text.toList (.table entries) →
        load readJson? text = .ok options) ∧
      ∀ text : String, Toml.Spells text.toList (.table entries) →
        load readToml? text = .ok options) ∧
    ∃ (entries : List (Option String × Document)) (json : String), Assigns options entries ∧
      Json.Spells json.toList (.table entries) ∧
      ((∀ limit ∈ options.maxRepeat, limit ≤ Toml.greatestSigned) →
        ∃ toml : String, Toml.Spells toml.toList (.table entries)) := by
  refine ⟨fun entries hassigns => ⟨fun text htext => ?_, fun text htext => ?_⟩, ?_⟩
  · exact hassigns.load_eq hlimit (hjson text _ htext)
  · exact hassigns.load_eq hlimit (htoml text _ htext)
  · obtain ⟨json, hspellsJson⟩ := exists_json options
    refine ⟨_, String.ofList json, assigns_allEntries options, by rwa [String.toList_ofList],
      fun hsigned => ?_⟩
    obtain ⟨toml, hspellsToml⟩ := exists_toml hsigned
    exact ⟨String.ofList toml, by rwa [String.toList_ofList]⟩

theorem loads_limited :
    ofJson "\x7b\"jsx\":true,\"x\":null,\"maxRepeat\": 500\x7d" =
        .ok { maxRepeat := some 500, jsx := true } ∧
      ofToml "maxRepeat = 500\njsx = true # on" = .ok { maxRepeat := some 500, jsx := true } := by
  have hloads := (loads Json.isReader_read? Toml.isReader_read?
    { maxRepeat := some 500, jsx := true } (by decide)).1
  have hsame : ∀ key ∈ keys, key ≠ "jsx" → key ≠ "maxRepeat" →
      SameAt key { maxRepeat := some 500, jsx := true } {} := fun key _ hjsx hlimit =>
    { text := fun _ => rfl
      vars := fun _ => rfl
      maxRepeat := fun heq => absurd heq hlimit
      jsx := fun heq => absurd heq hjsx
      href := fun _ => rfl }
  constructor
  · have hassigns : Assigns { maxRepeat := some 500, jsx := true }
        [(some "jsx", .bool true), (some "x", .null), (some "maxRepeat", .natural 500)] := by
      refine ⟨?_, by decide, fun key hkey hnot => hsame key hkey ?_ ?_⟩
      · simp only [List.forall_mem_cons]
        exact ⟨⟨_, rfl, .jsx⟩, ⟨_, rfl, .unknown (by decide) .null⟩, ⟨_, rfl, .maxRepeat⟩,
          List.forall_mem_nil _⟩
      · rintro rfl
        exact hnot (by decide)
      · rintro rfl
        exact hnot (by decide)
    have hkey (name : List Char) (hplain : ∀ c ∈ name, c ≠ '"' ∧ c ≠ '\\' ∧ 0x20 ≤ c.toNat) :
        Json.SpellsKey ('"' :: (name ++ ['"'])) (some (String.ofList name)) := by
      refine (Json.spellsString_of_units ?_).spellsKey
      rw [String.toList_ofList]
      exact Json.spellsUnits_self hplain
    have hlimit : Json.Spells ([' '] ++ ['5', '0', '0'] ++ []) (.natural 500) :=
      .spaced (by simp [Json.IsSpaces]) (.number (.natural ⟨by simp [Json.Digits], by simp⟩))
        Json.isSpaces_nil
    have hspells := Json.Spells.table (.cons (hkey ['j', 's', 'x'] (by simp)) .boolTrue
      (.cons (hkey ['x'] (by simp)) .null
        (.last (hkey ['m', 'a', 'x', 'R', 'e', 'p', 'e', 'a', 't'] (by simp)) hlimit)))
    exact (hloads _ hassigns).1 _ (cast (congrArg (Json.Spells · _) (by decide +kernel)) hspells)
  · have hassigns : Assigns { maxRepeat := some 500, jsx := true }
        [(some "maxRepeat", .natural 500), (some "jsx", .bool true)] := by
      refine ⟨?_, by decide, fun key hkey hnot => hsame key hkey ?_ ?_⟩
      · simp only [List.forall_mem_cons]
        exact ⟨⟨_, rfl, .maxRepeat⟩, ⟨_, rfl, .jsx⟩, List.forall_mem_nil _⟩
      · rintro rfl
        exact hnot (by decide)
      · rintro rfl
        exact hnot (by decide)
    have hblank : Toml.IsBlanks [' '] := by simp [Toml.IsBlanks]
    have hlimit : Toml.SpellsScalar ['5', '0', '0'] (.natural 500) :=
      .natural ⟨[], _, _, rfl, .inl rfl, Toml.grouped_self (by simp) (by simp), by simp, rfl⟩
        (by decide)
    have hcomment : Toml.IsComment ['#', ' ', 'o', 'n'] :=
      .inr ⟨_, rfl, by simp [Toml.IsPlain]⟩
    have hlimitKey : Toml.SpellsKey ['m', 'a', 'x', 'R', 'e', 'p', 'e', 'a', 't'] "maxRepeat" :=
      .bare (by simp) (by simp)
    have hjsxKey : Toml.SpellsKey ['j', 's', 'x'] "jsx" := .bare (by simp) (by simp)
    have hlines := Toml.SpellsLines.cons
      (.entry Toml.isBlanks_nil hlimitKey hblank hblank (.scalar hlimit) Toml.isBlanks_nil)
      (.inl rfl) (.inl rfl)
      (.last (.entry Toml.isBlanks_nil hjsxKey hblank hblank (.scalar .boolTrue) hblank) hcomment)
    have hspells := Toml.Spells.intro [("maxRepeat", .natural 500), ("jsx", .bool true)] [] hlines
      rfl (by decide) (List.forall_mem_nil _)
    exact (hloads _ hassigns).2 _ (cast (congrArg (Toml.Spells · _) (by decide +kernel)) hspells)

end Shorthand.Options
