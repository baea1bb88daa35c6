import Shorthand.Proofs.Toml.Reading

/-!
# The contents of a TOML document

Lines that give no name twice put their entries one behind the other into the tables of the
document, so the document holds what its lines say.

## Main results

* `foldlM_perform?_linesOf`, `exists_foldlM_perform?_tables`: what lines do to the contents of a
  document;
* `Spells.read?_eq`: a text is read as the document that it spells.
-/

namespace Shorthand.Toml

variable {key name : String} {item item' : Item} {entries before inner : Entries}
  {f : Option Item → Option Item} {document : Document}

/-! ## Single entries -/

/-- A new key is added at the end. -/
theorem alter?_of_not_mem (h : key ∉ entries.map Prod.fst) (hf : f none = some item) :
    alter? key f entries = some (entries ++ [(key, item)]) := by
  induction entries with
  | nil => rw [alter?, hf]; rfl
  | cons entry entries ih =>
    rw [List.map_cons, List.mem_cons, not_or] at h
    rw [alter?, if_neg (Ne.symm h.1), ih h.2]
    rfl

/-- The key of the last entry changes that entry. -/
theorem alter?_last (h : key ∉ before.map Prod.fst) (hf : f (some item) = some item') :
    alter? key f (before ++ [(key, item)]) = some (before ++ [(key, item')]) := by
  induction before with
  | nil => rw [List.nil_append, alter?, if_pos rfl, hf]; rfl
  | cons entry before ih =>
    rw [List.map_cons, List.mem_cons, not_or] at h
    rw [List.cons_append, alter?, if_neg (Ne.symm h.1), ih h.2]
    rfl

theorem assign?_of_not_mem {origin : Origin} (h : key ∉ entries.map Prod.fst) :
    assign? [key] document origin entries = some (entries ++ [(key, .value document)]) :=
  alter?_of_not_mem h rfl

/-- An entry above the first header is added to the document itself. -/
theorem assignUnder?_top (h : key ∉ entries.map Prod.fst) :
    assignUnder? [] [key] document entries = some (entries ++ [(key, .value document)]) :=
  alter?_of_not_mem h rfl

/-- An entry below a header is added to the table of that header. -/
theorem assignUnder?_table (hname : name ∉ before.map Prod.fst) (hkey : key ∉ inner.map Prod.fst) :
    assignUnder? [name] [key] document (before ++ [(name, .table .header inner)]) =
      some (before ++ [(name, .table .header (inner ++ [(key, .value document)]))]) := by
  rw [assignUnder?, descend?]
  refine alter?_last hname ?_
  simp [descend?, assign?_of_not_mem hkey]

/-- A header opens an empty table. -/
theorem openTable?_of_not_mem (h : name ∉ entries.map Prod.fst) :
    openTable? [name] entries = some (entries ++ [(name, .table .header [])]) :=
  alter?_of_not_mem h rfl

/-! ## Lines -/

/-- The entries of a table that is complete. -/
def values (entries : List (String × Document)) : Entries :=
  entries.map fun entry => (entry.1, .value entry.2)

/-- Tables, each opened by its header. -/
def sections (tables : List (String × List (String × Document))) : Entries :=
  tables.map fun table => (table.1, .table .header (values table.2))

theorem map_fst_values (entries : List (String × Document)) :
    (values entries).map Prod.fst = entries.map Prod.fst := by
  simp [values]

/-- A name that is not given twice is not among those before it. -/
theorem not_mem_of_nodup {names more : List String} (h : (names ++ name :: more).Nodup) :
    name ∉ names := fun hmem =>
  (List.nodup_append.1 h).2.2 name hmem name List.mem_cons_self rfl

/-- Empty lines say nothing. -/
theorem foldlM_perform?_filter (lines : List Line) (contents : Entries × List String) :
    lines.foldlM Line.perform? contents =
      (lines.filter fun line => !line.isEmpty).foldlM Line.perform? contents := by
  induction lines generalizing contents with
  | nil => rfl
  | cons line lines ih =>
    cases line with
    | empty => exact ih contents
    | entry key document =>
      rw [List.filter_cons_of_pos rfl, List.foldlM_cons, List.foldlM_cons]
      exact congrArg (Option.bind _) (funext ih)
    | header name =>
      rw [List.filter_cons_of_pos rfl, List.foldlM_cons, List.foldlM_cons]
      exact congrArg (Option.bind _) (funext ih)

/-- Lines add their entries to the table that the last header has opened, one behind the other.
Where that table stands in the document is given by `place`. -/
theorem foldlM_perform?_linesOf (place : Entries → Entries) {header : List String}
    (hassign : ∀ {key : String} {document : Document} {inner : Entries},
      key ∉ inner.map Prod.fst → assignUnder? header [key] document (place inner) =
        some (place (inner ++ [(key, .value document)])))
    (entries : List (String × Document)) (inner : Entries)
    (h : (inner.map Prod.fst ++ entries.map Prod.fst).Nodup) :
    (linesOf entries).foldlM Line.perform? (place inner, header) =
      some (place (inner ++ values entries), header) := by
  induction entries generalizing inner with
  | nil => simp [linesOf, values]
  | cons entry entries ih =>
    rw [List.map_cons] at h
    have hentry : Line.perform? (place inner, header) (.entry entry.1 entry.2) =
        some (place (inner ++ [(entry.1, .value entry.2)]), header) := by
      rw [Line.perform?, hassign (not_mem_of_nodup h)]
      rfl
    have hmore := ih (inner ++ [(entry.1, .value entry.2)]) (by simpa using h)
    rw [List.append_assoc] at hmore
    rw [linesOf, List.map_cons, List.foldlM_cons, hentry]
    exact hmore

/-- The lines above the first header add their entries to the document itself. -/
theorem foldlM_perform?_top (top : List (String × Document)) (h : (top.map Prod.fst).Nodup) :
    (linesOf top).foldlM Line.perform? ([], []) = some (values top, []) :=
  foldlM_perform?_linesOf id assignUnder?_top top [] h

/-- The lines below a header add their entries to the table of that header. -/
theorem foldlM_perform?_table (entries : List (String × Document))
    (hname : name ∉ before.map Prod.fst) (h : (entries.map Prod.fst).Nodup) :
    (linesOf entries).foldlM Line.perform? (before ++ [(name, .table .header [])], [name]) =
      some (before ++ [(name, .table .header (values entries))], [name]) :=
  foldlM_perform?_linesOf (fun inner => before ++ [(name, .table .header inner)])
    (assignUnder?_table hname) entries [] h

/-- Tables are added to the document one behind the other. -/
theorem exists_foldlM_perform?_tables (tables : List (String × List (String × Document)))
    (root : Entries) (header : List String)
    (h : (root.map Prod.fst ++ tables.map Prod.fst).Nodup)
    (hkeys : ∀ table ∈ tables, (table.2.map Prod.fst).Nodup) :
    ∃ header', (tables.flatMap fun table => .header table.1 :: linesOf table.2).foldlM Line.perform?
      (root, header) = some (root ++ sections tables, header') := by
  induction tables generalizing root header with
  | nil => exact ⟨header, by simp [sections]⟩
  | cons table tables ih =>
    rw [List.map_cons] at h
    obtain ⟨hkeys, hmore⟩ := List.forall_mem_cons.1 hkeys
    have hheader : Line.perform? (root, header) (.header table.1) =
        some (root ++ [(table.1, .table .header [])], [table.1]) := by
      rw [Line.perform?, openTable?_of_not_mem (not_mem_of_nodup h)]
      rfl
    -- Behind its header a table is the last entry of the document, so its entries are added there.
    have htable := foldlM_perform?_table table.2 (not_mem_of_nodup h) hkeys
    obtain ⟨header', htables⟩ :=
      ih (root ++ [(table.1, .table .header (values table.2))]) [table.1] (by simpa using h) hmore
    rw [List.append_assoc] at htables
    refine ⟨header', ?_⟩
    rw [List.flatMap_cons, List.cons_append, List.foldlM_cons, hheader]
    refine Eq.trans List.foldlM_append ?_
    rw [htable]
    exact htables

/-! ## Documents -/

theorem documents_eq_map (entries : Entries) :
    documents entries = entries.map fun entry => (some entry.1, entry.2.document) := by
  induction entries with
  | nil => rfl
  | cons entry entries ih => rw [documents, ih, List.map_cons]

theorem documents_values (entries : List (String × Document)) :
    documents (values entries) = tableOf entries := by
  simp [documents_eq_map, values, tableOf, Item.document]

theorem documents_sections (tables : List (String × List (String × Document))) :
    documents (sections tables) =
      tableOf (tables.map fun table => (table.1, .table (tableOf table.2))) := by
  simp [documents_eq_map, sections, tableOf, Item.document, values]

/-- A byte order mark is no beginning of a line. -/
theorem readOn_mark (contents : Entries × List String) (cs : List Char) :
    (State.between contents).readOn ('\ufeff' :: cs) = none := by
  have hread : readToken? '\ufeff' cs =
      some (some (.atom ('\ufeff' :: cs.takeWhile isAtomChar)), cs.dropWhile isAtomChar) := by
    rw [readToken?.eq_def]
    rfl
  rw [State.readOn_token hread]
  rfl

/-- A text is read as the document that it spells. -/
theorem Spells.read?_eq {text : String} (h : Spells text.toList document) :
    read? text = some document := by
  obtain @⟨lines, top, tables, hlines, hcontents, hnames, hkeys⟩ := h
  obtain ⟨header, htables⟩ := exists_foldlM_perform?_tables tables (values top) []
    (by rwa [map_fst_values]) hkeys
  have hperform := foldlM_perform?_filter lines ([], [])
  rw [hcontents, List.foldlM_append,
    foldlM_perform?_top top (List.nodup_append.1 hnames).1] at hperform
  have hread := hlines.readOn (hperform.trans htables)
  -- A byte order mark would be dropped, but no line begins with one.
  have hmark : withoutMark text.toList = text.toList := by
    refine if_neg fun hhead => ?_
    obtain ⟨cs, hcs⟩ := List.head?_eq_some_iff.1 hhead
    rw [hcs, readOn_mark] at hread
    cases hread
  obtain ⟨tokens, htokens, hsteps⟩ := Option.bind_eq_some_iff.1 hread
  rw [read?, hmark, htokens, Option.bind_some, ofTokens?]
  refine (congrArg (Option.bind · State.document?) hsteps).trans ?_
  have hdocuments : documents (values top ++ sections tables) =
      tableOf top ++ tableOf (tables.map fun table => (table.1, .table (tableOf table.2))) := by
    rw [← documents_values, ← documents_sections, documents_eq_map, List.map_append,
      ← documents_eq_map, ← documents_eq_map]
  exact congrArg (fun entries => some (Document.table entries)) hdocuments

/-- Documents are read as the grammar says. -/
theorem isReader_read? : IsReader read? := fun _ _ h => h.read?_eq

end Shorthand.Toml
