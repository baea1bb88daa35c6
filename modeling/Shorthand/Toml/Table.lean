import Shorthand.Document

/-!
# TOML tables

A TOML text fills its tables from several places: headers, dotted keys and inline values. Each table
remembers how it came about, because that decides who may add to it.

* A header opens a table once. It may open one that was only named on the way to another table.
* Dotted keys may add to tables that dotted keys made, and go through tables that were only named.
* Inline tables, lists and scalars are complete.
-/

namespace Shorthand.Toml

/-- How a table came about. -/
inductive Origin
  /-- Opened by a header. -/
  | header
  /-- Named in a header on the way to another table. -/
  | way
  /-- Made by a dotted key. -/
  | dotted
deriving Repr, DecidableEq

/-- What stands behind a key. -/
inductive Item
  /-- A complete value. -/
  | value (document : Document)
  | table (origin : Origin) (entries : List (String × Item))
  /-- Tables that headers in double brackets opened. Only the last one can still grow. -/
  | tables (earlier : List Document) (last : List (String × Item))

/-- The entries of a table. -/
abbrev Entries := List (String × Item)

mutual

/-- The contents of an item. -/
def Item.document : Item → Document
  | .value document => document
  | .table _ entries => .table (documents entries)
  | .tables earlier last => .list (earlier ++ [.table (documents last)])

/-- The contents of entries. -/
def documents : List (String × Item) → List (Option String × Document)
  | [] => []
  | (key, item) :: entries => (some key, item.document) :: documents entries

end

/-- Changes what stands behind a key, or adds the key at the end. -/
def alter? (key : String) (f : Option Item → Option Item) : Entries → Option Entries
  | [] => (f none).map fun item => [(key, item)]
  | (name, item) :: entries =>
    if name = key then (f (some item)).map fun item => (name, item) :: entries
    else (alter? key f entries).map ((name, item) :: ·)

/-- Changes the table at the end of a path. Missing tables on the way are made. `f` is told how the
table at the end came about. -/
def descend? (dotted : Bool) (f : Origin → Entries → Option Entries) :
    Origin → List String → Entries → Option Entries
  | origin, [], entries => f origin entries
  | _, key :: path, entries =>
    let enter : Option Item → Option Item
      | none =>
        let origin := if dotted then Origin.dotted else Origin.way
        (descend? dotted f origin path []).map (Item.table origin)
      | some (.value _) => none
      | some (.table origin inner) =>
        if dotted && origin == .header then none
        else (descend? dotted f origin path inner).map (Item.table origin)
      | some (.tables earlier last) =>
        (descend? dotted f .header path last).map (Item.tables earlier)
    alter? key enter entries

/-- Gives a dotted key its value, in the table with the given entries. The table that the last part
of the key belongs to has to be that one, or one that dotted keys made. -/
def assign? (path : List String) (value : Document) (origin : Origin) (entries : Entries) :
    Option Entries :=
  match path.getLast? with
  | none => none
  | some key =>
    let add : Option Item → Option Item
      | none => some (.value value)
      | some _ => none
    let addLast (origin : Origin) (entries : Entries) : Option Entries :=
      if path.length = 1 ∨ origin = .dotted then alter? key add entries else none
    descend? true addLast origin path.dropLast entries

/-- Changes what stands at the end of a path of keys, which a header names. -/
def alterAt? (path : List String) (f : Option Item → Option Item) (root : Entries) :
    Option Entries :=
  match path.getLast? with
  | none => none
  | some key => descend? false (fun _ => alter? key f) .header path.dropLast root

/-- Opens the table that a header names. -/
def openTable? (path : List String) (root : Entries) : Option Entries :=
  let opened : Option Item → Option Item
    | none => some (.table .header [])
    | some (.table .way entries) => some (.table .header entries)
    | some _ => none
  alterAt? path opened root

/-- Opens one more table of those that a header in double brackets names. -/
def openElement? (path : List String) (root : Entries) : Option Entries :=
  let opened : Option Item → Option Item
    | none => some (.tables [] [])
    | some (.tables earlier last) => some (.tables (earlier ++ [.table (documents last)]) [])
    | some _ => none
  alterAt? path opened root

/-- Gives a dotted key its value, in the table that the last header opened. -/
def assignUnder? (header path : List String) (value : Document) (root : Entries) :
    Option Entries :=
  descend? false (assign? path value) .header header root

end Shorthand.Toml
