import Mathlib.Data.List.Chain
import Shorthand.Proofs.Expansion.Rendered

/-!
# Values in the output

A value is made entry by entry. Its texts are merged as they are appended, so that texts of any
length, empty ones included, leave the fields as they are and in their order.

## Main definitions

* `Value.Pushed`: what appending an entry makes of a value;
* `Value.Merged`: values as they stand in the output;
* `Value.fields`: the fields of a value;
* `Token.tabStop?`: the field that a token stays in a value.

## Main results

* `Value.Merged.push`, `Scope.merged_renderValue`: what is appended and rendered is merged;
* `Scope.concat_renderValue`: the text of a value is that of its tokens;
* `Scope.fields_renderValue`: the fields of a value are the tab stops among its tokens.
-/

namespace Shorthand

namespace Value

/-! ## Appending -/

/-- What appending an entry makes of a value. -/
inductive Pushed : List Value → Value → List Value → Prop
  /-- A text is merged into a text at the end. -/
  | merge (init : List Value) (last more : String) :
      Pushed (init ++ [.text last]) (.text more) (init ++ [.text (last ++ more)])
  /-- Empty text is dropped behind a field, and where nothing is. -/
  | drop {values : List Value} (hlast : ∀ last ∈ values.getLast?, last.isField = true) :
      Pushed values (.text "") values
  /-- Any other entry is put behind the others. -/
  | keep {values : List Value} {entry : Value} (hfilled : entry ≠ .text "")
      (hlast : ∀ last ∈ values.getLast?, last.isField = true ∨ entry.isField = true) :
      Pushed values entry (values ++ [entry])

/-- Appending an entry merges, drops or keeps it. -/
theorem pushed_push (values : List Value) (entry : Value) :
    Pushed values entry (push values entry) := by
  fun_induction push values entry with
  | case1 s hempty =>
    rw [String.isEmpty_iff.1 hempty]
    exact .drop (by simp)
  | case2 s hfilled => exact .keep (by simpa [String.isEmpty_iff] using hfilled) (by simp)
  | case3 f => exact .keep (by simp) (by simp)
  | case4 last s => exact .merge [] last s
  | case5 value values entry hmerge ih =>
    -- If the first entry is the last one as well, it is not merged with the new one.
    have hfirst : values = [] → value.isField = true ∨ entry.isField = true := by
      rintro rfl
      cases value with
      | text last =>
        cases entry with
        | text s => exact (hmerge last s rfl rfl rfl).elim
        | field => exact .inr rfl
      | field => exact .inl rfl
    generalize push values entry = pushed at ih
    cases ih with
    | merge init last more => exact .merge (value :: init) last more
    | drop hlast =>
      refine .drop fun last hmem => ?_
      cases values with
      | nil =>
        obtain rfl : value = last := by simpa using hmem
        exact (hfirst rfl).resolve_right (by simp [isField])
      | cons next values => exact hlast last (by simpa using hmem)
    | keep hfilled hlast =>
      refine .keep hfilled fun last hmem => ?_
      cases values with
      | nil =>
        obtain rfl : value = last := by simpa using hmem
        exact hfirst rfl
      | cons next values => exact hlast last (by simpa using hmem)

/-! ## Merged values -/

/-- The entry is no reference to a variable: a field is a tab stop with an index. -/
def Indexed : Value → Prop
  | .text _ => True
  | .field f => ∃ index placeholder, f = .tabStop index placeholder

theorem indexed_text (s : String) : (Value.text s).Indexed :=
  trivial

/-- A value as it stands in the output. -/
structure Merged (values : List Value) : Prop where
  /-- Of two entries next to each other, one is a field. -/
  apart : values.IsChain fun entry next => entry.isField = true ∨ next.isField = true
  /-- No text is empty. -/
  filled : .text "" ∉ values
  /-- Every field has an index. -/
  indexed : ∀ entry ∈ values, entry.Indexed

theorem merged_nil : Merged [] :=
  ⟨.nil, List.not_mem_nil, by simp⟩

/-- Appending an entry keeps a value merged. -/
theorem Merged.push {values : List Value} {entry : Value} (h : Merged values)
    (hentry : entry.Indexed) : Merged (push values entry) := by
  have hpushed := pushed_push values entry
  generalize Value.push values entry = pushed at hpushed
  cases hpushed with
  | drop => exact h
  | merge init last more =>
    obtain ⟨hapart, hfilled, hindexed⟩ := h
    obtain ⟨hinit, -, hbetween⟩ := List.isChain_append.1 hapart
    simp only [List.mem_append, List.mem_singleton, not_or] at hfilled
    refine ⟨List.isChain_append.2 ⟨hinit, .singleton _, ?_⟩, ?_, ?_⟩
    -- A text with more text behind it is still a text, so what stands before it is a field.
    · intro before hbefore text htext
      obtain rfl : Value.text (last ++ more) = text := by simpa using htext
      exact hbetween before hbefore (.text last) rfl
    -- And if that were empty, the text at the end would have been empty before.
    · intro hempty
      rcases List.mem_append.1 hempty with hmem | hmem
      · exact hfilled.1 hmem
      · have hjoined : last ++ more = "" := by simpa using hmem
        exact hfilled.2 (congrArg Value.text (String.append_eq_empty_iff.1 hjoined).1.symm)
    · obtain ⟨hinit, -⟩ := List.forall_mem_append.1 hindexed
      exact List.forall_mem_append.2 ⟨hinit, by simp [Indexed]⟩
  | keep hfilled hlast =>
    refine ⟨List.isChain_append.2 ⟨h.apart, .singleton entry, ?_⟩, ?_, ?_⟩
    · intro last hmem next hnext
      obtain rfl : entry = next := by simpa using hnext
      exact hlast last hmem
    · simpa [List.mem_append, h.filled] using hfilled.symm
    · exact List.forall_mem_append.2 ⟨h.indexed, by simpa using hentry⟩

/-! ## Fields -/

/-- The field that an entry is. -/
def field? : Value → Option Field
  | .text _ => none
  | .field f => some f

/-- The fields of a value, in order. -/
def fields (values : List Value) : List Field :=
  values.filterMap field?

/-- A text that is appended leaves the fields as they are, and a field comes behind them. -/
theorem fields_push (values : List Value) (entry : Value) :
    fields (push values entry) = fields values ++ entry.field?.toList := by
  have hpushed := pushed_push values entry
  generalize push values entry = pushed at hpushed
  cases hpushed with
  | merge init last more =>
    simp only [fields, List.filterMap_append, field?, Option.toList_none, List.append_nil]
    rfl
  | drop => simp [field?]
  | keep => cases entry <;> simp [fields, field?]

/-- A value is without fields if none of its entries is one. -/
theorem any_isField (values : List Value) :
    values.any isField = !(fields values).isEmpty := by
  induction values with
  | nil => rfl
  | cons entry values ih =>
    cases entry with
    | text s => rw [List.any_cons, ih]; rfl
    | field f => rfl

end Value

/-! ## Rendered values -/

/-- The field that a token stays in a value. -/
def Token.tabStop? (token : Token) : Option Field :=
  match token.kind with
  | .field (.tabStop index placeholder) => some (.tabStop index placeholder)
  | _ => none

namespace Scope

/-- Only a tab stop stays a field. -/
theorem field?_entry (scope : Scope) (token : Token) :
    (scope.entry token.kind).field? = token.tabStop? := by
  obtain ⟨kind, start, stop⟩ := token
  cases kind with
  | field f => cases f <;> rfl
  | _ => rfl

theorem indexed_entry (scope : Scope) (kind : Token.Kind) : (scope.entry kind).Indexed := by
  unfold entry
  split
  next index placeholder => exact ⟨index, placeholder, rfl⟩
  next => trivial

/-- A rendered value is merged. -/
theorem merged_renderValue (scope : Scope) (tokens : List Token) :
    Value.Merged (scope.renderValue tokens) := by
  have hfold (values : List Value) (h : Value.Merged values) : Value.Merged
      (tokens.foldl (fun values token => Value.push values (scope.entry token.kind)) values) := by
    induction tokens generalizing values with
    | nil => exact h
    | cons token tokens ih => exact ih _ (h.push (scope.indexed_entry token.kind))
  exact hfold [] Value.merged_nil

/-- The entry of a value shows the text of its token. -/
theorem toText_entry (scope : Scope) (kind : Token.Kind) :
    (scope.entry kind).toText = scope.render kind := by
  unfold entry
  split
  next => rfl
  next => rfl

/-- The text of a value is that of its tokens, one behind the other. -/
theorem concat_renderValue (scope : Scope) (tokens : List Token) :
    Value.concat (scope.renderValue tokens) = scope.renderName tokens := by
  -- Entries are pushed from the left, so the induction is over any value to begin with.
  have hfold (values : List Value) : Value.concat (tokens.foldl
      (fun values token => Value.push values (scope.entry token.kind)) values) =
        Value.concat values ++ scope.renderName tokens := by
    induction tokens generalizing values with
    | nil => exact String.append_empty.symm
    | cons token tokens ih =>
      rw [List.foldl_cons, ih, Value.concat_push, toText_entry, String.append_assoc]
      rfl
  exact (hfold []).trans String.empty_append

/-- The fields of a rendered value are the tab stops among its tokens, whatever else is rendered
between them. -/
theorem fields_renderValue (scope : Scope) (tokens : List Token) :
    Value.fields (scope.renderValue tokens) = tokens.filterMap Token.tabStop? := by
  have hfold (values : List Value) : Value.fields
      (tokens.foldl (fun values token => Value.push values (scope.entry token.kind)) values) =
        Value.fields values ++ tokens.filterMap Token.tabStop? := by
    induction tokens generalizing values with
    | nil => simp
    | cons token tokens ih =>
      rw [List.foldl_cons, ih, Value.fields_push, field?_entry, List.append_assoc]
      congr 1
      cases htoken : token.tabStop? <;> simp [htoken]
  exact hfold []

end Scope

end Shorthand
