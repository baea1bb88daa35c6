/-!
# Variables

A finite map from names to values, kept in ascending order of the names. Each map has a single such
form, so maps with equal contents are equal.

* `get?_insert`: what an insertion changes.
* `ext_get?`: a map is determined by the values it gives.
-/

namespace Shorthand

/-- Values of variables. -/
structure Variables where
  /-- The names with their values, in ascending order of the names. -/
  entries : List (String × String)
  sorted : entries.Pairwise (·.1 < ·.1)
deriving DecidableEq

namespace Variables

instance : EmptyCollection Variables := ⟨{ entries := [], sorted := .nil }⟩

instance : Inhabited Variables := ⟨∅⟩

/-- Entries with one more, which takes the place of an entry of the same name. -/
def insertEntry (name value : String) : List (String × String) → List (String × String)
  | [] => [(name, value)]
  | entry :: entries =>
    if name < entry.1 then (name, value) :: entry :: entries
    else if name = entry.1 then (name, value) :: entries
    else entry :: insertEntry name value entries

/-- The value of the entry with the given name. -/
def lookup? (name : String) : List (String × String) → Option String
  | [] => none
  | entry :: entries => if name = entry.1 then some entry.2 else lookup? name entries

theorem mem_insertEntry {name value : String} {entries : List (String × String)}
    {entry : String × String} (h : entry ∈ insertEntry name value entries) :
    entry = (name, value) ∨ entry ∈ entries := by
  fun_induction insertEntry name value entries with
  | case1 => simpa using h
  | case2 => simpa using h
  | case3 other entries =>
    exact (List.mem_cons.1 h).imp_right (List.mem_cons_of_mem other)
  | case4 other entries _ _ ih =>
    rcases List.mem_cons.1 h with rfl | h
    · exact .inr List.mem_cons_self
    · exact (ih h).imp_right (List.mem_cons_of_mem other)

theorem lt_of_not_lt_of_ne {a b : String} (hlt : ¬a < b) (hne : a ≠ b) : b < a := by
  rcases Decidable.em (b < a) with h | h
  · exact h
  · exact absurd (String.le_antisymm (String.not_lt.1 h) (String.not_lt.1 hlt)) hne

theorem sorted_insertEntry (name value : String) {entries : List (String × String)}
    (h : entries.Pairwise (·.1 < ·.1)) : (insertEntry name value entries).Pairwise (·.1 < ·.1) := by
  fun_induction insertEntry name value entries with
  | case1 => simp
  | case2 entry entries hlt =>
    refine List.pairwise_cons.2 ⟨fun other hother => ?_, h⟩
    rcases List.mem_cons.1 hother with rfl | hother
    · exact hlt
    · exact String.lt_trans hlt ((List.pairwise_cons.1 h).1 other hother)
  | case3 entry entries hlt heq =>
    subst heq
    exact List.pairwise_cons.2 (List.pairwise_cons.1 h)
  | case4 entry entries hlt hne ih =>
    obtain ⟨hentry, hentries⟩ := List.pairwise_cons.1 h
    refine List.pairwise_cons.2 ⟨fun other hother => ?_, ih hentries⟩
    rcases mem_insertEntry hother with rfl | hother
    · exact lt_of_not_lt_of_ne hlt hne
    · exact hentry other hother

/-- The map with one more value, which takes the place of an earlier one. -/
def insert (vars : Variables) (name value : String) : Variables :=
  { entries := insertEntry name value vars.entries
    sorted := sorted_insertEntry name value vars.sorted }

/-- The map with several more values, inserted one after the other. -/
def insertMany (vars : Variables) (entries : List (String × String)) : Variables :=
  entries.foldl (fun vars entry => vars.insert entry.1 entry.2) vars

/-- The value of a variable. -/
def get? (vars : Variables) (name : String) : Option String :=
  lookup? name vars.entries

@[simp]
theorem get?_empty (name : String) : (∅ : Variables).get? name = none := rfl

/-- An insertion sets the value of its name and no other. -/
theorem get?_insert (vars : Variables) (name value other : String) :
    (vars.insert name value).get? other =
      if other = name then some value else vars.get? other := by
  obtain ⟨entries, sorted⟩ := vars
  simp only [get?, insert]
  clear sorted
  fun_induction insertEntry name value entries with
  | case1 => simp [lookup?]
  | case2 entry entries hlt => simp [lookup?]
  | case3 entry entries hlt heq => grind [lookup?]
  | case4 entry entries hlt hne ih => grind [lookup?]

theorem lookup?_eq_none {name : String} {entries : List (String × String)}
    (h : ∀ entry ∈ entries, name < entry.1) : lookup? name entries = none := by
  induction entries with
  | nil => rfl
  | cons entry entries ih =>
    have hlt := h entry (by simp)
    have hne : name ≠ entry.1 := fun heq => String.lt_irrefl _ (heq ▸ hlt)
    simp [lookup?, hne, ih fun other hother => h other (by simp [hother])]

theorem lookup?_cons_eq_none {name : String} {entry : String × String}
    {entries : List (String × String)} (hlt : name < entry.1)
    (hentry : ∀ other ∈ entries, entry.1 < other.1) : lookup? name (entry :: entries) = none := by
  refine lookup?_eq_none fun other hother => ?_
  rcases List.mem_cons.1 hother with rfl | hother
  · exact hlt
  · exact String.lt_trans hlt (hentry other hother)

/-- A map is determined by the values it gives. -/
theorem ext_get? {v w : Variables} (h : ∀ name, v.get? name = w.get? name) : v = w := by
  obtain ⟨xs, hxs⟩ := v
  obtain ⟨ys, hys⟩ := w
  suffices xs = ys by subst this; rfl
  simp only [get?] at h
  induction xs generalizing ys with
  | nil =>
    cases ys with
    | nil => rfl
    | cons y ys => simpa [lookup?] using h y.1
  | cons x xs ih =>
    obtain ⟨hx, hxs⟩ := List.pairwise_cons.1 hxs
    cases ys with
    | nil => simpa [lookup?] using h x.1
    | cons y ys =>
      obtain ⟨hy, hys⟩ := List.pairwise_cons.1 hys
      have hname : x.1 = y.1 := by
        rcases Decidable.em (x.1 < y.1) with hlt | hlt
        · have := h x.1
          rw [lookup?_cons_eq_none hlt hy] at this
          simp [lookup?] at this
        · rcases Decidable.em (x.1 = y.1) with heq | hne
          · exact heq
          · have hlt := lt_of_not_lt_of_ne hlt hne
            have := h y.1
            rw [lookup?_cons_eq_none hlt hx] at this
            simp [lookup?] at this
      have hvalue : x.2 = y.2 := by simpa [lookup?, hname] using h x.1
      have hrest : xs = ys := ih hxs ys hys fun name => by
        rcases Decidable.em (name = x.1) with rfl | hne
        · rw [lookup?_eq_none hx, lookup?_eq_none (hname ▸ hy)]
        · simpa [lookup?, hne, hname ▸ hne] using h name
      rw [hrest, Prod.ext hname hvalue]

end Variables

end Shorthand
