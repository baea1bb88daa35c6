import Shorthand.Text.Cursor

/-!
# Character boundaries

The width of a text is the number of bytes of its UTF-8 form, and the offsets at which a text can
be cut are the character boundaries of that form.

## Main definitions

* `Span.PointsInto`: a range of whole characters of a text.

## Main results

* `utf8ByteSize_eq_width`: the width of a text is its number of bytes;
* `isValid_width`: a text that splits into two has a boundary between them;
* `pointsInto_of_split`: a part of a text is a range of whole characters;
* `slice?_eq_some_iff`: what can be cut out of a source is a stretch of its characters.
-/

namespace Shorthand.Text

/-- The number of bytes of a list of characters. -/
theorem utf8ByteSize_ofList (cs : List Char) : (String.ofList cs).utf8ByteSize = width cs := by
  induction cs with
  | nil => rfl
  | cons c cs ih =>
    rw [String.ofList_cons, String.utf8ByteSize_append, String.utf8ByteSize_singleton, ih,
      width_cons]

/-- The number of bytes of a text is its width. -/
theorem utf8ByteSize_eq_width (text : String) : text.utf8ByteSize = width text.toList := by
  rw [← utf8ByteSize_ofList, String.ofList_toList]

/-- The place between two parts of a text is a character boundary. -/
theorem isValid_width {text : String} {before after : List Char}
    (h : text.toList = before ++ after) : (⟨width before⟩ : String.Pos.Raw).IsValid text := by
  rw [String.Pos.Raw.isValid_iff_exists_append]
  refine ⟨String.ofList before, String.ofList after, ?_, ?_⟩
  · rw [← String.ofList_append, ← h, String.ofList_toList]
  · rw [String.Pos.Raw.ext_iff, String.byteIdx_rawEndPos, utf8ByteSize_ofList]

/-- The span is a range of whole characters of the text, and empty only at its end. -/
structure Span.PointsInto (text : String) (span : Span) : Prop where
  /-- It does not reach beyond the end. -/
  le : span.offset + span.length ≤ text.utf8ByteSize
  /-- It begins at a character boundary. -/
  isValid_offset : (⟨span.offset⟩ : String.Pos.Raw).IsValid text
  /-- It ends at a character boundary. -/
  isValid_end : (⟨span.offset + span.length⟩ : String.Pos.Raw).IsValid text
  /-- There is something in it, unless it is the place behind the last character. -/
  pos : span.offset ≠ text.utf8ByteSize → 0 < span.length

/-- A part of a text is a range of whole characters of it. If it is empty, it has to stand at the
end. -/
theorem pointsInto_of_split {text : String} {before marked after : List Char}
    (h : text.toList = before ++ (marked ++ after)) (hend : marked = [] → after = []) :
    Span.PointsInto text ⟨width before, width marked⟩ := by
  have hsize : text.utf8ByteSize = width before + (width marked + width after) := by
    rw [utf8ByteSize_eq_width, h, width_append, width_append]
  refine ⟨?_, isValid_width h, ?_, fun hne => ?_⟩
  · rw [hsize]
    dsimp only
    omega
  · rw [← width_append]
    exact isValid_width (by rw [h, List.append_assoc])
  · rw [Nat.pos_iff_ne_zero]
    intro hempty
    rw [width_eq_zero_iff] at hempty
    rw [hsize, hempty, hend hempty] at hne
    exact hne rfl

/-- What can be cut out of a source is a stretch of its characters, between the offsets of its
first and behind its last one. -/
theorem Cursor.slice?_eq_some_iff {cursor : Cursor} {first last : Nat} {text : List Char} :
    cursor.slice? first last = some text ↔
      ∃ before after, cursor.source = before ++ text ++ after ∧ width before = first ∧
        width (before ++ text) = last := by
  simp only [Cursor.slice?, Option.bind_eq_some_iff, Option.map_eq_some_iff, Prod.exists,
    exists_eq_right, cut?_eq_some_iff]
  constructor
  · rintro ⟨_, after, ⟨hsource, hlast⟩, before, rfl, hfirst⟩
    exact ⟨before, after, hsource, hfirst, hlast⟩
  · rintro ⟨before, after, hsource, hfirst, hlast⟩
    exact ⟨before ++ text, after, ⟨hsource, hlast⟩, before, rfl, hfirst⟩

end Shorthand.Text
