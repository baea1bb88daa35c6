import Shorthand.Proofs.Text.Boundary

/-!
# Operations on a cursor

Whatever is asked of a cursor that starts at the beginning of a source, it stays between two
characters: its offset and its mark only ever move by the width of whole characters. The offsets are
therefore nothing but a way to write down how a text is divided, and what the operations do is
described by that division alone.

## Main definitions

* `Operation`, `Cursor.perform?`: what can be asked of a cursor, and what it then does;
* `Division`: a text that is divided into what stands before the mark, what has been read behind it,
  and what is left;
* `Cursor.Divides`: a cursor whose offsets divide a source;
* `Matcher.Longest`: the longest beginning of a text that is accepted.

## Main results

* `Matcher.longest_accepted`: as long as characters are accepted, they are consumed;
* `Cursor.Divides.perform?`: an operation does to the division what it is meant to do;
* `performs_on_boundaries`: no sequence of operations leaves the character boundaries.
-/

namespace Shorthand.Text

/-! ## Matchers -/

namespace Matcher

variable {matcher : Matcher} {asked text longer : List Char}

/-- Behind the characters asked about before, every character of the text is accepted. -/
def Accepts (matcher : Matcher) (asked text : List Char) : Prop :=
  ∀ before c, before ++ [c] <+: text → matcher.accepts (asked ++ before) c = true

theorem accepts_nil (matcher : Matcher) (asked : List Char) : matcher.Accepts asked [] := by
  intro before c h
  simpa using List.prefix_nil.1 h

/-- The first character is asked about first, and the others behind it. -/
theorem accepts_cons {c : Char} {cs : List Char} :
    matcher.Accepts asked (c :: cs) ↔
      matcher.accepts asked c = true ∧ matcher.Accepts (asked ++ [c]) cs := by
  constructor
  · intro h
    refine ⟨?_, fun before d hpre => ?_⟩
    · simpa using h [] c ⟨cs, rfl⟩
    · have := h (c :: before) d (List.cons_prefix_cons.2 ⟨rfl, hpre⟩)
      rwa [List.append_assoc]
  · rintro ⟨hfirst, hmore⟩ before d hpre
    cases before with
    | nil =>
      obtain ⟨rfl, -⟩ := List.cons_prefix_cons.1 hpre
      simpa using hfirst
    | cons b before =>
      obtain ⟨rfl, hbehind⟩ := List.cons_prefix_cons.1 hpre
      simpa [List.append_assoc] using hmore before d hbehind

/-- The longest beginning of a text of which every character is accepted. -/
structure Longest (matcher : Matcher) (text eaten : List Char) : Prop where
  isPrefix : eaten <+: text
  accepts : matcher.Accepts [] eaten
  /-- No longer one is accepted. -/
  longest : ∀ longer, longer <+: text → matcher.Accepts [] longer → longer <+: eaten

theorem accepted_isPrefix (matcher : Matcher) (asked text : List Char) :
    matcher.accepted asked text <+: text := by
  fun_induction accepted matcher asked text with
  | case1 asked => exact List.prefix_refl []
  | case2 asked c cs _ ih => exact List.cons_prefix_cons.2 ⟨rfl, ih⟩
  | case3 asked c cs => exact List.nil_prefix

theorem accepts_accepted (matcher : Matcher) (asked text : List Char) :
    matcher.Accepts asked (matcher.accepted asked text) := by
  fun_induction accepted matcher asked text with
  | case1 asked => exact matcher.accepts_nil asked
  | case2 asked c cs haccepts ih => exact accepts_cons.2 ⟨haccepts, ih⟩
  | case3 asked c cs => exact matcher.accepts_nil asked

theorem Accepts.isPrefix_accepted (h : matcher.Accepts asked longer) (hpre : longer <+: text) :
    longer <+: matcher.accepted asked text := by
  induction longer generalizing asked text with
  | nil => exact List.nil_prefix
  | cons c longer ih =>
    obtain ⟨hfirst, hmore⟩ := accepts_cons.1 h
    obtain ⟨rest, rfl⟩ := hpre
    rw [List.cons_append, accepted, if_pos hfirst]
    exact List.cons_prefix_cons.2 ⟨rfl, ih hmore (List.prefix_append longer rest)⟩

/-- As long as characters are accepted, they are consumed, and no further. -/
theorem longest_accepted (matcher : Matcher) (text : List Char) :
    matcher.Longest text (matcher.accepted [] text) :=
  ⟨matcher.accepted_isPrefix [] text, matcher.accepts_accepted [] text,
    fun _ hpre haccepts => haccepts.isPrefix_accepted hpre⟩

end Matcher

/-! ## Operations -/

/-- What can be asked of a cursor. -/
inductive Operation
  | peek
  | peekNth (n : Nat)
  | prev
  | next
  | eat (matcher : Matcher)
  | eatWhile (matcher : Matcher)
  | atEnd
  | rest
  | current
  | span
  | mark

/-- What a cursor answers. -/
inductive Answer
  | character (c? : Option Char)
  | verdict (value : Bool)
  | text (cs : List Char)
  | range (span : Span)
  /-- Nothing but that it is done. -/
  | done

/-- Performs an operation. There is no result if a text had to be cut inside a character for it, or
past its end. -/
def Cursor.perform? (cursor : Cursor) : Operation → Option (Answer × Cursor)
  | .peek => cursor.peek?.map fun c? => (.character c?, cursor)
  | .peekNth n => (cursor.peekNth? n).map fun c? => (.character c?, cursor)
  | .prev => cursor.prev?.map fun c? => (.character c?, cursor)
  | .next => cursor.next?.map fun (c?, cursor) => (.character c?, cursor)
  -- A single character is asked about, so nothing has been asked about before it.
  | .eat matcher => (cursor.eat? (matcher.accepts [])).map fun (eaten, cursor) =>
      (.verdict eaten, cursor)
  | .eatWhile matcher => (cursor.eatAccepted? matcher).map fun (eaten, cursor) =>
      (.verdict eaten, cursor)
  | .atEnd => some (.verdict cursor.atEnd, cursor)
  | .rest => cursor.rest?.map fun cs => (.text cs, cursor)
  | .current => cursor.current?.map fun cs => (.text cs, cursor)
  | .span => cursor.span?.map fun span => (.range span, cursor)
  | .mark => some (.done, cursor.mark)

/-- Performs operations, one after the other. -/
def Cursor.performAll? (cursor : Cursor) : List Operation → Option Cursor
  | [] => some cursor
  | op :: ops => (cursor.perform? op).bind fun (_, cursor) => cursor.performAll? ops

/-! ## Divided texts -/

/-- A text that is divided in three. -/
structure Division where
  /-- What stands before the mark. -/
  skipped : List Char
  /-- What has been read behind the mark. -/
  marked : List Char
  /-- What is left to read. -/
  left : List Char

namespace Division

/-- Nothing has been read. -/
def start (text : List Char) : Division :=
  { skipped := [], marked := [], left := text }

/-- The whole text. -/
def whole (division : Division) : List Char :=
  division.skipped ++ division.marked ++ division.left

/-- What has been read. -/
def read (division : Division) : List Char :=
  division.skipped ++ division.marked

/-- What an operation consumes. -/
def eaten (division : Division) : Operation → List Char
  | .next => division.left.take 1
  | .eat matcher => (division.left.take 1).filter (matcher.accepts [])
  | .eatWhile matcher => matcher.accepted [] division.left
  | _ => []

/-- The answer to an operation. -/
def answer (division : Division) : Operation → Answer
  | .peek => .character division.left.head?
  | .peekNth n => .character division.left[n]?
  | .prev => .character division.read.getLast?
  | .next => .character division.left.head?
  | .eat matcher => .verdict !(division.eaten (.eat matcher)).isEmpty
  | .eatWhile matcher => .verdict !(division.eaten (.eatWhile matcher)).isEmpty
  | .atEnd => .verdict division.left.isEmpty
  | .rest => .text division.left
  | .current => .text division.marked
  | .span => .range { offset := width division.read, length := width (division.left.take 1) }
  | .mark => .done

/-- The division behind some more characters. -/
def advance (division : Division) (cs : List Char) : Division :=
  { division with marked := division.marked ++ cs, left := division.left.drop cs.length }

/-- The division behind an operation. -/
def after (division : Division) : Operation → Division
  | .mark => { division with skipped := division.read, marked := [] }
  | op => division.advance (division.eaten op)

/-- The texts that operations consume, one after the other. -/
def pieces (division : Division) : List Operation → List (List Char)
  | [] => []
  | op :: ops => division.eaten op :: (division.after op).pieces ops

/-- The division behind several operations. -/
def afterAll (division : Division) (ops : List Operation) : Division :=
  ops.foldl after division

theorem eaten_isPrefix (division : Division) (op : Operation) :
    division.eaten op <+: division.left := by
  unfold eaten
  split
  next => exact List.take_prefix 1 _
  next =>
    cases division.left with
    | nil => exact List.nil_prefix
    | cons c cs =>
      rw [List.take_succ_cons, List.take_zero, List.filter_cons, List.filter_nil]
      split
      next => exact ⟨cs, rfl⟩
      next => exact List.nil_prefix
  next matcher => exact matcher.accepted_isPrefix [] _
  next => exact List.nil_prefix

/-- What is read behind an operation is what it has consumed. -/
theorem read_after (division : Division) (op : Operation) :
    (division.after op).read = division.read ++ division.eaten op := by
  cases op with
  | mark => simp [after, read, eaten]
  | _ => simp only [after, advance, read, List.append_assoc]

/-- What an operation consumes and what is left behind it is what was left before. -/
theorem eaten_append_left (division : Division) (op : Operation) :
    division.eaten op ++ (division.after op).left = division.left := by
  obtain ⟨rest, hrest⟩ := division.eaten_isPrefix op
  cases op with
  | mark => rfl
  | _ => simp only [after, advance, ← hrest, List.drop_left]

/-- No operation changes the text that is divided. -/
theorem whole_after (division : Division) (op : Operation) :
    (division.after op).whole = division.whole := by
  rw [whole, ← read, read_after, List.append_assoc, eaten_append_left, read, whole]

theorem whole_afterAll (division : Division) (ops : List Operation) :
    (division.afterAll ops).whole = division.whole := by
  induction ops generalizing division with
  | nil => rfl
  | cons op ops ih => exact (ih (division.after op)).trans (division.whole_after op)

/-- What has been read behind several operations is what they have consumed. -/
theorem read_afterAll (division : Division) (ops : List Operation) :
    (division.afterAll ops).read = division.read ++ (division.pieces ops).flatten := by
  induction ops generalizing division with
  | nil => simp [afterAll, pieces]
  | cons op ops ih =>
    have hfirst := ih (division.after op)
    rw [read_after, List.append_assoc] at hfirst
    exact hfirst

theorem read_afterAll_start (text : List Char) (ops : List Operation) :
    ((start text).afterAll ops).read = ((start text).pieces ops).flatten :=
  read_afterAll (start text) ops

theorem afterAll_concat (division : Division) (ops : List Operation) (op : Operation) :
    division.afterAll (ops ++ [op]) = (division.afterAll ops).after op :=
  List.foldl_append

end Division

/-! ## Cursors that divide a source -/

namespace Cursor

variable {cursor next : Cursor} {division : Division}

/-- The offsets of the cursor are the places at which the division cuts its source. -/
structure Divides (cursor : Cursor) (division : Division) : Prop where
  source_eq : cursor.source = division.whole
  start_eq : cursor.start = width division.skipped
  pos_eq : cursor.pos = width division.read

theorem divides_ofString (source : String) :
    (ofString source).Divides (.start source.toList) :=
  ⟨rfl, rfl, rfl⟩

namespace Divides

theorem cut?_eq (h : cursor.Divides division) :
    cut? cursor.pos cursor.source = some (division.read, division.left) :=
  cut?_eq_some_iff.2 ⟨h.source_eq, h.pos_eq.symm⟩

theorem consumed?_eq (h : cursor.Divides division) : cursor.consumed? = some division.read := by
  rw [consumed?, h.cut?_eq, Option.map_some]

theorem rest?_eq (h : cursor.Divides division) : cursor.rest? = some division.left := by
  rw [rest?, h.cut?_eq, Option.map_some]

theorem current?_eq (h : cursor.Divides division) : cursor.current? = some division.marked := by
  rw [current?, slice?_eq_some_iff]
  exact ⟨division.skipped, division.left, h.source_eq, h.start_eq.symm, h.pos_eq.symm⟩

theorem atEnd_eq (h : cursor.Divides division) : cursor.atEnd = division.left.isEmpty := by
  rw [atEnd, h.source_eq, h.pos_eq, Division.whole, ← Division.read, width_append]
  cases hleft : division.left with
  | nil => simp
  | cons c cs =>
    have := c.utf8Size_pos
    rw [List.isEmpty_cons, decide_eq_false_iff_not, width_cons]
    omega

/-- Moving behind some of the characters that are left keeps the cursor between characters. -/
theorem advance {cs : List Char} (h : cursor.Divides division) (hpre : cs <+: division.left) :
    (cursor.advance cs).Divides (division.advance cs) := by
  obtain ⟨rest, hrest⟩ := hpre
  refine ⟨?_, h.start_eq, ?_⟩
  · simp only [Cursor.advance, h.source_eq, Division.whole, Division.advance, ← hrest,
      List.drop_left, List.append_assoc]
  · simp only [Cursor.advance, h.pos_eq, Division.read, Division.advance, width_append]
    omega

/-- But for the mark, an operation answers from the division and moves behind what it consumes. -/
theorem perform?_eq (h : cursor.Divides division) {op : Operation} (hmark : op ≠ .mark) :
    cursor.perform? op = some (division.answer op, cursor.advance (division.eaten op)) := by
  cases op with
  | mark => exact absurd rfl hmark
  | peek => simp only [Cursor.perform?, peek?, h.rest?_eq]; rfl
  | peekNth n => simp only [Cursor.perform?, peekNth?, h.rest?_eq]; rfl
  | prev => simp only [Cursor.perform?, prev?, h.consumed?_eq]; rfl
  | next => simp only [Cursor.perform?, next?, h.rest?_eq]; rfl
  | eat matcher => simp only [Cursor.perform?, eat?, h.rest?_eq]; rfl
  | eatWhile matcher => simp only [Cursor.perform?, eatAccepted?, h.rest?_eq]; rfl
  | atEnd => simp only [Cursor.perform?, h.atEnd_eq]; rfl
  | rest => simp only [Cursor.perform?, h.rest?_eq]; rfl
  | current => simp only [Cursor.perform?, h.current?_eq]; rfl
  | span => simp only [Cursor.perform?, span?, h.rest?_eq, h.pos_eq]; rfl

/-- An operation answers from the division, and divides the source behind what it consumes. -/
theorem perform? (h : cursor.Divides division) (op : Operation) :
    ∃ next, cursor.perform? op = some (division.answer op, next) ∧
      next.Divides (division.after op) := by
  have hadvance := h.advance (division.eaten_isPrefix op)
  cases op with
  | mark =>
    refine ⟨cursor.mark, rfl, ?_, h.pos_eq, ?_⟩
    · rw [Division.whole_after]
      exact h.source_eq
    · simpa [Cursor.mark, Division.after, Division.read] using h.pos_eq
  | _ => exact ⟨_, h.perform?_eq nofun, hadvance⟩

/-- Several operations can all be performed, and the cursor divides the source behind them. -/
theorem performAll? (h : cursor.Divides division) (ops : List Operation) :
    ∃ next, cursor.performAll? ops = some next ∧ next.Divides (division.afterAll ops) := by
  induction ops generalizing cursor division with
  | nil => exact ⟨cursor, rfl, h⟩
  | cons op ops ih =>
    obtain ⟨behind, hop, hbehind⟩ := h.perform? op
    obtain ⟨next, hops, hnext⟩ := ih hbehind
    exact ⟨next, by rw [Cursor.performAll?, hop]; exact hops, hnext⟩

end Divides

/-- The cursor stands between what has been read of a source and what is left of it, and neither it
nor its mark is inside a character. -/
structure StandsBetween (source : String) (cursor : Cursor) (read left : List Char) : Prop where
  start_le : cursor.start ≤ cursor.pos
  pos_le : cursor.pos ≤ source.utf8ByteSize
  isValid_start : (⟨cursor.start⟩ : String.Pos.Raw).IsValid source
  isValid_pos : (⟨cursor.pos⟩ : String.Pos.Raw).IsValid source
  consumed?_eq : cursor.consumed? = some read
  rest?_eq : cursor.rest? = some left
  split : read ++ left = source.toList

theorem Divides.standsBetween {source : String} (h : cursor.Divides division)
    (hwhole : division.whole = source.toList) :
    cursor.StandsBetween source division.read division.left := by
  refine ⟨?_, ?_, ?_, ?_, h.consumed?_eq, h.rest?_eq, hwhole⟩
  · rw [h.start_eq, h.pos_eq, Division.read, width_append]
    omega
  · rw [h.pos_eq, utf8ByteSize_eq_width, ← hwhole, Division.whole, ← Division.read, width_append]
    omega
  · rw [h.start_eq]
    have hsplit : source.toList = division.skipped ++ (division.marked ++ division.left) := by
      rw [← hwhole, Division.whole, List.append_assoc]
    exact isValid_width hsplit
  · rw [h.pos_eq]
    exact isValid_width hwhole.symm

end Cursor

/-- Any operations can be performed on a new cursor, one after the other, and one more behind them.
The cursor never moves back, and it and its mark stay between characters of the source: what has
been consumed so far stands before the cursor, and what is left behind it. Consuming as long as
characters are accepted takes the longest beginning of what is left of which all are, and tells
whether there were any. -/
theorem performs_on_boundaries (source : String) (ops : List Operation) (op : Operation) :
    ∃ cursor next left more answer,
      (Cursor.ofString source).performAll? ops = some cursor ∧
      cursor.StandsBetween source ((Division.start source.toList).pieces ops).flatten left ∧
      cursor.perform? op = some (answer, next) ∧
      next.StandsBetween source ((Division.start source.toList).pieces (ops ++ [op])).flatten
        more ∧
      cursor.pos ≤ next.pos ∧
      ∀ matcher, op = .eatWhile matcher → ∃ eaten, matcher.Longest left eaten ∧
        left = eaten ++ more ∧ answer = .verdict !eaten.isEmpty := by
  obtain ⟨cursor, hops, hcursor⟩ := (Cursor.divides_ofString source).performAll? ops
  obtain ⟨next, hop, hnext⟩ := hcursor.perform? op
  have hbefore := hcursor.standsBetween (Division.whole_afterAll _ ops)
  have hbehind := hnext.standsBetween
    ((Division.whole_after _ op).trans (Division.whole_afterAll _ ops))
  rw [← Division.afterAll_concat] at hbehind
  rw [Division.read_afterAll_start] at hbefore hbehind
  refine ⟨cursor, next, _, _, _, hops, hbefore, hop, hbehind, ?_, ?_⟩
  · rw [hcursor.pos_eq, hnext.pos_eq, Division.read_after, width_append]
    omega
  · rintro matcher rfl
    refine ⟨_, matcher.longest_accepted _, ?_, ?_⟩
    · rw [Division.afterAll_concat]
      exact (Division.eaten_append_left _ (.eatWhile matcher)).symm
    · rfl

theorem performs_on_boundaries_accented : ∃ cursor next eaten answer,
    (Cursor.ofString "aé€z").performAll? [.next, .mark] = some cursor ∧
      cursor.perform? (.eatWhile (.ofClass (· != 'z'))) = some (answer, next) ∧
      (Matcher.ofClass (· != 'z')).Longest ['é', '€', 'z'] eaten ∧
      answer = .verdict !eaten.isEmpty := by
  obtain ⟨cursor, next, left, more, answer, hops, hbefore, hop, -, -, heats⟩ :=
    performs_on_boundaries "aé€z" [.next, .mark] (.eatWhile (.ofClass (· != 'z')))
  have hsplit : 'a' :: left = ['a', 'é', '€', 'z'] := hbefore.split
  obtain rfl : left = ['é', '€', 'z'] := (List.cons.inj hsplit).2
  obtain ⟨eaten, hlongest, -, hanswer⟩ := heats _ rfl
  exact ⟨cursor, next, eaten, answer, hops, hop, hlongest, hanswer⟩

end Shorthand.Text
