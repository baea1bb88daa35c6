import Mathlib.Data.List.TakeWhile
import Shorthand.Proofs.Statement.Locality.Attributes
import Shorthand.Proofs.Statement.Parts

/-!
# How far elements are read

An element is read again before tokens that stand in the place of those behind it. Only whether its
name is a path takes a look at two tokens, and an element never ends between these.

## Main definitions

* `GoesOn`: tokens with which a path goes on.

## Main results

* `readName_append_of_standsIn`: the same name is read before other tokens;
* `continues_readParts?`, `continues_readElement?`: the same element is read before other tokens;
* `readElement?_cons_eq_none`: the first token decides whether there is an element.
-/

namespace Shorthand.Statement

variable {jsx present : Bool} {element : Element}
  {tokens value rest behind taken : List Token} {token : Token}

/-! ## Names -/

/-- A dot with a capitalized literal behind it, with which a path goes on. -/
def GoesOn (tokens : List Token) : Prop :=
  ∃ dot part more, tokens = dot :: part :: more ∧ dot.kind = .operator .className ∧
    isCapitalized part = true

/-- A capitalized literal can stand in a name. -/
theorem isNamePart_of_isCapitalized (h : isCapitalized token = true) : isNamePart token = true := by
  unfold isCapitalized at h
  split at h
  next hkind => simp [isNamePart, hkind]
  next => cases h

theorem readDotted_of_not_goesOn (h : ¬GoesOn tokens) : readDotted tokens = ([], tokens) := by
  unfold readDotted
  split
  next dot part tokens => rw [if_neg fun hpart => h ⟨dot, part, tokens, rfl, hpart⟩]
  next => rfl

/-- A path ends where it does not go on, and goes no further if other tokens do not continue it
either. -/
theorem readDotted_append_of_not_goesOn (h : readDotted tokens = (value, rest)) :
    ¬GoesOn rest ∧ (¬GoesOn behind → readDotted (value ++ behind) = (value, behind)) := by
  fun_induction readDotted tokens generalizing value with
  | case1 dot part tokens hpart path more hread ih =>
    cases h
    obtain ⟨hstops, hagain⟩ := ih hread
    refine ⟨hstops, fun hbehind => ?_⟩
    rw [List.cons_append, List.cons_append, readDotted, if_pos hpart, hagain hbehind]
  | case2 dot part tokens hpart =>
    cases h
    refine ⟨?_, readDotted_of_not_goesOn⟩
    rintro ⟨_, _, _, heq, hdot, hcapital⟩
    cases heq
    exact hpart ⟨hdot, hcapital⟩
  | case3 tokens hshort =>
    cases h
    refine ⟨?_, readDotted_of_not_goesOn⟩
    rintro ⟨dot, part, more, rfl, -⟩
    exact hshort _ _ _ rfl

/-- A path is read again before other tokens, if it ends before them as well. -/
theorem readPath_append_of_goesOn (h : readPath tokens = (value, rest))
    (hpath : GoesOn behind → GoesOn rest)
    (hempty : value = [] → ∀ token ∈ behind.head?, isCapitalized token = false) :
    readPath (value ++ behind) = (value, behind) := by
  have hnone (hhead : ∀ token ∈ behind.head?, isCapitalized token = false) :
      readPath behind = ([], behind) := by
    cases behind with
    | nil => rfl
    | cons token behind => rw [readPath, if_neg (by simp [hhead token rfl])]
  unfold readPath at h
  split at h
  next =>
    cases h
    exact hnone (hempty rfl)
  next token tokens =>
    split at h
    next hcapital =>
      rcases hread : readDotted tokens with ⟨path, more⟩
      rw [hread] at h
      cases h
      obtain ⟨hstops, hagain⟩ := readDotted_append_of_not_goesOn hread
      rw [List.cons_append, readPath, if_pos hcapital, hagain fun hbehind => hstops (hpath hbehind)]
    next hcapital =>
      cases h
      exact hnone (hempty rfl)

/-- No path is read before a capitalized literal. -/
theorem isCapitalized_of_readPath (h : readPath tokens = ([], rest)) :
    ∀ token ∈ rest.head?, isCapitalized token = false := by
  unfold readPath at h
  split at h
  next =>
    cases h
    simp
  next token tokens =>
    split at h
    next => cases h
    next hcapital =>
      cases h
      simpa using hcapital

/-- A name is read again before other tokens, if it ends before them as well. -/
theorem readName_append_of_goesOn {name : List Token} (h : readName jsx tokens = (name, rest))
    (hpart : ∀ token ∈ behind.head?, isNamePart token = false)
    (hpath : GoesOn behind → GoesOn rest) : readName jsx (name ++ behind) = (name, behind) := by
  rcases hread : (if jsx then readPath tokens else ([], tokens)) with ⟨path, more⟩
  simp only [readName, hread, Prod.mk.injEq] at h
  obtain ⟨rfl, rfl⟩ := h
  -- What is read behind the path are all parts of a name up to the first other token.
  have hparts : ∀ token ∈ more.takeWhile isNamePart, isNamePart token = true := fun _ hmem =>
    List.mem_takeWhile_imp hmem
  have hmore : more.takeWhile isNamePart ++ more.dropWhile isNamePart = more :=
    List.takeWhile_append_dropWhile
  generalize more.takeWhile isNamePart = parts at hparts hmore ⊢
  generalize more.dropWhile isNamePart = rest at hpath hmore
  subst hmore
  have hstop : (parts ++ behind).takeWhile isNamePart = parts ∧
      (parts ++ behind).dropWhile isNamePart = behind := by
    rw [List.takeWhile_append_of_pos hparts, List.dropWhile_append_of_pos hparts]
    cases behind with
    | nil => simp
    | cons token behind => simp [hpart token rfl]
  have hagain : (if jsx then readPath (path ++ (parts ++ behind))
      else ([], path ++ (parts ++ behind))) = (path, parts ++ behind) := by
    split at hread
    next hjsx =>
      rw [if_pos hjsx]
      cases parts with
      | nil =>
        refine readPath_append_of_goesOn hread hpath fun _ token hmem => ?_
        by_contra hcapital
        have := isNamePart_of_isCapitalized (by simpa using hcapital)
        simp [hpart token hmem] at this
      | cons part parts =>
        refine readPath_append_of_goesOn hread ?_ ?_
        · rintro ⟨dot, _, _, heq, hdot, -⟩
          obtain rfl : part = dot := (List.cons_eq_cons.1 heq).1
          have := hparts part (List.mem_cons_self ..)
          simp [isNamePart, hdot] at this
        · rintro rfl
          simpa using isCapitalized_of_readPath hread
    next hjsx =>
      cases hread
      rw [if_neg hjsx]
      rfl
  rw [readName, List.append_assoc, hagain]
  dsimp only
  rw [hstop.1, hstop.2]

/-! ## Elements -/

theorem continues_readRepeater {repeater : Option Repeater}
    (h : readRepeater tokens = (repeater, rest)) :
    Continues false readRepeater tokens (fun behind => (repeater, behind)) rest := by
  unfold readRepeater at h
  split at h
  next =>
    cases h
    exact ⟨[_], rfl, fun _ _ => rfl⟩
  next hother =>
    cases h
    refine ⟨[], rfl, fun behind hin => ?_⟩
    have hbehind (repeater : Repeater) :
        ∀ token ∈ behind.head?, token.kind ≠ .repeater repeater :=
      hin.forall_head (forall_head_kind_ne (hother repeater)) (by simp +contextual)
        (by simp +contextual)
    cases behind with
    | nil => rfl
    | cons token behind => exact readRepeater_of_ne fun repeater => hbehind repeater token rfl

theorem continues_close {result : Element} (h : element.close tokens = (result, rest)) :
    Continues false element.close tokens (fun behind => (result, behind)) rest := by
  unfold Element.close at h
  dsimp only at h
  split at h
  next hnone =>
    rcases hread : readRepeater tokens with ⟨repeater, more⟩
    rw [hread] at h
    cases h
    obtain ⟨taken, rfl, htaken⟩ := continues_readRepeater hread
    refine ⟨taken, rfl, fun behind hin => ?_⟩
    rw [Element.close]
    dsimp only
    rw [if_pos hnone, htaken behind hin]
  next hsome =>
    cases h
    refine ⟨[], rfl, fun behind _ => ?_⟩
    rw [List.nil_append, Element.close]
    dsimp only
    rw [if_neg hsome]

/-- A short attribute, whatever its mark, is a part that is read again. -/
theorem continues_readPart?_short {name : String} {attr : Attribute}
    (hmark : ∀ tokens, readPart? jsx present element (token :: tokens) =
      .ok (some (.attributes [(readShort jsx name token tokens).1],
        (readShort jsx name token tokens).2)))
    (hread : readShort jsx name token tokens = (attr, rest)) :
    Continues false (readPart? jsx present element) (token :: tokens)
      (fun behind => .ok (some (.attributes [attr], behind))) rest := by
  obtain ⟨taken, rfl, htaken⟩ := continues_readShort hread
  refine ⟨token :: taken, rfl, fun behind hin => ?_⟩
  rw [List.cons_append, hmark, htaken behind hin]

/-- A text is a part that is read again. -/
theorem continues_readPart?_text (hkind : token.kind = .bracket .expression true)
    (hnone : element.value.isNone = true)
    (htext : readText? (token :: tokens) = some (value, rest)) :
    Continues false (readPart? jsx present element) (token :: tokens)
      (fun behind => .ok (some (.text value, behind))) rest := by
  obtain ⟨taken, happend, htaken⟩ := continues_readText? htext
  cases taken with
  -- At least the opening brace is taken.
  | nil =>
    have hlt := readText?_length_lt htext
    rw [happend] at hlt
    exact absurd hlt (Nat.lt_irrefl _)
  | cons first taken =>
    obtain ⟨rfl, rfl⟩ := List.cons_eq_cons.1 happend
    refine ⟨token :: taken, rfl, fun behind hin => ?_⟩
    rw [List.cons_append, readPart?, hkind]
    dsimp only
    rw [if_pos hnone, ← List.cons_append, htaken behind hin]
    rfl

/-- A set of attributes is a part that is read again. -/
theorem continues_readPart?_attributes {attributes : List Attribute}
    (hkind : token.kind = .bracket .attributes true)
    (hset : readAttributes tokens = .ok (attributes, rest)) :
    Continues false (readPart? jsx present element) (token :: tokens)
      (fun behind => .ok (some (.attributes attributes, behind))) rest := by
  by_cases hne : rest = []
  · rw [hne]
    exact continues_nil _ _ _
  obtain ⟨taken, closing, rfl, htaken⟩ := exists_readAttributes_append hset hne
  refine ⟨token :: (taken ++ [closing]), by simp, fun behind _ => ?_⟩
  rw [List.cons_append, List.append_assoc, List.singleton_append]
  exact readPart?_attributes hkind (htaken behind)

theorem continues_readPart? {part : Part}
    (h : readPart? jsx present element tokens = .ok (some (part, rest))) :
    Continues false (readPart? jsx present element) tokens
      (fun behind => .ok (some (part, behind))) rest := by
  unfold readPart? at h
  split at h
  next => cases h
  next token tokens =>
    split at h
    next repeater hkind =>
      split at h
      next hfirst =>
        cases h
        refine ⟨[token], rfl, fun behind _ => ?_⟩
        rw [List.singleton_append, readPart?, hkind]
        dsimp only
        rw [if_pos hfirst]
      next => cases h
    next hkind =>
      split at h
      next hfirst =>
        simp only [Except.ok.injEq, Option.map_eq_some_iff, Prod.exists, Prod.mk.injEq] at h
        obtain ⟨text, more, htext, rfl, rfl⟩ := h
        exact continues_readPart?_text hkind hfirst htext
      next => cases h
    next hkind =>
      cases h
      exact continues_readPart?_short (fun tokens => by rw [readPart?, hkind]) rfl
    next hkind =>
      cases h
      exact continues_readPart?_short (fun tokens => by rw [readPart?, hkind]) rfl
    next hkind =>
      obtain ⟨result, hread, heq⟩ := Except.map_eq_ok_iff.1 h
      cases heq
      exact continues_readPart?_attributes hkind hread
    next hkind =>
      split at h
      next hpresent =>
        cases h
        refine ⟨[token], rfl, fun behind _ => ?_⟩
        rw [List.singleton_append, hpresent, readPart?_close hkind]
      next => cases h
    next => cases h

/-- No part begins where everything ends. -/
theorem Halts.readPart? (h : Halts false tokens) :
    readPart? jsx present element tokens = .ok none := by
  cases tokens with
  | nil => rfl
  | cons token tokens =>
    rcases h token rfl with ⟨text, hkind⟩ | ⟨-, hkind⟩
    · simp [Statement.readPart?, hkind]
    · simp [Statement.readPart?, hkind]

/-- Where no part begins, none begins after the tokens have been replaced. -/
theorem StandsIn.readPart?_eq_none (hin : StandsIn false tokens behind)
    (h : readPart? jsx present element tokens = .ok none) :
    readPart? jsx present element behind = .ok none := by
  cases hin with
  | same token rest behind =>
    unfold readPart? at h
    dsimp only at h
    split at h
    next repeater hkind =>
      split at h
      next => cases h
      next hlater =>
        rw [readPart?, hkind]
        dsimp only
        rw [if_neg hlater]
    next hkind =>
      split at h
      next =>
        have htext := readText?_eq_none_iff.1 (Option.map_eq_none_iff.1 (Except.ok.inj h))
        exact absurd hkind (htext token rfl)
      next hlater =>
        rw [readPart?, hkind]
        dsimp only
        rw [if_neg hlater]
    next => cases h
    next => cases h
    next =>
      obtain ⟨_, -, heq⟩ := Except.map_eq_ok_iff.1 h
      cases heq
    next => split at h <;> cases h
    next hrepeater htext hid hclass hset hclose =>
      unfold readPart?
      dsimp only
      split <;> simp_all
  | halts _ hhalts => exact hhalts.readPart?

theorem continues_readParts? {result : Element}
    (h : readParts? jsx present element tokens = .ok (some (result, rest))) :
    Continues false (readParts? jsx present element) tokens
      (fun behind => .ok (some (result, behind))) rest := by
  fun_induction readParts? jsx present element tokens with
  | case1 => cases h
  | case2 present element tokens hpart =>
    split at h
    next hpresent =>
      cases h
      subst hpresent
      exact ⟨[], rfl, fun behind hin => readParts?_of_none (hin.readPart?_eq_none hpart)⟩
    next => cases h
  | case3 present element tokens next hpart =>
    obtain ⟨taken, rfl, htaken⟩ := continues_readPart? hpart
    have hclose : Continues false (readParts? jsx present element) (taken ++ next)
        (fun behind => .ok (some (element.close behind))) next :=
      ⟨taken, rfl, fun behind hin => readParts?_of_close (htaken behind hin)⟩
    have hbehind := (continues_close (Option.some.inj (Except.ok.inj h))).map
      fun closed => (Except.ok (some closed) : Except Fault (Option (Element × List Token)))
    exact hclose.trans hbehind
  | case4 present element tokens part next hclose hpart _ ih =>
    obtain ⟨taken, rfl, htaken⟩ := continues_readPart? hpart
    have hadd : Continues false (readParts? jsx present element) (taken ++ next)
        (readParts? jsx true (element.add part)) next :=
      ⟨taken, rfl, fun behind hin => readParts?_of_readPart? (htaken behind hin) hclose⟩
    exact hadd.trans (ih h)

/-- There is no element only where nothing of it is there and no part of it follows. -/
theorem readParts?_eq_none_iff : readParts? jsx present element tokens = .ok none ↔
    present = false ∧ readPart? jsx present element tokens = .ok none := by
  constructor
  · intro h
    fun_induction readParts? jsx present element tokens with
    | case1 => cases h
    | case2 present element tokens hpart =>
      split at h
      next => cases h
      next hpresent => exact ⟨by simpa using hpresent, hpart⟩
    | case3 => cases h
    | case4 present element tokens part next _ _ _ ih => exact absurd (ih h).1 (by simp)
  · rintro ⟨rfl, hpart⟩
    rw [readParts?.eq_def]
    split <;> simp_all

/-- A dot by itself is a part of an element. -/
theorem exists_readParts?_dot (hdot : token.kind = .operator .className) :
    ∃ result, readParts? jsx present element [token] = .ok (some (result, [])) := by
  have hpart : readPart? jsx present element [token] =
      .ok (some (.attributes [(readShort jsx "class" token []).1], [])) := by
    have hlength := length_readShort_le jsx "class" token []
    rcases hread : readShort jsx "class" token [] with ⟨attr, rest⟩
    rw [hread] at hlength
    obtain rfl : rest = [] := List.length_eq_zero_iff.1 (Nat.le_zero.1 hlength)
    rw [readPart?, hdot]
    dsimp only
    rw [hread]
  rw [readParts?_of_readPart? hpart (by simp)]
  exact ⟨_, readParts?_of_none rfl⟩

/-- The beginning of an element of which the name has been read, or nothing if that is empty. -/
def Element.ofName (name : List Token) : Element :=
  if name.isEmpty then {} else { name := some name }

theorem readElement?_of_readName {name : List Token} (h : readName jsx tokens = (name, rest)) :
    readElement? jsx tokens = readParts? jsx (!name.isEmpty) (.ofName name) rest := by
  have happend := readName_append jsx tokens
  rw [h] at happend
  subst happend
  rw [readElement?, h]
  cases name with
  | nil => rfl
  | cons => rfl

/-- No part of a name stands behind a name. -/
theorem isNamePart_of_readName {name : List Token} (h : readName jsx tokens = (name, rest)) :
    ∀ token ∈ rest.head?, isNamePart token = false := by
  intro token hmem
  rw [readName, Prod.mk.injEq] at h
  obtain ⟨-, rfl⟩ := h
  have := List.head?_dropWhile_not isNamePart (if jsx then readPath tokens else ([], tokens)).2
  rw [Option.mem_def.1 hmem] at this
  simpa using this

/-- Whether a name is a path depends on two tokens behind it. If an element ends behind its name,
the first of them is no dot, and if it ends behind the dot, the second is no literal. -/
theorem readName_append_of_standsIn {name : List Token}
    (h : readName jsx tokens = (name, taken ++ rest)) (hin : StandsIn false rest behind)
    (hdot : taken = [] → ∀ token ∈ rest.head?, token.kind ≠ .operator .className) :
    readName jsx (name ++ (taken ++ behind)) = (name, taken ++ behind) := by
  refine readName_append_of_goesOn h ?_ ?_
  · exact (hin.append taken).forall_head (isNamePart_of_readName h)
      (by simp +contextual [isNamePart]) (by simp +contextual [isNamePart])
  · rintro ⟨dot, part, more, heq, hkind, hcapital⟩
    rcases taken with _ | ⟨first, _ | ⟨second, taken⟩⟩
    -- The element ends behind its name, so no dot can stand there.
    · have hbehind := hin.forall_head (hdot rfl) (by simp +contextual) (by simp +contextual)
      rw [List.nil_append] at heq
      exact absurd hkind (hbehind dot (by simp [heq]))
    -- It ends behind the dot. A literal there has not been put in the place of another token.
    · obtain ⟨rfl, rfl⟩ := List.cons_eq_cons.1 heq
      cases hin with
      | same => exact ⟨first, part, _, rfl, hkind, hcapital⟩
      | halts _ hhalts =>
        have hpart := isNamePart_of_isCapitalized hcapital
        rcases hhalts part rfl with ⟨text, hblank⟩ | ⟨-, hclosing⟩
        · simp [isNamePart, hblank] at hpart
        · simp [isNamePart, hclosing] at hpart
    -- Both tokens are taken.
    · obtain ⟨rfl, hsecond⟩ := List.cons_eq_cons.1 heq
      obtain ⟨rfl, -⟩ := List.cons_eq_cons.1 hsecond
      exact ⟨first, second, taken ++ rest, rfl, hkind, hcapital⟩

/-- An element goes on as its parts do, unless a dot is all that stands behind its name. -/
theorem Continues.readElement? {name : List Token}
    {next : List Token → Except Fault (Option (Element × List Token))}
    (hname : readName jsx tokens = (name, value))
    (h : Continues false (readParts? jsx (!name.isEmpty) (.ofName name)) value next rest)
    (hdot : ∀ token ∈ rest.head?, ∀ result, next [token] ≠ .ok (some (result, []))) :
    Continues false (readElement? jsx) tokens next rest := by
  have happend := readName_append jsx tokens
  rw [hname] at happend
  obtain ⟨taken, rfl, htaken⟩ := h
  refine ⟨name ++ taken, by rw [← happend, List.append_assoc], fun behind hin => ?_⟩
  have hagain : readName jsx (name ++ (taken ++ behind)) = (name, taken ++ behind) := by
    refine readName_append_of_standsIn hname hin ?_
    rintro rfl token hmem hkind
    -- Nothing would be taken behind the name, but a dot by itself is taken.
    obtain ⟨result, hresult⟩ := exists_readParts?_dot hkind
    cases rest with
    | nil => cases hmem
    | cons first rest =>
      obtain rfl : first = token := by simpa using hmem
      refine hdot first rfl result ?_
      rw [← htaken [first] (.same ..)]
      exact hresult
  rw [List.append_assoc, readElement?_of_readName hagain, htaken behind hin]

theorem continues_readElement? (h : readElement? jsx tokens = .ok (some (element, rest))) :
    Continues false (readElement? jsx) tokens (fun behind => .ok (some (element, behind)))
      rest := by
  rcases hname : readName jsx tokens with ⟨name, more⟩
  rw [readElement?_of_readName hname] at h
  exact (continues_readParts? h).readElement? hname (by simp)

/-- Whether an element begins is decided by the first token. -/
theorem readElement?_cons_eq_none (h : readElement? jsx (token :: tokens) = .ok none)
    (behind : List Token) : readElement? jsx (token :: behind) = .ok none := by
  have hin : StandsIn false (token :: tokens) (token :: behind) := .same ..
  rcases hname : readName jsx (token :: tokens) with ⟨name, more⟩
  have happend := readName_append jsx (token :: tokens)
  rw [readElement?_of_readName hname] at h
  -- Neither a name nor a part begins here, and both are decided by the first token.
  obtain ⟨hpresent, hpart⟩ := readParts?_eq_none_iff.1 h
  obtain rfl : name = [] := by simpa using hpresent
  rw [hname, List.nil_append] at happend
  dsimp only at happend
  subst happend
  have hagain : readName jsx ([] ++ ([] ++ token :: behind)) = ([], [] ++ token :: behind) := by
    refine readName_append_of_standsIn hname hin ?_
    rintro - first hfirst hdot
    obtain rfl : token = first := by simpa using hfirst
    simp [readPart?, hdot] at hpart
  rw [List.nil_append, List.nil_append] at hagain
  rw [readElement?_of_readName hagain]
  exact readParts?_eq_none_iff.2 ⟨rfl, hin.readPart?_eq_none hpart⟩

end Shorthand.Statement
