import Shorthand.Text.Surrogates

/-!
# Code points

What code units stand for: a character is given by its code point, or by two surrogates if it lies
beyond the basic plane.

## Main definitions

* `Encodes`: the characters that code units stand for.

## Main results

* `ofUnits?_eq_some_iff`: the code units are read as those characters.
-/

namespace Shorthand.Text

/-- The characters that code units stand for. Each is given by its code point or by two
surrogates. -/
inductive Encodes : List Nat → List Char → Prop
  | nil : Encodes [] []
  | single {units : List Nat} {cs : List Char} (c : Char) (h : Encodes units cs) :
      Encodes (c.toNat :: units) (c :: cs)
  | pair {units : List Nat} {cs : List Char} {c : Char} {high low : Nat}
      (hhigh : 0xd800 ≤ high ∧ high ≤ 0xdbff) (hlow : 0xdc00 ≤ low ∧ low ≤ 0xdfff)
      (hc : c.toNat = 0x10000 + (high - 0xd800) * 0x400 + (low - 0xdc00)) (h : Encodes units cs) :
      Encodes (high :: low :: units) (c :: cs)

variable {units : List Nat} {cs : List Char} {c : Char} {n high low unit : Nat}

theorem isHighSurrogate_iff : isHighSurrogate n = true ↔ 0xd800 ≤ n ∧ n ≤ 0xdbff := by
  simp [isHighSurrogate]

theorem isLowSurrogate_iff : isLowSurrogate n = true ↔ 0xdc00 ≤ n ∧ n ≤ 0xdfff := by
  simp [isLowSurrogate]

/-- The lower ten bits of a surrogate are what it has beyond the first of its kind. -/
theorem ofSurrogates_eq (hhigh : 0xd800 ≤ high ∧ high ≤ 0xdbff)
    (hlow : 0xdc00 ≤ low ∧ low ≤ 0xdfff) :
    ofSurrogates high low = 0x10000 + (high - 0xd800) * 0x400 + (low - 0xdc00) := by
  rw [ofSurrogates]
  omega

theorem ofCodePoint?_eq_some_iff : ofCodePoint? n = some c ↔ c.toNat = n := by
  constructor
  · intro h
    rw [ofCodePoint?] at h
    split at h
    next hvalid =>
      obtain rfl := Option.some.inj h
      rw [Char.ofNat, dif_pos hvalid]
      rfl
    next => cases h
  · rintro rfl
    exact ofCodePoint?_toNat c

/-- A code unit that is no surrogate with a partner stands for a character of its own. -/
theorem ofUnits?_single
    (h : isHighSurrogate unit = true → ∀ low ∈ units.head?, isLowSurrogate low = false) :
    ofUnits? (unit :: units) =
      (ofCodePoint? unit).bind fun c => (ofUnits? units).map fun cs => c :: cs := by
  cases units with
  | nil =>
    rw [ofUnits?, ofUnits?]
    cases ofCodePoint? unit <;> rfl
  | cons low units =>
    rw [ofUnits?, if_neg]
    · cases ofCodePoint? unit <;> cases ofUnits? (low :: units) <;> rfl
    · rw [Bool.and_eq_true]
      rintro ⟨hhigh, hlow⟩
      cases (h hhigh low rfl).symm.trans hlow

theorem ofUnits?_pair (hhigh : isHighSurrogate high = true) (hlow : isLowSurrogate low = true) :
    ofUnits? (high :: low :: units) =
      (ofCodePoint? (ofSurrogates high low)).bind fun c =>
        (ofUnits? units).map fun cs => c :: cs := by
  rw [ofUnits?, if_pos (by rw [hhigh, hlow]; rfl)]
  cases ofCodePoint? (ofSurrogates high low) <;> cases ofUnits? units <;> rfl

/-- The code units are read as the characters that they stand for. -/
theorem Encodes.ofUnits?_eq (h : Encodes units cs) : ofUnits? units = some cs := by
  induction h with
  | nil => rfl
  | single c _ ih =>
    rw [ofUnits?_single fun hhigh => absurd hhigh (by simp), ofCodePoint?_toNat, ih]
    rfl
  | pair hhigh hlow hc _ ih =>
    rw [ofUnits?_pair (isHighSurrogate_iff.2 hhigh) (isLowSurrogate_iff.2 hlow),
      ofSurrogates_eq hhigh hlow, ← hc, ofCodePoint?_toNat, ih]
    rfl

theorem encodes_of_ofUnits? (h : ofUnits? units = some cs) : Encodes units cs := by
  induction hlength : units.length using Nat.strongRecOn generalizing units cs with
  | ind length ih =>
    subst hlength
    -- Either way one character is read and the rest is shorter.
    have more {unit : Nat} {rest : List Nat}
        (h : ((ofCodePoint? unit).bind fun c => (ofUnits? rest).map fun cs => c :: cs) = some cs)
        (hlt : rest.length < units.length) :
        ∃ c cs', cs = c :: cs' ∧ c.toNat = unit ∧ Encodes rest cs' := by
      obtain ⟨c, hc, h⟩ := Option.bind_eq_some_iff.1 h
      obtain ⟨cs', hcs', rfl⟩ := Option.map_eq_some_iff.1 h
      exact ⟨c, cs', rfl, ofCodePoint?_eq_some_iff.1 hc, ih _ hlt hcs' rfl⟩
    by_cases hpair : ∃ high low rest, units = high :: low :: rest ∧
        isHighSurrogate high = true ∧ isLowSurrogate low = true
    · obtain ⟨high, low, rest, rfl, hhigh, hlow⟩ := hpair
      rw [ofUnits?_pair hhigh hlow] at h
      obtain ⟨c, cs', rfl, hc, hrest⟩ := more h (by simp only [List.length_cons]; omega)
      rw [isHighSurrogate_iff] at hhigh
      rw [isLowSurrogate_iff] at hlow
      exact .pair hhigh hlow (hc.trans (ofSurrogates_eq hhigh hlow)) hrest
    · cases units with
      | nil =>
        cases h
        exact .nil
      | cons unit rest =>
        rw [ofUnits?_single] at h
        · obtain ⟨c, cs', rfl, rfl, hrest⟩ := more h (by simp)
          exact .single c hrest
        · intro hhigh low hlow
          cases rest with
          | nil => cases hlow
          | cons other rest =>
            obtain rfl := Option.some.inj hlow
            exact Bool.eq_false_iff.2 fun hlow => hpair ⟨unit, other, rest, rfl, hhigh, hlow⟩

/-- Code units are read as the characters that they stand for, and as nothing if they stand for
none. -/
theorem ofUnits?_eq_some_iff : ofUnits? units = some cs ↔ Encodes units cs :=
  ⟨encodes_of_ofUnits?, Encodes.ofUnits?_eq⟩

/-- Code units stand for one text at most. -/
theorem Encodes.unique {cs' : List Char} (h : Encodes units cs) (h' : Encodes units cs') :
    cs = cs' :=
  Option.some.inj (h.ofUnits?_eq.symm.trans h'.ofUnits?_eq)

/-- Each text is encoded by its code points. -/
theorem encodes_map_toNat (cs : List Char) : Encodes (cs.map Char.toNat) cs :=
  encodes_of_ofUnits? (ofUnits?_map_toNat cs)

end Shorthand.Text
