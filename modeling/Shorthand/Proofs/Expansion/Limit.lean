import Shorthand.Proofs.Expansion.Copies

/-!
# The limit on clones

All repeaters of an expansion draw on one count of clones. Once the limit is reached, each repeater
stops after one more clone at most: a repeater that is at work finishes the clone that it is making,
and one that starts makes a single clone. So the limit is exceeded by less than the number of
repeaters.

## Main definitions

* `repeaters`, `repeatersAll`: the repeaters of a statement and of a list of statements;
* `Spends`: how the count of clones can have grown.

## Main results

* `spends_unroll`: how the count of clones grows when a statement is unrolled;
* `convert_within_limit`: how many clones are made, and how many nodes there are.
-/

namespace Shorthand

theorem Options.repeatLimit_pos (options : Options) : 0 < options.repeatLimit := by
  unfold repeatLimit
  rcases options.maxRepeat with _ | _ | limit
  · decide
  · decide
  · exact Nat.succ_pos limit

namespace Statement

mutual

/-- The repeaters of a statement in reading order. -/
def repeaters : Statement → List Repeater
  | .element head children => head.repeater.toList ++ repeatersAll children
  | .group repeater children => repeater.toList ++ repeatersAll children

/-- The repeaters of several statements in reading order. -/
def repeatersAll : List Statement → List Repeater
  | [] => []
  | statement :: statements => repeaters statement ++ repeatersAll statements

end

/-- How the count of clones can have grown where there are so many repeaters: not without a
repeater, by one clone for each of them if the limit had been reached, and otherwise at most to
where each of them makes one clone more than the limit allows, except the one that reaches it. -/
structure Spends (limit repeaterCount made after : Nat) : Prop where
  unrepeated : repeaterCount = 0 → after = made
  spent : limit ≤ made → after = made + repeaterCount
  unspent : made < limit → after < limit + repeaterCount

variable {limit repeaterCount made after last : Nat}

theorem Spends.refl (limit made : Nat) : Spends limit 0 made made :=
  ⟨fun _ => rfl, fun _ => rfl, fun h => h⟩

/-- What is spent in sequence adds up. -/
theorem Spends.trans {laterCount : Nat} (h : Spends limit repeaterCount made after)
    (hlater : Spends limit laterCount after last) :
    Spends limit (repeaterCount + laterCount) made last := by
  refine ⟨fun hnone => ?_, fun hspent => ?_, fun hunspent => ?_⟩
  · rw [hlater.unrepeated (by omega), h.unrepeated (by omega)]
  · have hafter := h.spent hspent
    have hlast := hlater.spent (by omega)
    omega
  · have hafter := h.unspent hunspent
    -- The limit may be reached in the first part already.
    by_cases hreached : limit ≤ after
    · have hlast := hlater.spent hreached
      omega
    · have hlast := hlater.unspent (by omega)
      omega

/-- Making the clones of a repeater, each with as many repeaters in it. -/
theorem spends_clones {body : Nat → Nat → Unrolled}
    (hbody : ∀ index made, Spends limit repeaterCount made (body index made).2) :
    ∀ (remaining index made : Nat), 0 < remaining →
      Spends limit (repeaterCount + 1) made (clones limit body index made remaining).2
  | 0, _, _, hpos => absurd hpos (Nat.lt_irrefl 0)
  | remaining + 1, index, made, _ => by
    have hfirst := hbody index made
    rw [clones]
    generalize body index made = first at hfirst
    obtain ⟨nodes, after⟩ := first
    dsimp only at hfirst ⊢
    split
    next hreached =>
      refine ⟨fun h => absurd h (Nat.succ_ne_zero _), fun hspent => ?_, fun hunspent => ?_⟩
      · have hafter := hfirst.spent hspent
        dsimp only
        omega
      · have hafter := hfirst.unspent hunspent
        dsimp only
        omega
    next hunreached =>
      -- The limit is not reached yet, so the other clones are made from below it.
      refine ⟨fun h => absurd h (Nat.succ_ne_zero _), fun hspent => ?_, fun hunspent => ?_⟩
      · have hafter := hfirst.spent hspent
        omega
      · cases remaining with
        | zero =>
          rw [clones]
          dsimp only
          omega
        | succ remaining =>
          have hrest := spends_clones hbody (remaining + 1) (index + 1) (after + 1)
            (Nat.succ_pos remaining)
          exact hrest.unspent (by omega)

/-- Unrolling a statement, given how each repetition of it spends. -/
theorem spends_repeated {options : Options} {repeater : Option Repeater}
    {body : Scope → Option Repeater → Nat → Unrolled}
    (hbody : ∀ inner clone made,
      Spends options.repeatLimit repeaterCount made (body ⟨options, inner⟩ clone made).2)
    (loops : List Repeater) (claimed : Bool) (made : Nat) :
    Spends options.repeatLimit (repeater.toList.length + repeaterCount) made
      (repeated ⟨options, loops⟩ repeater claimed body made).2 := by
  cases repeater with
  | none =>
    rw [Option.toList_none, List.length_nil, Nat.zero_add]
    exact hbody loops none made
  | some written =>
    rw [Option.toList_some, List.length_singleton, Nat.add_comm, repeated_some]
    refine spends_clones (fun index made => ?_) _ 0 made (options.countOf_pos _)
    have hclone := hbody (options.cloneAt written index :: loops)
      (some (options.cloneAt written index)) made
    unfold makeClone
    split
    next => exact hclone
    next => exact hclone

mutual

/-- Unrolling a statement spends on its repeaters. -/
theorem spends_unroll (options : Options) : ∀ (statement : Statement) (loops : List Repeater)
    (made : Nat), Spends options.repeatLimit (repeaters statement).length made
      (unroll ⟨options, loops⟩ made statement).2
  | .element head children, loops, made => by
    rw [unroll, repeaters, List.length_append]
    exact spends_repeated (fun inner _ made => spends_unrollAll options children inner made)
      loops _ made
  | .group repeater children, loops, made => by
    rw [unroll, repeaters, List.length_append]
    exact spends_repeated (fun inner _ made => spends_unrollAll options children inner made)
      loops _ made

/-- Unrolling statements spends on their repeaters. -/
theorem spends_unrollAll (options : Options) : ∀ (statements : List Statement)
    (loops : List Repeater) (made : Nat), Spends options.repeatLimit
      (repeatersAll statements).length made (unrollAll ⟨options, loops⟩ made statements).2
  | [], loops, made => by
    rw [unrollAll, repeatersAll]
    exact Spends.refl _ made
  | statement :: statements, loops, made => by
    rw [unrollAll, repeatersAll, List.length_append]
    exact (spends_unroll options statement loops made).trans
      (spends_unrollAll options statements loops _)

end

/-- The limit bounds the work. Without repeaters no clone is made, and otherwise fewer clones than
the limit and the number of repeaters add up to. There are at most as many nodes of each element as
these add up to, and at least one of each: the nodes are copies of the elements, and among them, in
reading order, is one for each element of the tree. -/
theorem convert_within_limit (options : Options) (statements : List Statement) :
    clonesMade options statements ≤ (if repeatersAll statements = [] then 0
      else options.repeatLimit + (repeatersAll statements).length - 1) ∧
    (Node.listingAll (convert options statements)).length ≤ (elementsAll statements).length *
      (options.repeatLimit + (repeatersAll statements).length) ∧
    ∃ found, List.Forall₂ (Copy.Renders options) found
        (Node.listingAll (convert options statements)) ∧
      found.Sublist (copiesAll options [] statements) ∧
      (elementsAll statements).Sublist (found.map Copy.head) := by
  have hspends := spends_unrollAll options statements [] 0
  rw [← clonesMade_eq] at hspends
  have hmade : clonesMade options statements <
      options.repeatLimit + (repeatersAll statements).length :=
    hspends.unspent options.repeatLimit_pos
  obtain ⟨found, h⟩ := exists_accounts_convert options statements
  refine ⟨?_, ?_, found, h.renders, h.sublist, h.covers⟩
  · split
    next hnone => exact Nat.le_of_eq (hspends.unrepeated (List.length_eq_zero_iff.2 hnone))
    next => omega
  · rw [← h.renders.length_eq]
    exact h.few.trans (Nat.mul_le_mul_left _ hmade)

end Statement

end Shorthand
