import Shorthand.Proofs.Expansion.Unrepeated

/-!
# Groups without repeaters

Brackets around statements serve to repeat these together, and to say where operators end. Once the
tree has been read, brackets that repeat nothing have done their work: the statements between them
might as well stand where the group stands. This is so at every depth, under repeaters too. A group
that is no clone marks none of its nodes, it makes no clone that would count against the limit, and
neither the claim on the supplied text nor the last leaf changes when the brackets go.

## Main definitions

* `ungroup`, `ungroupAll`: statements in which the groups without repeaters have been replaced by
  their statements;
* `hasBareGroup`, `anyBareGroup`: whether there is a group without a repeater.

## Main results

* `unrollAll_append`: the clones of the first statements count for those behind them;
* `anyClaimsText_ungroupAll`: without these groups, the same trees claim the supplied text;
* `unrollAll_ungroupAll`: in every scope, they are unrolled to the same nodes;
* `convert_ungroupAll`: no such group is left, and the tree is converted to the same nodes.
-/

namespace Shorthand.Statement

/-! ## Trees without bare groups -/

mutual

/-- The statement, or the statements in place of a group without a repeater. -/
def ungroup : Statement → List Statement
  | .element head children => [.element head (ungroupAll children)]
  | .group none children => ungroupAll children
  | .group (some repeater) children => [.group (some repeater) (ungroupAll children)]

/-- The statements, with every group that has no repeater replaced by its own statements. -/
def ungroupAll : List Statement → List Statement
  | [] => []
  | statement :: statements => ungroup statement ++ ungroupAll statements

end

mutual

/-- Whether the statement is a group without a repeater, or there is one below it. -/
def hasBareGroup : Statement → Bool
  | .element _ children => anyBareGroup children
  | .group repeater children => repeater.isNone || anyBareGroup children

/-- Whether there is a group without a repeater in a tree. -/
def anyBareGroup : List Statement → Bool
  | [] => false
  | statement :: statements => hasBareGroup statement || anyBareGroup statements

end

theorem anyBareGroup_append (statements more : List Statement) :
    anyBareGroup (statements ++ more) = (anyBareGroup statements || anyBareGroup more) := by
  induction statements with
  | nil => simp [anyBareGroup]
  | cons statement statements ih => simp [anyBareGroup, ih, Bool.or_assoc]

mutual

theorem anyBareGroup_ungroup : ∀ statement : Statement, anyBareGroup (ungroup statement) = false
  | .element head children => by
    simp [ungroup, anyBareGroup, hasBareGroup, anyBareGroup_ungroupAll children]
  | .group none children => by
    rw [ungroup, anyBareGroup_ungroupAll children]
  | .group (some repeater) children => by
    simp [ungroup, anyBareGroup, hasBareGroup, anyBareGroup_ungroupAll children]

/-- No group without a repeater is left. -/
theorem anyBareGroup_ungroupAll : ∀ statements : List Statement,
    anyBareGroup (ungroupAll statements) = false
  | [] => by rw [ungroupAll, anyBareGroup]
  | statement :: statements => by
    rw [ungroupAll, anyBareGroup_append, anyBareGroup_ungroup statement,
      anyBareGroup_ungroupAll statements, Bool.or_false]

end

/-! ## Claims on the supplied text -/

theorem anyClaimsText_append (statements more : List Statement) :
    anyClaimsText (statements ++ more) = (anyClaimsText statements || anyClaimsText more) := by
  induction statements with
  | nil => simp [anyClaimsText]
  | cons statement statements ih => simp [anyClaimsText, ih, Bool.or_assoc]

mutual

/-- A group without a repeater claims the text if one of its statements does. -/
theorem anyClaimsText_ungroup : ∀ statement : Statement,
    anyClaimsText (ungroup statement) = (statement.isImplicit || bodyClaimsText statement)
  | .element head children => by
    simp [ungroup, anyClaimsText, bodyClaimsText, isImplicit, repeater,
      anyClaimsText_ungroupAll children]
  | .group none children => by
    simp [ungroup, bodyClaimsText, isImplicit, repeater, anyClaimsText_ungroupAll children]
  | .group (some written) children => by
    simp [ungroup, anyClaimsText, bodyClaimsText, isImplicit, repeater,
      anyClaimsText_ungroupAll children]

/-- Without the groups that have no repeater, a tree claims the text if it did with them. -/
theorem anyClaimsText_ungroupAll : ∀ statements : List Statement,
    anyClaimsText (ungroupAll statements) = anyClaimsText statements
  | [] => by rw [ungroupAll]
  | statement :: statements => by
    rw [ungroupAll, anyClaimsText_append, anyClaimsText_ungroup statement,
      anyClaimsText_ungroupAll statements, anyClaimsText]

end

/-! ## Unrolling -/

theorem unrollAll_singleton (scope : Scope) (made : Nat) (statement : Statement) :
    unrollAll scope made [statement] = unroll scope made statement := by
  simp only [unrollAll, List.append_nil]

/-- Statements are unrolled behind others with the clones of those already made. -/
theorem unrollAll_append (scope : Scope) (made : Nat) (statements more : List Statement) :
    unrollAll scope made (statements ++ more) =
      ((unrollAll scope made statements).1 ++
          (unrollAll scope (unrollAll scope made statements).2 more).1,
        (unrollAll scope (unrollAll scope made statements).2 more).2) := by
  induction statements generalizing made with
  | nil => simp only [List.nil_append, unrollAll]
  | cons statement statements ih =>
    simp only [List.cons_append, unrollAll, ih, List.append_assoc]

mutual

/-- What stands in place of a statement is unrolled to the nodes of the statement. Only for a group
without a repeater is it another statement, and such a group adds nothing to its statements. -/
theorem unrollAll_ungroup : ∀ (statement : Statement) (scope : Scope) (made : Nat),
    unrollAll scope made (ungroup statement) = unroll scope made statement
  | .element head children, scope, made => by
    rw [ungroup, unrollAll_singleton]
    simp only [unroll, anyClaimsText_ungroupAll children, unrollAll_ungroupAll children]
  | .group none children, scope, made => by
    rw [ungroup, unroll_group_none, unrollAll_ungroupAll children]
  | .group (some repeater) children, scope, made => by
    rw [ungroup, unrollAll_singleton]
    simp only [unroll, anyClaimsText_ungroupAll children, unrollAll_ungroupAll children]

/-- In every scope, and however many clones have been made, the statements are unrolled to the same
nodes, and make the same number of clones. -/
theorem unrollAll_ungroupAll : ∀ (statements : List Statement) (scope : Scope) (made : Nat),
    unrollAll scope made (ungroupAll statements) = unrollAll scope made statements
  | [], scope, made => by rw [ungroupAll]
  | statement :: statements, scope, made => by
    rw [ungroupAll, unrollAll_append, unrollAll_ungroup statement scope made,
      unrollAll_ungroupAll statements, unrollAll]

end

/-- If every group without a repeater, at every depth, is replaced by its own statements, no such
group is left, and under all options the tree is converted to the nodes that it was converted to
before. -/
theorem convert_ungroupAll (options : Options) (statements : List Statement) :
    anyBareGroup (ungroupAll statements) = false ∧
      convert options (ungroupAll statements) = convert options statements := by
  refine ⟨anyBareGroup_ungroupAll statements, ?_⟩
  rw [convert_eq_insertWhole, convert_eq_insertWhole, unrollAll_ungroupAll,
    anyClaimsText_ungroupAll]

end Shorthand.Statement
