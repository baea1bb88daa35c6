import Shorthand.Expansion.Rendering

/-!
# Unrolled repeaters

Writes every repetition out. All repeaters of an expansion draw on one count of clones: once the
limit is reached, each repeater that is still at work stops after the clone that it is making, and
each one that starts makes a single clone. Along with the nodes it is noted whether supplied text
has found its place in them.
-/

namespace Shorthand

/-- What statements have been converted to. -/
structure Converted where
  nodes : List Node
  /-- How many clones have been made so far. -/
  made : Nat
  /-- Whether supplied text has found its place in the nodes, in that of a placeholder or by an
  implicit repeater. -/
  noted : Bool

/-- What is converted further on comes behind. Its clones are counted on from here. -/
def Converted.append (converted more : Converted) : Converted :=
  { nodes := converted.nodes ++ more.nodes
    made := more.made
    noted := converted.noted || more.noted }

/-- How many clones a repeater asks for. -/
def Options.cloneCount (options : Options) (repeater : Repeater) : Nat :=
  if repeater.implicit then (options.text.bind SuppliedText.repeatCount?).getD 1
  else max 1 repeater.count

namespace Statement

/-- The clones from `index` on, at most as many as given last. `body` makes one clone, from its
index and the number of clones made before. -/
def clonesNoting (limit : Nat) (body : Nat → Nat → Converted) (index made : Nat) : Nat → Converted
  | 0 => { nodes := [], made, noted := false }
  | remaining + 1 =>
    let clone := body index made
    -- A clone counts once its own repeaters are unrolled, so the limit is met from the inside out.
    let counted := { clone with made := clone.made + 1 }
    if limit ≤ counted.made then counted
    else counted.append (clonesNoting limit body (index + 1) counted.made remaining)

/-- The clones of a statement, or the statement once if it has no repeater. A clone of an implicit
repeater in which the supplied text has found no place gets its line at its last leaf. -/
def repeatedNoting (scope : Scope) (repeater : Option Repeater)
    (body : Scope → Option Repeater → Nat → Converted) (made : Nat) : Converted :=
  match repeater with
  | none => body scope none made
  | some written =>
    let count := scope.options.cloneCount written
    let makeClone (index made : Nat) : Converted :=
      let clone : Repeater := { count, index, implicit := written.implicit }
      let converted := body (scope.enter clone) (some clone) made
      if clone.implicit && !converted.noted then
        let line := scope.options.textAt (some index)
        { converted with nodes := Node.modifyLastLeaf (Node.appendText line) converted.nodes }
      else converted
    let clones := clonesNoting scope.options.repeatLimit makeClone 0 made count
    { clones with noted := clones.noted || written.implicit }

/-- Marks the nodes of a group as a clone of the group, where they are not clones themselves. -/
def markClone (clone : Option Repeater) (nodes : List Node) : List Node :=
  nodes.map fun node => { node with repeater := node.repeater.or clone }

mutual

/-- The nodes of a statement, when `made` clones have been made. -/
def unrollNoting (scope : Scope) (made : Nat) : Statement → Converted
  | .element head children =>
    repeatedNoting scope head.repeater
      (fun scope clone made =>
        let below := unrollAllNoting scope made children
        let (nodes, noted) := scope.nodesNoting head clone below.nodes below.noted
        { nodes, made := below.made, noted })
      made
  | .group repeater children =>
    repeatedNoting scope repeater
      (fun scope clone made =>
        let inside := unrollAllNoting scope made children
        { inside with nodes := markClone clone inside.nodes })
      made

/-- The nodes of several statements, one after the other. -/
def unrollAllNoting (scope : Scope) (made : Nat) : List Statement → Converted
  | [] => { nodes := [], made, noted := false }
  | statement :: statements =>
    let first := unrollNoting scope made statement
    first.append (unrollAllNoting scope first.made statements)

end

end Statement

end Shorthand
