import ImplicitInference.Resolved
import ImplicitInference.Simplification

/-!
Checking a tree: shapes, reduction, simplification, types, scopes, resolution.
-/

namespace ImplicitInference

structure Checked where
  node : Node Resolved
  diagnostics : List Diagnostic
  constraints : List Constraint
  entries : Table Entry
  values : Table Value
  events : Array Event

namespace Checked

def rootType (c : Checked) : Value := c.node.decoration.type

def isOk (c : Checked) : Bool := c.diagnostics.isEmpty

end Checked

def check {σ D : Type} [NameSource σ] (options : Options) (names : σ) (node : Node D) :
    Except TypingError Checked := do
  let shaping := attachShapes node names
  let reduction := reduce options shaping.constraints
  let simplification := simplify reduction.entries
  let typed ← retype reduction.entries simplification.values shaping.node
  let resolution := resolveImplicits options (buildScopes typed)
  let diagnostics := reduction.diagnostics ++ resolution.diagnostics
  let last : Event :=
    .checked resolution.node.render resolution.node.decoration.type diagnostics.length
  return {
    node := resolution.node
    diagnostics
    constraints := shaping.constraints
    entries := reduction.entries
    values := simplification.values
    events := (shaping.events ++ reduction.events ++ simplification.events
      ++ resolution.events).push last }

end ImplicitInference
