import ImplicitInference.Constraint.Basic
import ImplicitInference.Diagnostic.Basic

/-!
Unification of two values. It never fails: where the values do not go together it reports why and
keeps the left one. A variable that meets a value is assumed to be that value; nothing is
substituted, the assumptions are handed back. The two sides of a dual are unified first, and what
they come to takes the place of the dual; it is smaller than the dual, so the sum of the sizes of
both values bounds the depth of the recursion.
-/

namespace ImplicitInference

def Form.sides? {α : Type} : Form α → Option (α × α)
  | dual left right => some (left, right)
  | _ => none

structure Unified where
  value : Value
  assumptions : List (String × Value) := []
  diagnostics : List Diagnostic := []

namespace Unified

def keep (value : Value) : Unified := { value }

def assume (name : String) (value : Value) : Unified :=
  { value, assumptions := [(name, value)] }

/-- The result of a second step, with what the first step found put before. -/
def andThen (first second : Unified) : Unified where
  value := second.value
  assumptions := first.assumptions ++ second.assumptions
  diagnostics := first.diagnostics ++ second.diagnostics

def ofForm (parts : Form Unified) (clash : Option Diagnostic) : Unified where
  value := .term (parts.map value)
  assumptions := parts.children.flatMap assumptions
  diagnostics := parts.children.flatMap diagnostics ++ clash.toList

end Unified

namespace Value

def unifyWithin : Nat → Value → Value → Unified
  | 0, left, _ => .keep left
  | depth + 1, left, right =>
    if left.equal right then .keep left
    else match left, right with
      | .var name, other => .assume name other
      | .term f, .var name => .assume name (.term f)
      | .term f, .term g =>
        match f.sides?, g.sides? with
        | some (a, b), _ =>
          let collapsed := unifyWithin depth a b
          collapsed.andThen (unifyWithin depth collapsed.value (.term g))
        | none, some (a, b) =>
          let collapsed := unifyWithin depth a b
          collapsed.andThen (unifyWithin depth (.term f) collapsed.value)
        | none, none =>
          let (pairs, clash) := f.join g
          .ofForm
            (pairs.map fun pair =>
              match pair with
              | (a, some b) => unifyWithin depth a b
              | (a, none) => .keep a)
            (clash.map (Diagnostic.ofClash (.term f) (.term g)))

def unify (left right : Value) : Unified := unifyWithin (left.size + right.size) left right

end Value

/-- What has been learned on behalf of one node. -/
structure Convergence where
  origin : String
  facts : List Constraint := []
  diagnostics : List Diagnostic := []

namespace Convergence

def assumption (c : Convergence) (assumed : String × Value) : Constraint :=
  ⟨.equals, assumed.1, assumed.2, c.origin, .convergence⟩

def assume (c : Convergence) (name : String) (value : Value) : Convergence :=
  { c with facts := c.facts ++ [c.assumption (name, value)] }

def defer (c : Convergence) (name : String) (value : Value) : Convergence :=
  { c with facts := c.facts ++ [⟨.evaluatesTo, name, value, c.origin, .deferral⟩] }

def report (c : Convergence) (diagnostic : Diagnostic) : Convergence :=
  { c with diagnostics := c.diagnostics ++ [diagnostic] }

def isOk (c : Convergence) : Bool := c.diagnostics.isEmpty

/-- Unifies two values and notes what was assumed and reported. -/
def converge (c : Convergence) (left right : Value) : Value × Convergence :=
  let unified := left.unify right
  (unified.value,
    { c with
      facts := c.facts ++ unified.assumptions.map c.assumption
      diagnostics := c.diagnostics ++ unified.diagnostics })

end Convergence

end ImplicitInference
