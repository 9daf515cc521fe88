import ImplicitInference.Value.Implicits
import ImplicitInference.Node.Basic

/-!
Constraints. A constraint relates a variable to a value, and remembers which node it came from and
what produced it. An entry is what several constraints on one variable come to, with the
constraints themselves.
-/

namespace ImplicitInference

inductive Relation where
  /-- The variable is the value. -/
  | equals
  /-- The variable without its leading implicit parameters is the value. -/
  | evaluatesTo
  /-- The variable is the value without its leading implicit parameters. -/
  | evaluatedFrom
  deriving DecidableEq, Repr

def Relation.render : Relation → String
  | equals => "="
  | evaluatesTo => "~>"
  | evaluatedFrom => "<~"

/-- What produced a constraint: a node of some kind, the meeting of two values, a variable that
passed a requirement on, or the trial of an implicit argument. -/
inductive Provenance where
  | shape (kind : Kind)
  | convergence
  | deferral
  | implicitSearch
  deriving DecidableEq, Repr

structure Constraint where
  relation : Relation
  var : String
  value : Value
  origin : String
  provenance : Provenance

namespace Constraint

def render (c : Constraint) : String := c.var ++ " " ++ c.relation.render ++ " " ++ c.value.render

/-- A constraint that relates a variable to itself says nothing. -/
def isTrivial (c : Constraint) : Bool := c.value.asVar? == some c.var

def sameFact (c d : Constraint) : Bool :=
  c.relation == d.relation && c.var == d.var && c.value.equal d.value

def equal (c d : Constraint) : Bool :=
  c.sameFact d && c.origin == d.origin && c.provenance == d.provenance

/-- Whether a node asks for the variable after its implicit parameters are supplied. -/
def isConsumption (c : Constraint) : Bool :=
  c.relation != .equals && match c.provenance with
    | .shape _ => true
    | _ => false

end Constraint

structure Entry where
  relation : Relation
  var : String
  value : Value
  sources : List Constraint

namespace Entry

def ofConstraint (c : Constraint) : Entry := ⟨c.relation, c.var, c.value, [c]⟩

def render (e : Entry) : String := e.var ++ " " ++ e.relation.render ++ " " ++ e.value.render

def isConsumed (e : Entry) : Bool := e.sources.any Constraint.isConsumption

end Entry

end ImplicitInference
