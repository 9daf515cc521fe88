import ImplicitInference.Value.Basic

/-!
Leading implicit parameters. A value is uniquely a list of implicit parameters, outermost first,
around a body that is not an implicit function.
-/

namespace ImplicitInference.Value

def ofParameters (body : Value) (parameters : List (Value × Plicity)) : Value :=
  parameters.foldr (fun parameter body => function parameter.2 parameter.1 body) body

/-- Wraps a body in implicit parameters, the first outermost. -/
def wrapImplicits (parameters : List Value) (body : Value) : Value :=
  body.ofParameters (parameters.map fun parameter => (parameter, .implicit))

/-- The leading implicit parameters, outermost first. -/
def implicitParameters : Value → List Value
  | function .implicit parameter body => parameter :: body.implicitParameters
  | _ => []
termination_by structural v => v

def stripImplicits : Value → Value
  | function .implicit _ body => body.stripImplicits
  | v => v
termination_by structural v => v

def stripLayer? : Value → Option Value
  | function .implicit _ body => some body
  | _ => none

def implicitCount (v : Value) : Nat := v.implicitParameters.length

end ImplicitInference.Value
