import ImplicitInference.Scope
import ImplicitInference.Reduction

/-!
Resolution of implicit parameters. A node whose type has more leading implicit parameters than its
shape needs the first of them supplied. Each needed parameter has candidates among the bindings in
scope; a combination of candidates is valid if all of them fit their parameters at once. A node
with exactly one valid combination is applied to it, any other number is reported.
-/

namespace ImplicitInference

structure Resolved where
  type : Value
  scope : Scope
  /-- What was supplied for the node's implicit parameters, the first parameter first. -/
  supplied : List (String × Value) := []

abbrev Candidate := String × Value

/-- The name of the built-in instance that meets a requirement: `Integer` for an integral number,
`Float` for a number, `String` for a string. -/
def Value.builtinInstance? : Value → Option String
  | .data (.symbol name) [.number x] =>
    if name = "Float" ∨ (name = "Integer" ∧ x.isIntegral) then some name else none
  | .data (.symbol name) [.string _] => if name = "String" then some name else none
  | _ => none

namespace Candidate

/-- Whether a binding of type `type` can be supplied for a requirement. The requirement may be
narrowed to the type, but the type must not be narrowed. -/
def satisfies (type requirement : Value) : Bool :=
  type.asVar?.isNone &&
    let unified := type.unify requirement
    unified.diagnostics.isEmpty &&
      unified.assumptions.all fun assumption => !type.freeVariables.contains assumption.1

def forRequirement (options : Options) (scope : Scope) (requirement : Value) : List Candidate :=
  match if options.builtinInstances then requirement.builtinInstance? else none with
  | some name => [(name, requirement)]
  | none =>
    (scope.toList.filter fun binding => satisfies binding.2.type requirement).map
      fun binding => (binding.1, binding.2.type)

def combinations {α : Type} : List (List α) → List (List α)
  | [] => [[]]
  | choices :: rest => choices.flatMap fun choice => (combinations rest).map (choice :: ·)

/-- The facts that a combination amounts to: each placeholder is its candidate, and is its
requirement without implicit parameters. -/
def facts (requirements : List Value) (combination : List Candidate) : List Constraint :=
  ((requirements.zip combination).zipIdx).flatMap fun row =>
    let placeholder := "implicit$" ++ toString row.2
    let (requirement, name, value) := row.1
    [⟨.equals, placeholder, value, name, .implicitSearch⟩,
      ⟨.evaluatedFrom, placeholder, requirement, name, .implicitSearch⟩]

def trials (options : Options) (scope : Scope) (requirements : List Value) :
    List (List Candidate × Reduction) :=
  (combinations (requirements.map (forRequirement options scope))).map fun combination =>
    (combination, reduce options (facts requirements combination))

def valid (trials : List (List Candidate × Reduction)) : List (List Candidate) :=
  (trials.filter fun trial => trial.2.diagnostics.isEmpty).map Prod.fst

end Candidate

namespace Scoped

def excess (here : Scoped) : Nat := here.type.implicitCount - here.shape.implicitCount

def requirements (here : Scoped) : List Value :=
  here.type.implicitParameters.take here.excess

end Scoped

namespace Resolved

def supply (node : Node Resolved) (candidate : Candidate) : Node Resolved :=
  let scope := node.decoration.scope
  let type := node.decoration.type.stripLayer?.getD node.decoration.type
  let argument : Node Resolved := ⟨.identifier candidate.1, { type := candidate.2, scope }⟩
  ⟨.form (.application node argument), { type, scope }⟩

/-- Applies a node to a combination, the last candidate innermost, and notes the combination. -/
def supplyAll (node : Node Resolved) (combination : List Candidate) : Node Resolved :=
  let result := combination.foldr (fun candidate node => supply node candidate) node
  { result with decoration := { result.decoration with supplied := combination } }

structure Findings where
  diagnostics : List Diagnostic := []
  events : Array Event := #[]

def attach (options : Options) (e : Expr (Node Resolved)) (here : Scoped) :
    StateM Findings (Node Resolved) := fun findings =>
  let node : Node Resolved := ⟨e, { type := here.type, scope := here.scope }⟩
  let requirements := here.requirements
  if requirements.isEmpty then (node, findings)
  else
    let trials := Candidate.trials options here.scope requirements
    let valid := Candidate.valid trials
    let events := trials.foldl (fun events trial => events ++ trial.2.events) findings.events
    let events := events.push (.combinationsFound valid.length here.type node.render)
    match valid with
    | [] =>
      (node, { diagnostics := findings.diagnostics ++ [.unresolvedImplicits requirements], events })
    | [combination] => (supplyAll node combination, { findings with events })
    | _ =>
      (node,
        { diagnostics :=
            findings.diagnostics ++ [.ambiguousImplicits valid.length requirements.length]
          events })

end Resolved

structure Resolution where
  node : Node Resolved
  diagnostics : List Diagnostic
  events : Array Event

def resolveImplicits (options : Options) (node : Node Scoped) : Resolution :=
  let (node, findings) := (node.rebuildM (Resolved.attach options)).run {}
  { node
    diagnostics := findings.diagnostics
    events := findings.events.push (.implicitsResolved findings.diagnostics.length) }

end ImplicitInference
