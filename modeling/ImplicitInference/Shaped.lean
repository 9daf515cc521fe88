import ImplicitInference.Constraint.Basic
import ImplicitInference.Event
import ImplicitInference.Names

/-!
Shapes. Every node of a tree gets a name, its type variable, and a type in terms of the names of its
children; the constraints say what the node asks of its children and that its name has its type.
Children come before their parent, and a node's own constraint comes last.
-/

namespace ImplicitInference

structure Shaped where
  name : String
  type : Value

structure Draft (σ : Type) where
  names : σ
  constraints : List Constraint := []

namespace Draft

variable {σ : Type} [NameSource σ]

def fresh (stem : String) : StateM (Draft σ) String := fun draft =>
  let (name, names) := NameSource.fresh stem draft.names
  (name, { draft with names })

def freshVar (stem : String) : StateM (Draft σ) Value := Value.var <$> fresh stem

def constrain (c : Constraint) : StateM (Draft σ) Unit :=
  modify fun draft => { draft with constraints := draft.constraints ++ [c] }

end Draft

namespace Shaped

open Draft

variable {σ : Type} [NameSource σ]

/-- The type of a node from the names of its children, and what it asks of them through `ask`. -/
def typeOf (ask : Relation → String → Value → StateM (Draft σ) Unit) :
    Expr String → StateM (Draft σ) Value
  | .identifier name => return .var name
  | .form (.literal a) => return .literal a
  | .form (.record fields) => return .record (fields.map fun field => (field.1, .var field.2))
  | .form (.function plicity parameter body) =>
    return .function plicity (.var parameter) (.var body)
  | .form (.data name parameters) => return .data (.var name) (parameters.map Value.var)
  | .form (.application callee parameter) => do
    let result ← freshVar "applicationResult$"
    ask .evaluatesTo callee (.function .explicit (.var parameter) result)
    return result
  | .form (.dual left right) => do
    let result ← freshVar "dualResult$"
    ask .evaluatedFrom left result
    ask .evaluatedFrom right result
    return result
  | .form (.read record (.property property)) => do
    let result ← freshVar "recordPropertyResult$"
    ask .evaluatedFrom record (.record [(property, result)])
    return result
  | .form (.read data (.position index)) => do
    let result ← freshVar "dataPropertyResult$"
    let name ← freshVar "dataPropertyName$"
    let before ← (List.replicate index "dataPropertyParameter$").mapM freshVar
    ask .evaluatedFrom data (.data name (before ++ [result]))
    return result
  | .form (.choice subject arms) => do
    let test ← freshVar "patternTest$"
    let result ← freshVar "patternResult$"
    ask .evaluatedFrom subject test
    arms.forM fun arm => do
      ask .evaluatedFrom arm.1 test
      ask .evaluatedFrom arm.2 result
    return result
  | .binding name value body => do
    ask .equals value (.var name)
    return .var body
  | .native _ => freshVar "native$"

def attach (e : Expr (Node Shaped)) : StateM (Draft σ) (Node Shaped) := do
  let name ← fresh ("node" ++ e.kind.name ++ "Type$")
  let ask (relation : Relation) (var : String) (value : Value) :=
    constrain (σ := σ) ⟨relation, var, value, name, .shape e.kind⟩
  let type ← typeOf ask (e.map fun child => child.decoration.name)
  ask .equals name type
  return ⟨e, name, type⟩

end Shaped

structure Shaping (σ : Type) where
  node : Node Shaped
  constraints : List Constraint
  names : σ
  events : Array Event

def attachShapes {σ D : Type} [NameSource σ] (node : Node D) (names : σ) : Shaping σ :=
  let (node, draft) := (node.rebuildM fun e _ => Shaped.attach (σ := σ) e).run { names }
  { node
    constraints := draft.constraints
    names := draft.names
    events := #[.shapesAttached node.size draft.constraints.length] }

end ImplicitInference
