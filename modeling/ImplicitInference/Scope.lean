import ImplicitInference.Typed

/-!
Scopes. A scope is the table of bindings that are visible at a node, the latest last. A binding
keeps the scope that it was introduced in and, if it was introduced with a value, the node of the
value. Bindings come from a `let` for its body, from the parameter of a function for its body, and
from the test of an arm for the result of that arm.
-/

namespace ImplicitInference

structure Binding where
  type : Value
  scope : Table Binding
  node : Option (Node Typed)

abbrev Scope := Table Binding

namespace Scope

/-- The scope with further bindings. A name that is bound again moves to the end. -/
def extend (scope : Scope) (bindings : List (String × Binding)) : Scope :=
  bindings.foldl (fun scope binding => Table.append scope binding.1 binding.2) scope

def ofTypes (types : List (String × Value)) : Scope :=
  Table.ofList (types.map fun row => (row.1, ⟨row.2, Table.empty, none⟩))

def ofPattern (scope : Scope) (pattern : Node Typed) : List (String × Binding) :=
  pattern.boundIdentifiers.map fun bound => (bound.1, ⟨bound.2.type, scope, none⟩)

end Scope

structure Scoped where
  shape : Value
  type : Value
  scope : Scope

namespace Scoped

/-- Gives each child the scope that holds there. -/
def enter {β : Type} (scope : Scope) : Expr (Node Typed × (Scope → β)) → Expr β
  | .binding name value body =>
    let binding : Binding := ⟨value.1.decoration.type, scope, some value.1⟩
    .binding name (value.2 scope) (body.2 (scope.extend [(name, binding)]))
  | .form (.function plicity parameter body) =>
    .form (.function plicity (parameter.2 scope)
      (body.2 (scope.extend (scope.ofPattern parameter.1))))
  | .form (.choice subject arms) =>
    .form (.choice (subject.2 scope) (arms.map fun arm =>
      (arm.1.2 scope, arm.2.2 (scope.extend (scope.ofPattern arm.1.1)))))
  | e => e.map fun child => child.2 scope

def within : Node Typed → Scope → Node Scoped :=
  Node.para fun e typed scope => ⟨enter scope e, typed.shape, typed.type, scope⟩

end Scoped

def buildScopes (node : Node Typed) : Node Scoped := Scoped.within node Table.empty

end ImplicitInference
