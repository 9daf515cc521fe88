import ImplicitInference.Checked
import ImplicitInference.Constraint.Document
import ImplicitInference.Diagnostic.Document
import ImplicitInference.Node.Document

/-!
The documents of decorated trees. A scope is written as the types of its bindings, in order.
-/

namespace ImplicitInference

namespace Shaped

def encode (s : Shaped) : Json := .object [("shapeName", .string s.name), ("type", s.type.encode)]

def decode (access : Json.Access) (j : Json) : Option Shaped := do
  match ← j.record? ["shapeName", "type"] with
  | [some name, some type] => return ⟨← name.text?, ← Value.decodeFrom access type⟩
  | _ => none

end Shaped

namespace Typed

def encode (t : Typed) : Json := .object [("shape", t.shape.encode), ("type", t.type.encode)]

def decode (access : Json.Access) (j : Json) : Option Typed := do
  match ← j.record? ["shape", "type"] with
  | [some shape, some type] =>
    return ⟨← Value.decodeFrom access shape, ← Value.decodeFrom access type⟩
  | _ => none

end Typed

namespace Scope

def encode (scope : Scope) : Json :=
  .object (scope.toList.map fun binding => (binding.1, binding.2.type.encode))

end Scope

namespace Resolved

def encodeCandidate (candidate : Candidate) : Json :=
  .array [.string candidate.1, candidate.2.encode]

def encode (r : Resolved) : Json :=
  .object [("type", r.type.encode), ("scope", r.scope.encode),
    ("resolvedImplicits", .array (r.supplied.map encodeCandidate))]

end Resolved

def Diagnostic.describe (d : Diagnostic) : Json :=
  .object [("message", .string d.message), ("diagnostic", d.encode)]

end ImplicitInference
