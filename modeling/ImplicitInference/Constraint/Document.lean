import ImplicitInference.Constraint.Basic
import ImplicitInference.Value.Document

/-!
The documents of constraints and entries, and back.
-/

namespace ImplicitInference

namespace Relation

def word : Relation → String
  | equals => "equals"
  | evaluatesTo => "evaluatesTo"
  | evaluatedFrom => "evaluatedFrom"

def encode (r : Relation) : Json := .string r.word

def decode (j : Json) : Option Relation := do
  let word ← j.choice? .inPlace
  [equals, evaluatesTo, evaluatedFrom].find? fun r => r.word == word

end Relation

namespace Kind

def encode (k : Kind) : Json := .string k.name

def decode (access : Json.Access) (j : Json) : Option Kind := j.choice? access >>= ofName?

end Kind

namespace Provenance

def encode : Provenance → Json
  | shape kind => .tagged "shape" kind.encode
  | convergence => .bare "convergence"
  | deferral => .bare "deferral"
  | implicitSearch => .bare "implicitSearch"

def tags : List String := ["shape", "convergence", "deferral", "implicitSearch"]

def decodeBare : String → Option Provenance
  | "convergence" => some convergence
  | "deferral" => some deferral
  | "implicitSearch" => some implicitSearch
  | _ => none

/-- A provenance without content is read with no content or null. -/
def decode (j : Json) : Option Provenance := do
  let variant ← j.variant? .inPlace tags
  if variant.tag = "shape" then
    (variant.content >>= Kind.decode variant.access).map shape
  else
    match variant.content with
    | none | some .null => decodeBare variant.tag
    | _ => none

end Provenance

namespace Constraint

def encode (c : Constraint) : Json :=
  .object [("operator", c.relation.encode), ("from", .string c.var), ("to", c.value.encode),
    ("origin", .string c.origin), ("inferrer", c.provenance.encode)]

def decode (j : Json) : Option Constraint := do
  match ← j.record? ["operator", "from", "to", "origin", "inferrer"] with
  | [some relation, some var, some value, some origin, some provenance] =>
    return ⟨← Relation.decode relation, ← var.text?, ← Value.decode value, ← origin.text?,
      ← Provenance.decode provenance⟩
  | _ => none

end Constraint

namespace Entry

def encode (e : Entry) : Json :=
  .object [("operator", e.relation.encode), ("from", .string e.var), ("to", e.value.encode),
    ("sources", .array (e.sources.map Constraint.encode))]

def decode (j : Json) : Option Entry := do
  match ← j.record? ["operator", "from", "to", "sources"] with
  | [some relation, some var, some value, some sources] =>
    return ⟨← Relation.decode relation, ← var.text?, ← Value.decode value,
      ← sources.list? Constraint.decode⟩
  | _ => none

end Entry

end ImplicitInference
