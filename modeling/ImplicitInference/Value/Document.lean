import ImplicitInference.Value.Basic
import ImplicitInference.Form.Document

/-!
The document of a value, and back. Reading recurses on a bound for the height of the document.
-/

namespace ImplicitInference.Value

def words : Vocabulary where
  number := "numberLiteral"
  boolean := "booleanLiteral"
  string := "stringLiteral"
  symbol := "symbolLiteral"
  record := "recordLiteral"
  function := .tags "functionLiteral" "implicitFunctionLiteral"
  application := "applicationValue"
  data := "dataValue"
  dataName := "name"
  dual := "dualBinding"
  property := "readRecordProperty"
  position := "readDataValueProperty"
  choice := "patternMatchValue"

def encode : Value → Json :=
  fold (fun name => .tagged "freeVariable" (.string name)) (Form.encode words)

def tags : List String :=
  ["freeVariable", "numberLiteral", "booleanLiteral", "stringLiteral", "symbolLiteral",
    "recordLiteral", "dataValue", "dualBinding", "functionLiteral", "implicitFunctionLiteral",
    "applicationValue", "readDataValueProperty", "readRecordProperty", "patternMatchValue"]

def decodeWithin : Nat → Json.Access → Json → Option Value
  | 0, _, _ => none
  | height + 1, access, j => do
    let variant ← j.variant? access tags
    let content ← variant.content
    if variant.tag = "freeVariable" then content.text?.map var
    else
      (Form.decode words (decodeWithin height variant.access) variant.tag content).map term

def decodeFrom (access : Json.Access) (j : Json) : Option Value := decodeWithin j.height access j

def decode : Json → Option Value := decodeFrom .inPlace

end ImplicitInference.Value
