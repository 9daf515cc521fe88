import ImplicitInference.Node.Basic
import ImplicitInference.Form.Document

/-!
The document of a tree, and back, given documents for its decorations. The decoration may be left
out of a document; what that means is for the reader of the decoration to say.
-/

namespace ImplicitInference.Node

variable {D : Type}

def words : Vocabulary where
  number := "number"
  boolean := "boolean"
  string := "string"
  symbol := "symbol"
  record := "record"
  function := .flag "function" "implicit"
  application := "application"
  data := "dataInstantiation"
  dataName := "callee"
  dual := "dual"
  property := "readRecordProperty"
  position := "readDataProperty"
  choice := "patternMatch"

def encodeExpr : Expr Json → Json
  | .identifier name => .tagged "identifier" (.string name)
  | .form layer => layer.encode words
  | .binding name value body =>
    .tagged "binding" (.object [("name", .string name), ("value", value), ("body", body)])
  | .native implementations =>
    .tagged "native" (.object [("implementations",
      .object (implementations.map fun code => (code.1, .string code.2)))])

def encode (decoration : D → Json) : Node D → Json :=
  fold fun e d => .object [("expression", encodeExpr e), ("decoration", decoration d)]

def decodeBinding {α : Type} (child : Json → Option α) (content : Json) : Option (Expr α) := do
  match ← content.fields? ["name", "value", "body"] with
  | [some name, some value, some body] =>
    return .binding (← name.text?) (← child value) (← child body)
  | _ => none

def decodeNative {α : Type} (content : Json) : Option (Expr α) := do
  match ← content.fields? ["implementations"] with
  | [some implementations] => (implementations.map? Json.text?).map .native
  | _ => none

def tags : List String :=
  ["identifier", "symbol", "number", "boolean", "string", "record", "application", "function",
    "dataInstantiation", "binding", "dual", "readRecordProperty", "readDataProperty",
    "patternMatch", "native"]

def decodeExpr {α : Type} (child : Json.Access → Json → Option α) (access : Json.Access)
    (j : Json) : Option (Expr α) := do
  let variant ← j.variant? access tags
  let content ← variant.content
  let child := child variant.access
  if variant.tag = "identifier" then content.text?.map .identifier
  else if variant.tag = "binding" then decodeBinding child content
  else if variant.tag = "native" then decodeNative content
  else (Form.decode words child variant.tag content).map .form

def decodeWithin (decoration : Json.Access → Option Json → Option D) :
    Nat → Json.Access → Json → Option (Node D)
  | 0, _, _ => none
  | height + 1, access, j => do
    match ← j.record? ["expression", "decoration"] with
    | [some expression, d] =>
      return ⟨← decodeExpr (decodeWithin decoration height) access expression,
        ← decoration access d⟩
    | _ => none

def decode (decoration : Json.Access → Option Json → Option D) (j : Json) : Option (Node D) :=
  decodeWithin decoration j.height .inPlace j

def encodePlain : Node Unit → Json := encode fun _ => .null

/-- A plain decoration is left out or stands for nothing. -/
def plainDecoration (access : Json.Access) (d : Option Json) : Option Unit :=
  if d.all (Json.isNothing access) then some () else none

def decodePlain : Json → Option (Node Unit) := decode plainDecoration

end ImplicitInference.Node
