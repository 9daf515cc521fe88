import ImplicitInference.Diagnostic.Basic
import ImplicitInference.Value.Document

/-!
The documents of diagnostics, and back.
-/

namespace ImplicitInference.Diagnostic

def encodeSides (left right : Json) : Json := .object [("left", left), ("right", right)]

def encodeNames (names : List String) : Json := .array (names.map Json.string)

def encode : Diagnostic → Json
  | typesAreDifferent l r => .tagged "typesAreDifferent" (encodeSides l.encode r.encode)
  | typeValuesAreDifferent l r => .tagged "typeValuesAreDifferent" (encodeSides l.encode r.encode)
  | unevenProperties l r =>
    .tagged "unevenProperties" (encodeSides (encodeNames l) (encodeNames r))
  | parameterCountsAreDifferent l r =>
    .tagged "parameterCountsAreDifferent" (encodeSides (.natural l) (.natural r))
  | patternCountsAreDifferent l r =>
    .tagged "patternCountsAreDifferent" (encodeSides (.natural l) (.natural r))
  | reductionLimit limit => .tagged "reductionLimit" (.natural limit)
  | unresolvedImplicits implicits =>
    .tagged "unresolvedImplicits" (.object [("implicits", .array (implicits.map Value.encode))])
  | ambiguousImplicits combinations implicits =>
    .tagged "ambiguousImplicits"
      (.object [("combinations", .natural combinations), ("implicits", .natural implicits)])

def decodeSides {α : Type} (side : Json → Option α) (make : α → α → Diagnostic) (content : Json) :
    Option Diagnostic := do
  match ← content.fields? ["left", "right"] with
  | [some left, some right] => return make (← side left) (← side right)
  | _ => none

def decodeUnresolved (value : Json → Option Value) (content : Json) : Option Diagnostic := do
  match ← content.fields? ["implicits"] with
  | [some implicits] => (implicits.list? value).map unresolvedImplicits
  | _ => none

def decodeAmbiguous (content : Json) : Option Diagnostic := do
  match ← content.fields? ["combinations", "implicits"] with
  | [some combinations, some implicits] =>
    return ambiguousImplicits (← combinations.natural?) (← implicits.natural?)
  | _ => none

def tags : List String :=
  ["typesAreDifferent", "typeValuesAreDifferent", "unevenProperties",
    "parameterCountsAreDifferent", "patternCountsAreDifferent", "reductionLimit",
    "unresolvedImplicits", "ambiguousImplicits"]

def decodeFrom (access : Json.Access) (j : Json) : Option Diagnostic := do
  let variant ← j.variant? access tags
  let content ← variant.content
  let value := Value.decodeFrom variant.access
  match variant.tag with
  | "typesAreDifferent" => decodeSides value typesAreDifferent content
  | "typeValuesAreDifferent" => decodeSides value typeValuesAreDifferent content
  | "unevenProperties" => decodeSides (Json.list? Json.text?) unevenProperties content
  | "parameterCountsAreDifferent" =>
    decodeSides Json.natural? parameterCountsAreDifferent content
  | "patternCountsAreDifferent" => decodeSides Json.natural? patternCountsAreDifferent content
  | "reductionLimit" => content.natural?.map reductionLimit
  | "unresolvedImplicits" => decodeUnresolved value content
  | "ambiguousImplicits" => decodeAmbiguous content
  | _ => none

def decode : Json → Option Diagnostic := decodeFrom .inPlace

end ImplicitInference.Diagnostic
