import ImplicitInference.Form.Basic
import ImplicitInference.Json.Decode

/-!
The document of a layer from the documents of its children, and back. Expressions and values use
different words for the same forms; a `Vocabulary` is a choice of words. A vocabulary says whether
functions have a tag for each plicity, or one tag and a member that tells, which is left out at
will when the parameter is explicit.
-/

namespace ImplicitInference

inductive FunctionWords where
  | tags (explicit implicit : String)
  | flag (tag member : String)

structure Vocabulary where
  number : String
  boolean : String
  string : String
  symbol : String
  record : String
  function : FunctionWords
  application : String
  data : String
  dataName : String
  dual : String
  property : String
  position : String
  choice : String

namespace Form

variable {α : Type}

def encodeLiteral (words : Vocabulary) : Literal → Json
  | .number x => .tagged words.number (.real x)
  | .boolean b => .tagged words.boolean (.bool b)
  | .string s => .tagged words.string (.string s)
  | .symbol name => .tagged words.symbol (.string name)

def encodeFunction (words : FunctionWords) (plicity : Plicity) (parameter body : Json) : Json :=
  match words with
  | .tags explicit implicit =>
    .tagged (if plicity = .implicit then implicit else explicit)
      (.object [("parameter", parameter), ("body", body)])
  | .flag tag member =>
    .tagged tag
      (.object [("parameter", parameter), ("body", body), (member, .bool (plicity = .implicit))])

def encode (words : Vocabulary) : Form Json → Json
  | literal a => encodeLiteral words a
  | record fields => .tagged words.record (.object fields)
  | function plicity parameter body => encodeFunction words.function plicity parameter body
  | application callee parameter =>
    .tagged words.application (.object [("callee", callee), ("parameter", parameter)])
  | data name parameters =>
    .tagged words.data (.object [(words.dataName, name), ("parameters", .array parameters)])
  | dual left right => .tagged words.dual (.object [("left", left), ("right", right)])
  | read source (.property name) =>
    .tagged words.property (.object [("record", source), ("property", .string name)])
  | read source (.position index) =>
    .tagged words.position (.object [("dataValue", source), ("property", .natural index)])
  | choice subject arms =>
    .tagged words.choice (.object
      [("value", subject),
        ("patterns", .array (arms.map fun arm => .object [("test", arm.1), ("value", arm.2)]))])

def decodePair {β : Type} (first second : String) (f : Json → Option α) (g : Json → Option β)
    (content : Json) : Option (α × β) := do
  match ← content.fields? [first, second] with
  | [some a, some b] => return (← f a, ← g b)
  | _ => none

def decodeArm (child : Json → Option α) (j : Json) : Option (α × α) := do
  match ← j.record? ["test", "value"] with
  | [some test, some result] => return (← child test, ← child result)
  | _ => none

def decodeFlagged (member : String) (child : Json → Option α) (content : Json) :
    Option (Form α) := do
  match ← content.fields? ["parameter", "body", member] with
  | [some parameter, some body, flag] =>
    let isImplicit ← (flag.map Json.truth?).getD (some false)
    return function (if isImplicit then .implicit else .explicit) (← child parameter)
      (← child body)
  | _ => none

def decodeFunction (words : FunctionWords) (child : Json → Option α) (tag : String)
    (content : Json) : Option (Form α) :=
  let pair (plicity : Plicity) :=
    (decodePair "parameter" "body" child child content).map fun p => function plicity p.1 p.2
  match words with
  | .tags explicit implicit =>
    if tag = explicit then pair .explicit else if tag = implicit then pair .implicit else none
  | .flag expected member => if tag = expected then decodeFlagged member child content else none

/-- Reads the content of a tag, with a given reader for children. -/
def decode (words : Vocabulary) (child : Json → Option α) (tag : String) (content : Json) :
    Option (Form α) :=
  if tag = words.number then content.number?.map fun x => literal (.number x)
  else if tag = words.boolean then content.truth?.map fun b => literal (.boolean b)
  else if tag = words.string then content.text?.map fun s => literal (.string s)
  else if tag = words.symbol then content.text?.map fun s => literal (.symbol s)
  else if tag = words.record then (content.map? child).map record
  else if tag = words.application then
    (decodePair "callee" "parameter" child child content).map fun p => application p.1 p.2
  else if tag = words.data then
    (decodePair words.dataName "parameters" child (Json.list? child) content).map
      fun p => data p.1 p.2
  else if tag = words.dual then
    (decodePair "left" "right" child child content).map fun p => dual p.1 p.2
  else if tag = words.property then
    (decodePair "record" "property" child Json.text? content).map
      fun p => read p.1 (.property p.2)
  else if tag = words.position then
    (decodePair "dataValue" "property" child Json.natural? content).map
      fun p => read p.1 (.position p.2)
  else if tag = words.choice then
    (decodePair "value" "patterns" child (Json.list? (decodeArm child)) content).map
      fun p => choice p.1 p.2
  else decodeFunction words.function child tag content

end Form

end ImplicitInference
