import ImplicitInference.Json.Basic
import ImplicitInference.Number.Rounding
import ImplicitInference.Fields

/-!
Taking documents apart. A record is an object whose members are looked up by name, unknown ones
being ignored and repeated known ones refused, or an array of its fields in order. A choice is a
name, alone or as the only member of an object with nothing in it. A variant is an object with a
tag and perhaps a content, or an array of both.

What stands before the tag that says how to read it is kept until the tag is known. All of it must
be readable, also what nobody looks at, and inside it an empty object is as good as null for
nothing, and the position of a tag among the tags as good as the tag at the front of an array.
-/

namespace ImplicitInference.Json

variable {α : Type}

def text? : Json → Option String
  | string s => some s
  | _ => none

def truth? : Json → Option Bool
  | bool b => some b
  | _ => none

def number? : Json → Option Number
  | natural n => Number.ofNat? n
  | real x => some x
  | _ => none

def natural? : Json → Option Nat
  | natural n => some n
  | _ => none

def items? : Json → Option (List Json)
  | array items => some items
  | _ => none

def members? : Json → Option (List (String × Json))
  | object members => some members
  | _ => none

def list? (item : Json → Option α) (j : Json) : Option (List α) := do
  (← j.items?).mapM item

/-- A map from names, in the order of the names. Every member is read, and of several members of
one name the last counts. -/
def map? (item : Json → Option α) (j : Json) : Option (List (String × α)) := do
  let fields ← (← j.members?).mapM fun member => (item member.2).map fun a => (member.1, a)
  some (Fields.ofList fields)

def member? (members : List (String × Json)) (name : String) : Option (Option Json) :=
  match members.filter fun member => member.1 == name with
  | [] => some none
  | [member] => some (some member.2)
  | _ => none

def fields? (names : List String) (j : Json) : Option (List (Option Json)) := do
  let members ← j.members?
  names.mapM (member? members)

/-- The fields of a record, by name or in order. -/
def record? (names : List String) : Json → Option (List (Option Json))
  | array items =>
    if items.length ≤ names.length then
      some (items.map some ++ List.replicate (names.length - items.length) none)
    else none
  | j => j.fields? names

/-- How a part of a document is come upon: in its place, or inside something that was kept. -/
inductive Access where
  | inPlace
  | kept
  deriving DecidableEq, Repr

def isNothing : Access → Json → Bool
  | _, null => true
  | .kept, object [] => true
  | _, _ => false

def choice? (access : Access) : Json → Option String
  | string s => some s
  | object [(name, content)] => if isNothing access content then some name else none
  | _ => none

def frontTag? (access : Access) (tags : List String) : Json → Option String
  | string s => some s
  | natural n => if access = .kept then tags[n]? else none
  | _ => none

structure Variant where
  tag : String
  content : Option Json
  /-- How the content is come upon. -/
  access : Access

def contentFirst (members : List (String × Json)) : Bool :=
  (members.find? fun member => member.1 == "type" || member.1 == "value").any
    fun member => member.1 == "value"

/-- The tag and the content of a variant; `tags` are all there are, in order. -/
def variant? (access : Access) (tags : List String) : Json → Option Variant
  | array [tag, content] =>
    (frontTag? access tags tag).map fun tag => ⟨tag, some content, access⟩
  | object members => do
    let tag ← (← member? members "type") >>= choice? access
    let content ← member? members "value"
    if !contentFirst members then some ⟨tag, content, access⟩
    else if content.all isReadable then some ⟨tag, content, .kept⟩
    else none
  | _ => none

end ImplicitInference.Json
