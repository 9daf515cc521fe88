import ImplicitInference.Number.Basic
import ImplicitInference.Fields

/-!
Documents. Members of an object keep their order and their repetitions, since readers differ in what
they make of a repeated name. A whole number without a sign that fits 64 bits is kept apart from
the other numbers, because counts are written only in that way.
-/

namespace ImplicitInference

inductive Json where
  | null
  | bool (b : Bool)
  | natural (n : Nat)
  | real (x : Number)
  | string (s : String)
  | array (items : List Json)
  | object (members : List (String × Json))
  /-- A well-formed part of a text that cannot be taken up: a number that is too large, a string
  or a name with half a surrogate pair, or a part that is nested too deeply. It does no harm where
  nobody looks at it. -/
  | unreadable
  deriving Inhabited, Repr

namespace Json

mutual
def height : Json → Nat
  | array items => itemsHeight items + 1
  | object members => membersHeight members + 1
  | _ => 1
def itemsHeight : List Json → Nat
  | [] => 0
  | j :: rest => max j.height (itemsHeight rest)
def membersHeight : List (String × Json) → Nat
  | [] => 0
  | (_, j) :: rest => max j.height (membersHeight rest)
end

mutual
/-- Whether every part of a document can be taken up. -/
def isReadable : Json → Bool
  | unreadable => false
  | array items => allReadable items
  | object members => allMembersReadable members
  | _ => true
def allReadable : List Json → Bool
  | [] => true
  | j :: rest => j.isReadable && allReadable rest
def allMembersReadable : List (String × Json) → Bool
  | [] => true
  | (_, j) :: rest => j.isReadable && allMembersReadable rest
end

mutual
/-- The document with the members of every object in the order of their names; of several members
of one name the last is left. -/
def sorted : Json → Json
  | array items => array (sortedItems items)
  | object members => object (Fields.ofList (sortedMembers members))
  | j => j
def sortedItems : List Json → List Json
  | [] => []
  | j :: rest => j.sorted :: sortedItems rest
def sortedMembers : List (String × Json) → List (String × Json)
  | [] => []
  | (name, j) :: rest => (name, j.sorted) :: sortedMembers rest
end

def tagged (tag : String) (content : Json) : Json :=
  object [("type", string tag), ("value", content)]

def bare (tag : String) : Json := object [("type", string tag)]

end Json

end ImplicitInference
