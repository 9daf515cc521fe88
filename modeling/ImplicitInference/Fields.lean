/-!
Lists of named fields in the order of their names, each name once. Names are ordered by code point.
-/

namespace ImplicitInference.Fields

variable {α : Type}

def insert (name : String) (a : α) : List (String × α) → List (String × α)
  | [] => [(name, a)]
  | (other, b) :: rest =>
    if name < other then (name, a) :: (other, b) :: rest
    else if name = other then (name, a) :: rest
    else (other, b) :: insert name a rest

/-- The sorted form of a list of fields. Of several fields of one name the last counts. -/
def ofList (fields : List (String × α)) : List (String × α) :=
  fields.foldl (fun sorted field => insert field.1 field.2 sorted) []

def Sorted (fields : List (String × α)) : Prop :=
  fields.Pairwise fun a b => a.1 < b.1

end ImplicitInference.Fields
