/-!
Tables from names to values in the order of insertion.
-/

namespace ImplicitInference

structure Table (α : Type) where
  toList : List (String × α) := []
  deriving DecidableEq, Repr, Inhabited

namespace Table

variable {α β : Type}

def empty : Table α := ⟨[]⟩

def get? (t : Table α) (name : String) : Option α :=
  (t.toList.find? fun row => row.1 == name).map Prod.snd

def contains (t : Table α) (name : String) : Bool := t.toList.any fun row => row.1 == name

def keys (t : Table α) : List String := t.toList.map Prod.fst

def values (t : Table α) : List α := t.toList.map Prod.snd

def size (t : Table α) : Nat := t.toList.length

def isEmpty (t : Table α) : Bool := t.toList.isEmpty

def insert (t : Table α) (name : String) (a : α) : Table α :=
  if t.contains name then ⟨t.toList.map fun row => if row.1 == name then (name, a) else row⟩
  else ⟨t.toList ++ [(name, a)]⟩

def erase (t : Table α) (name : String) : Table α :=
  ⟨t.toList.filter fun row => row.1 != name⟩

/-- Appends a name; if the table had it, it moves from its old place to the end. -/
def append (t : Table α) (name : String) (a : α) : Table α :=
  ⟨(t.erase name).toList ++ [(name, a)]⟩

/-- A name that comes up again keeps its first place and takes its last value. -/
def ofList (rows : List (String × α)) : Table α :=
  rows.foldl (fun t row => t.insert row.1 row.2) empty

def map (f : α → β) (t : Table α) : Table β := ⟨t.toList.map fun row => (row.1, f row.2)⟩

end Table

end ImplicitInference
