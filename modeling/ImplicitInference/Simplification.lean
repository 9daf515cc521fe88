import ImplicitInference.Reduction

/-!
Simplification replaces the variables in each entry's value by the values of their own entries, all
the way down. A variable that turns up inside its own expansion is left as it is, and an expansion
that was cut short in this way is not remembered, since it would be wrong elsewhere.
-/

namespace ImplicitInference

structure Simplification where
  values : Table Value := {}
  events : Array Event := #[]

namespace Simplification

structure Memo where
  known : Table Value := {}
  events : Array Event := #[]

/-- A value, and whether a variable in it was left because it was being expanded. -/
structure Expansion where
  value : Value
  cut : Bool

def expandValue (expandVar : String → StateM Memo Expansion) : Value → StateM Memo Expansion :=
  Value.fold expandVar fun form => do
    let parts ← form.mapM id
    return ⟨.term (parts.map Expansion.value), parts.children.any Expansion.cut⟩

def Memo.learn (memo : Memo) (name : String) (expansion : Expansion) : Memo :=
  if expansion.cut then memo
  else { memo with known := memo.known.insert name expansion.value }

/-- Expands a variable inside the expansions of `outer`. Each level adds a name that has an entry
to `outer`, so a depth of the number of entries is enough. -/
def expandVar (entries : Table Entry) : Nat → List String → String → StateM Memo Expansion
  | depth, outer, name => fun memo =>
    match memo.known.get? name, entries.get? name with
    | some value, _ => (⟨value, false⟩, memo)
    | none, none => (⟨.var name, false⟩, memo)
    | none, some entry =>
      if outer.contains name then
        (⟨.var name, true⟩, { memo with events := memo.events.push (.selfReference name) })
      else match depth with
        | 0 => (⟨.var name, false⟩, memo)
        | depth + 1 =>
          let (inner, memo) :=
            expandValue (expandVar entries depth (name :: outer)) entry.value memo
          let value :=
            if entry.relation = .evaluatedFrom then inner.value.stripImplicits else inner.value
          let expansion : Expansion := ⟨value, inner.cut⟩
          (expansion, memo.learn name expansion)

end Simplification

def simplify (entries : Table Entry) : Simplification :=
  let expandKey (name : String) : StateM Simplification.Memo (String × Value) := do
    let expansion ← Simplification.expandVar entries entries.size [] name
    return (name, expansion.value)
  let (rows, memo) := (entries.keys.mapM expandKey).run {}
  { values := ⟨rows⟩, events := memo.events.push (.simplified rows.length) }

end ImplicitInference
