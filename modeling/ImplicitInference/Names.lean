import ImplicitInference.Table

/-!
Sources of fresh names. A source has a state; it turns a stem into a name and the next state. The
counter numbers the names of each stem from zero, in 64-bit words. Its names are distinct as long as
no stem is another stem followed by digits and no stem is asked for more than 2 ^ 64 times.
-/

namespace ImplicitInference

class NameSource (σ : Type) where
  fresh : String → σ → String × σ

/-- How many names each stem has had. A stem that was never asked for has no row. -/
structure Counter where
  next : Table Nat := {}
  deriving DecidableEq, Repr, Inhabited

namespace Counter

def count (c : Counter) (stem : String) : Nat := (c.next.get? stem).getD 0

/-- Counts are 64-bit words and start over after the last one. -/
def fresh (stem : String) (c : Counter) : String × Counter :=
  (stem ++ toString (c.count stem), ⟨c.next.insert stem ((c.count stem + 1) % Nat.pow 2 64)⟩)

instance : NameSource Counter := ⟨fresh⟩

end Counter

end ImplicitInference
