import ImplicitInference.Json.Decode

/-!
What a caller may choose about checking.
-/

namespace ImplicitInference

structure Options where
  /-- How many constraints reduction takes up before it gives up. -/
  reductionLimit : Nat := 100000
  /-- Whether requirements on literals are met without a binding. -/
  builtinInstances : Bool := true
  deriving DecidableEq, Repr, Inhabited

namespace Options

def encode (o : Options) : Json :=
  .object [("reductionLimit", .natural o.reductionLimit),
    ("builtinInstances", .bool o.builtinInstances)]

def decode (j : Json) : Option Options := do
  match ← j.record? ["reductionLimit", "builtinInstances"] with
  | [limit, instances] =>
    let usual : Options := {}
    return ⟨← (limit.map Json.natural?).getD (some usual.reductionLimit),
      ← (instances.map Json.truth?).getD (some usual.builtinInstances)⟩
  | _ => none

end Options

end ImplicitInference
