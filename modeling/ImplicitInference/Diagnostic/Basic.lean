import ImplicitInference.Value.Basic

/-!
Diagnostics: problems that checking reports without stopping.
-/

namespace ImplicitInference

inductive Diagnostic where
  /-- Two values of different kinds met. -/
  | typesAreDifferent (left right : Value)
  /-- Two values of one kind with different contents met. -/
  | typeValuesAreDifferent (left right : Value)
  /-- Two records with different field names met. -/
  | unevenProperties (left right : List String)
  | parameterCountsAreDifferent (left right : Nat)
  | patternCountsAreDifferent (left right : Nat)
  /-- Reduction stopped after this many steps. -/
  | reductionLimit (limit : Nat)
  /-- No combination of bindings satisfies these implicit parameters. -/
  | unresolvedImplicits (implicits : List Value)
  /-- Several combinations satisfy the implicit parameters. -/
  | ambiguousImplicits (combinations implicits : Nat)

namespace Diagnostic

/-- What to report about two values whose layers do not join. -/
def ofClash (left right : Value) : Form.Clash → Diagnostic
  | .kinds => typesAreDifferent left right
  | .contents => typeValuesAreDifferent left right
  | .fieldNames l r => unevenProperties l r
  | .parameterCounts l r => parameterCountsAreDifferent l r
  | .armCounts l r => patternCountsAreDifferent l r

def message : Diagnostic → String
  | typesAreDifferent _ _ => "Types are different"
  | typeValuesAreDifferent _ _ => "Type values are different"
  | unevenProperties _ _ => "Uneven properties"
  | parameterCountsAreDifferent _ _ => "Parameter counts are different"
  | patternCountsAreDifferent _ _ => "Pattern counts are different"
  | reductionLimit _ => "Constraint reduction did not converge"
  | unresolvedImplicits _ => "Could not find a valid set of replacements for implicits"
  | ambiguousImplicits combinations implicits =>
    "Implicits were ambiguous. " ++ toString combinations ++ " possible sets of values found for "
      ++ toString implicits ++ " implicits"

end Diagnostic

end ImplicitInference
