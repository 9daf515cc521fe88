import ImplicitInference.Constraint.Basic

/-!
Events: what checking notes about its own course, in order. They decide nothing.
-/

namespace ImplicitInference

inductive Stage where
  | shapes
  | reduction
  | simplification
  | implicits
  | whole
  deriving DecidableEq, Repr

inductive Level where
  | debug
  | trace
  deriving DecidableEq, Repr

inductive Event where
  | shapesAttached (nodes constraints : Nat)
  | reductionStopped (steps left : Nat)
  | merging (constraint : Constraint) (entry : Entry)
  | reduced (entries steps diagnostics : Nat)
  | selfReference (name : String)
  | simplified (entries : Nat)
  | combinationsFound (count : Nat) (type : Value) (node : String)
  | implicitsResolved (diagnostics : Nat)
  | checked (node : String) (type : Value) (diagnostics : Nat)

namespace Event

def stage : Event → Stage
  | shapesAttached _ _ => .shapes
  | reductionStopped _ _ | merging _ _ | reduced _ _ _ => .reduction
  | selfReference _ | simplified _ => .simplification
  | combinationsFound _ _ _ | implicitsResolved _ => .implicits
  | checked _ _ _ => .whole

def level : Event → Level
  | merging _ _ | selfReference _ | combinationsFound _ _ _ => .trace
  | _ => .debug

private def ticked (text : String) : String := "`" ++ text ++ "`"

def message : Event → String
  | shapesAttached nodes constraints =>
    "attached shapes to " ++ toString nodes ++ " nodes with " ++ toString constraints
      ++ " constraints"
  | reductionStopped steps left =>
    "stopping reduction after " ++ toString steps ++ " steps with " ++ toString left
      ++ " constraints left"
  | merging constraint entry =>
    "merging " ++ ticked constraint.render ++ " into " ++ ticked entry.render
  | reduced entries steps diagnostics =>
    "reduced to " ++ toString entries ++ " entries in " ++ toString steps ++ " steps with "
      ++ toString diagnostics ++ " diagnostics"
  | selfReference name => ticked name ++ " refers to itself"
  | simplified entries => "simplified " ++ toString entries ++ " entries"
  | combinationsFound count type node =>
    "found " ++ toString count ++ " valid combinations for " ++ ticked type.render ++ " in "
      ++ ticked node
  | implicitsResolved diagnostics =>
    "resolved implicits with " ++ toString diagnostics ++ " diagnostics"
  | checked node type diagnostics =>
    "typechecked " ++ ticked node ++ " as " ++ ticked type.render ++ " with "
      ++ toString diagnostics ++ " diagnostics"

end Event

end ImplicitInference
