import ImplicitInference.Unification
import ImplicitInference.Event
import ImplicitInference.Options
import ImplicitInference.Table

/-!
Reduction merges the constraints on each variable into one entry. Constraints wait in a queue; what
a merge learns goes to its end. A constraint that relates a variable to itself, or that an entry has
already taken in, is dropped. Since merging can go on forever, the number of constraints that are
taken from the queue is limited.
-/

namespace ImplicitInference

/-- Which of two values is kept when one is the other without its implicit parameters. -/
inductive Kept where
  | unevaluated
  | evaluated
  deriving DecidableEq, Repr

namespace Convergence

/-- Notes that `pre` without its leading implicit parameters is `post`. If that leaves a bare
variable, nothing is known about its own implicit parameters yet and the requirement is passed on
to the variable. -/
def evaluate (c : Convergence) (pre post : Value) (kept : Kept) : Value × Convergence :=
  match pre.stripImplicits, kept with
  | .var name, .unevaluated => (pre, c.defer name post)
  | .var name, .evaluated => (post, c.defer name post)
  | resolved, .unevaluated =>
    let (value, c) := c.converge resolved post
    (value.wrapImplicits pre.implicitParameters, c)
  | resolved, .evaluated => c.converge post resolved

def meet (c : Convergence) (existing incoming : Relation × Value) :
    Relation × Value × Convergence :=
  match existing.1, incoming.1 with
  | .equals, .equals => (.equals, c.converge existing.2 incoming.2)
  | .evaluatesTo, .evaluatesTo => (.evaluatesTo, c.converge existing.2 incoming.2)
  | .evaluatedFrom, .evaluatedFrom => (.evaluatedFrom, c.converge existing.2 incoming.2)
  | .equals, .evaluatesTo => (.equals, c.evaluate existing.2 incoming.2 .unevaluated)
  | .evaluatesTo, .equals => (.equals, c.evaluate incoming.2 existing.2 .unevaluated)
  | .equals, .evaluatedFrom => (.equals, c.evaluate incoming.2 existing.2 .evaluated)
  | .evaluatedFrom, .equals => (.equals, c.evaluate existing.2 incoming.2 .evaluated)
  | .evaluatesTo, .evaluatedFrom =>
    (.evaluatedFrom, c.evaluate incoming.2 existing.2 .unevaluated)
  | .evaluatedFrom, .evaluatesTo =>
    (.evaluatedFrom, c.evaluate existing.2 incoming.2 .unevaluated)

end Convergence

def Entry.merge (e : Entry) (c : Constraint) (convergence : Convergence) : Entry × Convergence :=
  let (relation, value, convergence) :=
    convergence.meet (e.relation, e.value) (c.relation, c.value)
  ({ e with relation, value, sources := e.sources ++ [c] }, convergence)

structure Reduction where
  entries : Table Entry := {}
  diagnostics : List Diagnostic := []
  events : Array Event := #[]

namespace Reduction

def step (r : Reduction) (c : Constraint) : Reduction × List Constraint :=
  if c.isTrivial then (r, [])
  else match r.entries.get? c.var with
    | none => ({ r with entries := r.entries.insert c.var (.ofConstraint c) }, [])
    | some entry =>
      if entry.sources.any fun source => source.sameFact c then (r, [])
      else
        let (merged, learned) := entry.merge c { origin := c.origin }
        ({ entries := r.entries.insert c.var merged
           diagnostics := r.diagnostics ++ learned.diagnostics
           events := r.events.push (.merging c entry) }, learned.facts)

def stop (r : Reduction) (limit left : Nat) : Reduction :=
  { r with
    diagnostics := r.diagnostics ++ [.reductionLimit limit]
    events := r.events.push (.reductionStopped limit left) }

/-- Takes up constraints until none or no step is left; gives back the steps left. -/
def run (limit : Nat) : Nat → List Constraint → Reduction → Reduction × Nat
  | rest, [], r => (r, rest)
  | 0, c :: queue, r => (r.stop limit (c :: queue).length, 0)
  | rest + 1, c :: queue, r =>
    let (r, learned) := r.step c
    run limit rest (queue ++ learned) r

end Reduction

def reduce (options : Options) (constraints : List Constraint) : Reduction :=
  let limit := options.reductionLimit
  let (r, rest) := Reduction.run limit limit constraints {}
  { r with
    events := r.events.push (.reduced r.entries.size (limit - rest) r.diagnostics.length) }

end ImplicitInference
