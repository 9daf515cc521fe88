import ImplicitInference.Proofs.Expansion
import ImplicitInference.Proofs.Reduction

/-!
That the simplified values solve the constraints. They solve every entry if no variable leads to
itself, since each value then is what its entry makes of the others. That an entry for an evaluated
variable is solved also needs its value to have no implicit parameters, for simplification makes the
variable the value itself. Reduction passes a solution of the entries on to the constraints.
-/

namespace ImplicitInference

open Simplification

/-- Every variable that is known by what it evaluates to has no implicit parameters. -/
def Evaluated (entries : Table Entry) : Prop :=
  ∀ entry ∈ entries.values, entry.relation = .evaluatesTo →
    ((simplify entries).values.assign entry.var).implicitCount = 0

instance (entries : Table Entry) : Decidable (Evaluated entries) :=
  inferInstanceAs (Decidable (∀ entry ∈ entries.values, _))

theorem settle_holds {s : String → Value} {entry : Entry}
    (h : s entry.var = entry.settle (entry.value.subst s))
    (hevaluated : entry.relation = .evaluatesTo → (s entry.var).implicitCount = 0) :
    entry.Holds s := by
  rw [Entry.Holds]
  cases hrelation : entry.relation with
  | equals =>
    rw [Entry.settle, if_neg (by simp [hrelation])] at h
    rw [holds_equals_iff, h]
  | evaluatesTo =>
    have hstrip := Value.stripImplicits_eq_self (hevaluated hrelation)
    rw [Entry.settle, if_neg (by simp [hrelation])] at h
    rw [holds_evaluatesTo_iff, ← Value.normal_stripImplicits, hstrip, h]
  | evaluatedFrom =>
    rw [Entry.settle, if_pos hrelation] at h
    rw [holds_evaluatedFrom_iff, ← Value.normal_stripImplicits, h]

/-- The simplified values solve the entries they come from. -/
theorem assign_holds {entries : Table Entry} (hentries : Reduction.WellFormed entries)
    (hacyclic : Acyclic entries) (hevaluated : Evaluated entries) {name : String} {entry : Entry}
    (h : entries.get? name = some entry) : entry.Holds (simplify entries).values.assign := by
  have hassign : (simplify entries).values.assign = expand entries [] :=
    funext (assign_simplify entries)
  obtain ⟨rfl, -⟩ := hentries name entry h
  apply settle_holds
  · rw [hassign]
    exact expand_eq_settle h (hacyclic entry.var)
  · exact hevaluated entry (Table.mem_values_of_get? h)

/-- The simplified values of a reduction that reports nothing solve its constraints, if no variable
leads to itself, no evaluated variable has implicit parameters and they solve what was skipped. -/
theorem simplification_solves_inputs (options : Options) (constraints : List Constraint)
    (hdual : ∀ c ∈ constraints, c.value.dualFree)
    (hdiagnostics : (reduce options constraints).diagnostics = [])
    (hacyclic : Acyclic (reduce options constraints).entries)
    (hevaluated : Evaluated (reduce options constraints).entries)
    (hskipped : ∀ fact ∈ skippedFacts options constraints,
      fact.Holds (simplify (reduce options constraints).entries).values.assign) :
    ∀ c ∈ constraints, c.Holds (simplify (reduce options constraints).entries).values.assign := by
  have hentries := wellFormed_reduce options hdual
  apply holds_of_reduce hdual hdiagnostics hskipped
  intro name entry hentry
  exact assign_holds hentries hacyclic hevaluated hentry

theorem simplification_solves_implicitCall :
    Acyclic (reduce {} implicitCall).entries ∧
      ∀ c ∈ implicitCall, c.Holds (simplify (reduce {} implicitCall).entries).values.assign := by
  have hdescends : Descends (reduce {} implicitCall).entries 4 := by decide
  exact ⟨hdescends.acyclic, simplification_solves_inputs {} implicitCall (by decide) (by decide)
    hdescends.acyclic (by decide +kernel) (by decide +kernel)⟩

def Misses (constraints : List Constraint) : Prop :=
  (∀ c ∈ constraints, c.value.dualFree) ∧ (reduce {} constraints).diagnostics = [] ∧
    Acyclic (reduce {} constraints).entries ∧ Evaluated (reduce {} constraints).entries ∧
    ¬ ∀ c ∈ constraints, c.Holds (simplify (reduce {} constraints).entries).values.assign

/-- Without the skipped facts the simplified values need not solve the constraints. A variable that
has to evaluate to itself gets an implicit parameter. Two variables that are each other forget that
they evaluate to `true` and become `false`. -/
theorem simplification_can_miss_inputs :
    Misses [.learned .evaluatesTo "x" (.var "x"),
        .learned .equals "x" (.term (.function .implicit (.ofBool true) (.ofBool true)))] ∧
      Misses [.learned .equals "x" (.var "y"), .learned .equals "y" (.var "x"),
        .learned .evaluatesTo "x" (.ofBool true), .learned .equals "x" (.ofBool false)] := by
  constructor
  · refine ⟨by decide, by decide, Descends.acyclic (n := 1) ?_, by decide, by decide +kernel⟩
    decide
  · refine ⟨by decide, by decide, Descends.acyclic (n := 1) ?_, by decide, by decide +kernel⟩
    decide

end ImplicitInference
