import ImplicitInference.Proofs.Unfolding

/-!
Reduction of equations. Without evaluation every merge is one unification, and it is exact in every
domain, so equations with a solution in infinite trees are reduced without a report. Conversely the
unfoldings of a reduction that reports nothing are such a solution, if they agree with what was
skipped. Whether equations have a solution does not depend on their order, and so the verdict does
not either.
-/

namespace ImplicitInference

namespace Reduction

variable {M : Type} {d : Domain M} {s : String → M} {r : Reduction} {c : Constraint}
  {queue : List Constraint}

def Solves (d : Domain M) (s : String → M) (relation : Relation) (name : String) (v : Value) :
    Prop :=
  relation = .equals ∧ v.dualFree ∧ s name = d.eval s v

/-- All entries and all that waits are equations with a solution, and nothing was reported. -/
structure Balanced (d : Domain M) (s : String → M) (r : Reduction) (queue : List Constraint) :
    Prop where
  silent : r.diagnostics = []
  entries : ∀ name entry, r.entries.get? name = some entry →
    Solves d s entry.relation name entry.value
  waiting : ∀ c ∈ queue, Solves d s c.relation c.var c.value

theorem Balanced.insert {name : String} {entry : Entry} (h : Balanced d s r queue)
    (hentry : Solves d s entry.relation name entry.value) :
    ∀ other found, (r.entries.insert name entry).get? other = some found →
      Solves d s found.relation other found.value :=
  Table.forall_get?_insert h.entries hentry

/-- Two equations on one variable unify, and what is learned from them has the same solution. -/
theorem merge_equations {entry : Entry} (hentry : Solves d s entry.relation c.var entry.value)
    (hc : Solves d s c.relation c.var c.value) :
    (entry.merge c { origin := c.origin }).2.diagnostics = [] ∧
      Solves d s (entry.merge c { origin := c.origin }).1.relation c.var
        (entry.merge c { origin := c.origin }).1.value ∧
      ∀ fact ∈ (entry.merge c { origin := c.origin }).2.facts,
        Solves d s fact.relation fact.var fact.value := by
  obtain ⟨hequals, hdual, hsolved⟩ := hentry
  obtain ⟨hequals', hdual', hsolved'⟩ := hc
  have hfulfils : (entry.value.unify c.value).Fulfils d s :=
    (Value.unify_fulfils_iff hdual hdual').mpr (hsolved.symm.trans hsolved')
  obtain ⟨hvalue, hassumed⟩ := Value.dualFree_unify hdual hdual'
  have heval := Value.eval_unify hdual hdual' hfulfils
  simp only [Entry.merge, hequals, hequals', Convergence.meet, Convergence.converge,
    List.nil_append]
  refine ⟨hfulfils.1, ⟨rfl, hvalue, hsolved.trans heval.symm⟩, fun fact hmem => ?_⟩
  obtain ⟨assumed, hassume, rfl⟩ := List.mem_map.mp hmem
  exact ⟨rfl, hassumed assumed hassume, hfulfils.2 assumed hassume⟩

theorem Balanced.step (h : Balanced d s r (c :: queue)) :
    Balanced d s (r.step c).1 (queue ++ (r.step c).2) := by
  obtain ⟨hc, hqueue⟩ := List.forall_mem_cons.mp h.waiting
  have hnone : ∀ fact ∈ queue ++ ([] : List Constraint),
      Solves d s fact.relation fact.var fact.value := by
    simpa using hqueue
  have hstep := step_taken r c
  generalize (r.step c).1 = t, (r.step c).2 = learned at hstep ⊢
  cases hstep with
  | trivial _ => exact ⟨h.silent, h.entries, hnone⟩
  | repeated _ => exact ⟨h.silent, h.entries, hnone⟩
  | opened _ => exact ⟨h.silent, h.insert hc, hnone⟩
  | merged _ hentry =>
    obtain ⟨hsilent, hmerged, hfacts⟩ := merge_equations (h.entries _ _ hentry) hc
    refine ⟨?_, h.insert hmerged, List.forall_mem_append.mpr ⟨hqueue, hfacts⟩⟩
    rw [h.silent, hsilent]
    rfl

theorem Balanced.run (limit rest : Nat) (h : Balanced d s r queue) :
    ∀ d ∈ (Reduction.run limit rest queue r).1.diagnostics, d = .reductionLimit limit := by
  have hbalanced := State.keeps (Balanced d s) (fun _ _ _ => Balanced.step) h rest
  rw [run_eq_cut]
  intro d hd
  rcases State.mem_diagnostics_cut hd with hearlier | hlimit
  · rw [hbalanced.silent] at hearlier
    exact absurd hearlier List.not_mem_nil
  · exact hlimit

end Reduction

section Order

open Reduction

variable {options : Options} {constraints : List Constraint}

/-- Equations that have a solution are reduced without a report. -/
theorem silent_of_solution {M : Type} {d : Domain M} {s : String → M}
    (hequals : ∀ c ∈ constraints, c.relation = .equals)
    (hdual : ∀ c ∈ constraints, c.value.dualFree)
    (hsolved : ∀ c ∈ constraints, s c.var = d.eval s c.value) (hstops : ¬ Stops options constraints) :
    (reduce options constraints).diagnostics = [] := by
  have hstart : Balanced d s {} constraints := {
    silent := rfl
    entries := fun _ _ h => absurd h (by simp [Table.get?])
    waiting := fun c hc => ⟨hequals c hc, hdual c hc, hsolved c hc⟩ }
  have hlimit := hstart.run options.reductionLimit options.reductionLimit
  apply List.eq_nil_iff_forall_not_mem.mpr
  intro diagnostic hmem
  obtain rfl := hlimit diagnostic hmem
  exact hstops (List.any_eq_true.mpr ⟨_, hmem, rfl⟩)

/-- The unfoldings of a reduction that reports nothing solve its equations. -/
theorem solution_of_silent (hequals : ∀ c ∈ constraints, c.relation = .equals)
    (hdual : ∀ c ∈ constraints, c.value.dualFree)
    (hdiagnostics : (reduce options constraints).diagnostics = [])
    (hskipped : KeepsSkipped options constraints) :
    ∃ s : String → Tree, ∀ c ∈ constraints, s c.var = Domain.trees.eval s c.value := by
  refine ⟨unfolding (reduce options constraints).entries, fun c hc => ?_⟩
  have hsays := (solution_unfolding hskipped).solves hdual hdiagnostics c hc
  rw [Reading.Says, hequals c hc] at hsays
  exact hsays

/-- Whether equations are reduced without a report does not depend on their order, as long as the
limit is not reached and nothing was skipped that the entries do not imply. -/
theorem verdict_independent_of_order (options : Options) (constraints reordered : List Constraint)
    (hperm : constraints.Perm reordered) (hequals : ∀ c ∈ constraints, c.relation = .equals)
    (hdual : ∀ c ∈ constraints, c.value.dualFree) (hstops : ¬ Stops options constraints)
    (hstops' : ¬ Stops options reordered)
    (hskipped : (reduce options constraints).diagnostics = [] → KeepsSkipped options constraints)
    (hskipped' : (reduce options reordered).diagnostics = [] → KeepsSkipped options reordered) :
    (reduce options constraints).diagnostics = [] ↔ (reduce options reordered).diagnostics = [] := by
  have hequals' : ∀ c ∈ reordered, c.relation = .equals :=
    fun c hc => hequals c (hperm.mem_iff.mpr hc)
  have hdual' : ∀ c ∈ reordered, c.value.dualFree := fun c hc => hdual c (hperm.mem_iff.mpr hc)
  constructor
  · intro hsilent
    obtain ⟨s, hs⟩ := solution_of_silent hequals hdual hsilent (hskipped hsilent)
    exact silent_of_solution hequals' hdual' (fun c hc => hs c (hperm.mem_iff.mpr hc)) hstops'
  · intro hsilent
    obtain ⟨s, hs⟩ := solution_of_silent hequals' hdual' hsilent (hskipped' hsilent)
    exact silent_of_solution hequals hdual (fun c hc => hs c (hperm.mem_iff.mp hc)) hstops

def selfRecord (name : String) : Constraint :=
  .learned .equals name (.record [("a", .var name)])

def selfRecords : List Constraint :=
  [selfRecord "x", selfRecord "y", .learned .equals "x" (.var "y")]

theorem selfRecords_verdict_independent_of_order :
    skippedFacts {} selfRecords ≠ [] ∧ ((reduce {} selfRecords).diagnostics = [] ↔
      (reduce {} selfRecords.reverse).diagnostics = []) := by
  have hkept : ∀ constraints ∈ [selfRecords, selfRecords.reverse], KeepsSkipped {} constraints := by
    have hstated : ∀ constraints ∈ [selfRecords, selfRecords.reverse],
        ∀ fact ∈ skippedFacts {} constraints,
          ((reduce {} constraints).entries.get? fact.var).any fun entry => entry.states fact := by
      decide
    intro constraints hmem fact hfact
    exact Constraint.unfolds_of_states (hstated constraints hmem fact hfact)
  exact ⟨by decide, verdict_independent_of_order {} selfRecords selfRecords.reverse
    (List.reverse_perm selfRecords).symm (by decide) (by decide) (by decide) (by decide)
    (fun _ => hkept _ (by simp)) (fun _ => hkept _ (by simp))⟩

def OrderMatters (constraints reordered : List Constraint) : Prop :=
  constraints.Perm reordered ∧ (∀ c ∈ constraints, c.relation = .equals ∧ c.value.dualFree) ∧
    ¬ Stops {} constraints ∧ ¬ Stops {} reordered ∧
    (reduce {} constraints).diagnostics = [] ∧ (reduce {} reordered).diagnostics ≠ []

def crossedNames : List Constraint :=
  [.learned .equals "z" (.ofBool true), .learned .equals "y" (.var "x"),
    .learned .equals "w" (.ofBool false), .learned .equals "y" (.var "w"),
    .learned .equals "x" (.var "w"), .learned .equals "x" (.var "y"),
    .learned .equals "x" (.var "z")]

/-- That `y` is both values is passed around between the names until it comes up again. If `z` is
known first, the report comes earlier. -/
theorem verdict_can_depend_on_order :
    OrderMatters (.learned .equals "y" (.var "z") :: crossedNames)
      (crossedNames ++ [.learned .equals "y" (.var "z")]) := by
  refine ⟨(List.perm_append_singleton _ _).symm, ?_⟩
  decide

end Order

end ImplicitInference
