import ImplicitInference.Proofs.Record

/-!
What a limit on the steps does to a reduction. A step keeps what is there: new names come after the
old ones, new sources after the old sources of an entry, and new reports after the old ones. No merge
reports a limit. So a reduction that stops at its limit is the beginning of every reduction with a
higher one, and says so once, in the last place; one that does not stop has the same outcome under
all higher limits.
-/

namespace ImplicitInference

section Reports

/-- Nothing that unification reports is about a limit. -/
theorem Value.unify_unlimited (left right : Value) :
    ∀ d ∈ (left.unify right).diagnostics, ¬ d.isReductionLimit := by
  have hnone : ∀ d ∈ ([] : List Diagnostic), ¬ d.isReductionLimit := List.forall_mem_nil _
  refine unify_induction (motive := fun _ _ u => ∀ d ∈ u.diagnostics, ¬ d.isReductionLimit)
    ?_ left right
  intro left right pairs u h ih
  cases h with
  | same _ => exact hnone
  | varLeft _ => exact hnone
  | varRight => exact hnone
  | dualLeft _ =>
    exact List.forall_mem_append.mpr
      ⟨ih _ List.mem_cons_self, ih _ (List.mem_cons_of_mem _ List.mem_cons_self)⟩
  | dualRight _ _ =>
    exact List.forall_mem_append.mpr
      ⟨ih _ List.mem_cons_self, ih _ (List.mem_cons_of_mem _ List.mem_cons_self)⟩
  | @joined f g _ _ _ =>
    refine List.forall_mem_append.mpr ⟨?_, ?_⟩
    · rw [List.forall_mem_flatMap, Form.children_map, List.forall_mem_map]
      exact Unified.forall_ofPair (P := fun _ u => ∀ d ∈ u.diagnostics, ¬ d.isReductionLimit)
        (fun _ _ => hnone) ih
    · intro d hd
      obtain ⟨clash, -, rfl⟩ := Option.map_eq_some_iff.mp (Option.mem_toList.mp hd)
      cases clash <;> simp [Diagnostic.ofClash, Diagnostic.isReductionLimit]

theorem Entry.merge_unlimited (e : Entry) (c : Constraint) (origin : String) :
    ∀ d ∈ (e.merge c { origin }).2.diagnostics, ¬ d.isReductionLimit := by
  intro d hd
  rcases Convergence.meet_learns { origin } (e.relation, e.value) (c.relation, c.value) with
    ⟨name, v, hdefer⟩ | ⟨left, right, hconverge⟩
  · simp only [Entry.merge, hdefer] at hd
    exact absurd hd List.not_mem_nil
  · simp only [Entry.merge, hconverge] at hd
    exact Value.unify_unlimited left right d hd

end Reports

section Course

open Reduction

theorem Reduction.Step.unlimited {r t : Reduction} {c : Constraint} {learned : List Constraint}
    (h : Step r c t learned) (hr : ∀ d ∈ r.diagnostics, ¬ d.isReductionLimit) :
    ∀ d ∈ t.diagnostics, ¬ d.isReductionLimit := by
  cases h with
  | @merged entry _ _ => exact List.forall_mem_append.mpr ⟨hr, entry.merge_unlimited c c.origin⟩
  | _ => exact hr

variable {options : Options} {constraints : List Constraint}

theorem precedes_course (constraints : List Constraint) {m n : Nat} (h : m ≤ n) :
    Precedes (course constraints m).reduced (course constraints n).reduced := by
  obtain ⟨k, rfl⟩ := Nat.exists_eq_add_of_le h
  rw [course_add]
  exact precedes_iterate _ k

theorem course_unlimited (constraints : List Constraint) (n : Nat) :
    ∀ d ∈ (course constraints n).reduced.diagnostics, ¬ d.isReductionLimit :=
  State.keeps (fun r _ => ∀ d ∈ r.diagnostics, ¬ d.isReductionLimit)
    (fun r c _ h => (step_taken r c).unlimited h) (List.forall_mem_nil _) n

/-- A reduction stops exactly if constraints are left when its steps are used up. -/
theorem stops_iff :
    Stops options constraints ↔ (course constraints options.reductionLimit).waiting ≠ [] := by
  refine ⟨fun hstops hended => ?_, fun hwaiting => ?_⟩
  · rw [Stops, diagnostics_reduce, State.cut_of_ended hended, List.any_eq_true] at hstops
    obtain ⟨d, hd, hlimit⟩ := hstops
    exact course_unlimited _ _ d hd hlimit
  · by_contra hstops
    exact hwaiting (ended_of_not_stops hstops)

end Course

/-- With a higher limit a reduction that does not stop has the same outcome. One that stops reports its
limit once, in the last place, and all else in it is the beginning of what the higher limit gives. -/
theorem raising_limit_extends_reduction (constraints : List Constraint) (low high : Options)
    (hlimit : low.reductionLimit ≤ high.reductionLimit) :
    (¬ Stops low constraints →
      (reduce high constraints).entries = (reduce low constraints).entries ∧
        (reduce high constraints).diagnostics = (reduce low constraints).diagnostics) ∧
    (Stops low constraints →
      ∃ earlier, (reduce low constraints).diagnostics =
          earlier ++ [.reductionLimit low.reductionLimit] ∧
        (∀ d ∈ earlier, ¬ d.isReductionLimit) ∧
        earlier <+: (reduce high constraints).diagnostics ∧
        (reduce low constraints).entries.keys <+: (reduce high constraints).entries.keys ∧
        ∀ name entry, (reduce low constraints).entries.get? name = some entry →
          ∃ later, (reduce high constraints).entries.get? name = some later ∧
            entry.sources <+: later.sources) := by
  rw [entries_reduce, entries_reduce, diagnostics_reduce, diagnostics_reduce]
  constructor
  · intro hstops
    have hended := ended_of_not_stops hstops
    have hsame := course_of_ended hended hlimit
    have hended' : (course constraints high.reductionLimit).waiting = [] := by rw [hsame, hended]
    rw [Reduction.State.cut_of_ended hended, Reduction.State.cut_of_ended hended', hsame]
    exact ⟨rfl, rfl⟩
  · intro hstops
    have hprecedes := precedes_course constraints hlimit
    refine ⟨(course constraints low.reductionLimit).reduced.diagnostics, ?_, ?_, ?_, ?_, ?_⟩
    · rw [Reduction.State.cut_of_waiting (stops_iff.mp hstops)]
      rfl
    · exact course_unlimited constraints low.reductionLimit
    · exact hprecedes.diagnostics.trans (Reduction.precedes_cut _ _).diagnostics
    · exact hprecedes.keys
    · exact hprecedes.sources

def contested : List Constraint :=
  [.learned .equals "x" (.ofBool true), .learned .equals "x" (.ofBool false),
    .learned .equals "y" (.var "x"), .learned .equals "y" (.ofBool true),
    .learned .equals "z" (.var "y")]

theorem contested_raised_limit :
    Stops { reductionLimit := 3 } contested ∧ ¬ Stops { reductionLimit := 6 } contested ∧
    (∃ earlier, (reduce { reductionLimit := 3 } contested).diagnostics =
        earlier ++ [.reductionLimit 3] ∧ (∀ d ∈ earlier, ¬ d.isReductionLimit) ∧
      earlier <+: (reduce { reductionLimit := 6 } contested).diagnostics ∧
      (reduce { reductionLimit := 3 } contested).entries.keys <+:
        (reduce { reductionLimit := 6 } contested).entries.keys) ∧
    (reduce {} contested).diagnostics = (reduce { reductionLimit := 6 } contested).diagnostics ∧
    (reduce { reductionLimit := 3 } contested).entries.keys = ["x", "y"] ∧
    (reduce { reductionLimit := 6 } contested).entries.keys = ["x", "y", "z"] := by
  have hstops : Stops { reductionLimit := 3 } contested := by decide
  have hends : ¬ Stops { reductionLimit := 6 } contested := by decide
  obtain ⟨earlier, hlast, hunlimited, hreports, hkeys, -⟩ :=
    (raising_limit_extends_reduction contested { reductionLimit := 3 } { reductionLimit := 6 }
      (by decide)).2 hstops
  obtain ⟨-, hsame⟩ :=
    (raising_limit_extends_reduction contested { reductionLimit := 6 } {} (by decide)).1 hends
  exact ⟨hstops, hends, ⟨earlier, hlast, hunlimited, hreports, hkeys⟩, hsame, by decide, by decide⟩

end ImplicitInference
