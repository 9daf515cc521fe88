import ImplicitInference.Proofs.Termination

/-!
What becomes of a constraint that is given twice. The constraints that are given are taken up in
their order and before anything that is learned, so when the second copy comes up, the first one has
been: it was trivial, or it is a source, or a source says the same. In each case the second copy is
dropped, and the course goes on as if it had not been there, one step behind. A value with a NaN is
not the same as itself, and is the only one that can be taken in twice.
-/

namespace ImplicitInference

namespace Reduction

variable {r : Reduction} {c : Constraint}

/-- A constraint that is trivial or stated by a source is dropped, unless it differs from itself. -/
theorem step_of_stated (hnan : c.value.nanFree)
    (h : c.isTrivial ∨ r.HasSource c.var fun source => source.States c) : r.step c = (r, []) := by
  unfold step
  by_cases htrivial : c.isTrivial
  · rw [if_pos htrivial]
  · obtain ⟨entry, hentry, source, hsource, hstates⟩ := h.resolve_left htrivial
    have hsame : source.sameFact c := by
      rcases hstates with rfl | hsame
      · exact Constraint.Restates.sameFact ⟨rfl, rfl, rfl⟩ hnan
      · exact hsame
    have hrecorded : (entry.sources.any fun source => source.sameFact c) = true :=
      List.any_eq_true.mpr ⟨source, hsource, hsame⟩
    rw [if_neg htrivial, hentry]
    exact if_pos hrecorded

/-- A step takes at most one constraint away. -/
theorem State.length_waiting_next (s : State) : s.waiting.length ≤ s.next.waiting.length + 1 := by
  cases hwaiting : s.waiting with
  | nil => exact Nat.zero_le _
  | cons c queue =>
    rw [next, hwaiting, List.length_append, List.length_cons]
    omega

end Reduction

section Course

open Reduction

variable {earlier later : List Constraint} {c : Constraint}

theorem length_le_waiting (constraints : List Constraint) (n : Nat) :
    constraints.length ≤ (course constraints n).waiting.length + n := by
  induction n with
  | zero => exact Nat.le_refl _
  | succ n ih =>
    have hnext := (course constraints n).length_waiting_next
    rw [show course constraints (n + 1) = (course constraints n).next from course_add n 1]
    omega

/-- With a second copy of a constraint the course is the same, one step later. -/
theorem course_repeated (hc : c ∈ earlier) (hnan : c.value.nanFree) (n : Nat) :
    course (earlier ++ [c] ++ later) (earlier.length + 1 + n) =
      course (earlier ++ later) (earlier.length + n) := by
  have hdropped := step_of_stated hnan (takeAll_hasSource {} earlier c hc)
  have hboth : course (earlier ++ [c] ++ later) (earlier.length + 1) =
      course (earlier ++ later) earlier.length := by
    rw [course_add, course, course, List.append_assoc, iterate_next_append, iterate_next_append]
    simp only [Function.iterate_one, State.next, List.cons_append, List.nil_append, hdropped,
      List.append_nil]
  rw [course_add, hboth, ← course_add]

end Course

/-- Stating once more what was stated before changes nothing, if the reduction does not stop at its
limit: without the second copy there are the same entries, with the same sources and in the same
order, and the same reports. -/
theorem restated_fact_changes_nothing (options : Options) (earlier later : List Constraint)
    (c : Constraint) (hc : c ∈ earlier) (hnan : c.value.nanFree)
    (hstops : ¬ Stops options (earlier ++ [c] ++ later)) :
    (reduce options (earlier ++ later)).entries =
        (reduce options (earlier ++ [c] ++ later)).entries ∧
      (reduce options (earlier ++ later)).diagnostics =
        (reduce options (earlier ++ [c] ++ later)).diagnostics := by
  have hended := ended_of_not_stops hstops
  have hlimit : earlier.length + 1 ≤ options.reductionLimit := by
    have hlength := length_le_waiting (earlier ++ [c] ++ later) options.reductionLimit
    rw [hended, List.length_append, List.length_append, List.length_singleton] at hlength
    simp only [List.length_nil] at hlength
    omega
  obtain ⟨n, hn⟩ := Nat.exists_eq_add_of_le hlimit
  have hsame : course (earlier ++ later) options.reductionLimit =
      course (earlier ++ [c] ++ later) options.reductionLimit := by
    rw [hn, course_repeated hc hnan] at hended
    rw [course_of_ended hended (by omega), ← course_repeated hc hnan, ← hn]
  rw [entries_reduce, entries_reduce, diagnostics_reduce, diagnostics_reduce, hsame]
  exact ⟨rfl, rfl⟩

def zeroFact (negative : Bool) (other : Value) : Constraint :=
  .learned .equals "x" (.record [("n", .number (.zero negative)), ("o", other)])

/-- The second fact differs from the first one by the sign of the zero, so it is dropped. From the
third one it is learned that `y` is `true`. -/
def zeroFacts : List Constraint :=
  [zeroFact false (.var "y"), zeroFact true (.var "y"), zeroFact false (.ofBool true)]

/-- The dropped fact once more, before one that contradicts what was learned. -/
theorem zeroFacts_restated :
    ¬ Stops {} (zeroFacts ++ [zeroFact true (.var "y")] ++ [.learned .equals "y" (.ofBool false)]) ∧
    (reduce {} (zeroFacts ++ [.learned .equals "y" (.ofBool false)])).entries =
      (reduce {} (zeroFacts ++ [zeroFact true (.var "y")] ++
        [.learned .equals "y" (.ofBool false)])).entries ∧
    (reduce {} (zeroFacts ++ [.learned .equals "y" (.ofBool false)])).diagnostics.length = 1 := by
  have hstops : ¬ Stops {} (zeroFacts ++ [zeroFact true (.var "y")] ++
      [.learned .equals "y" (.ofBool false)]) := by decide
  have hmem : zeroFact true (.var "y") ∈ zeroFacts := List.mem_cons_of_mem _ List.mem_cons_self
  obtain ⟨hentries, hreports⟩ :=
    restated_fact_changes_nothing {} zeroFacts [.learned .equals "y" (.ofBool false)] _ hmem
      (by decide) hstops
  refine ⟨hstops, hentries, ?_⟩
  rw [hreports]
  decide

end ImplicitInference
