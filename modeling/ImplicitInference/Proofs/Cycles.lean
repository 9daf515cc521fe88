import ImplicitInference.Proofs.Expansion

/-!
Which variables simplification leaves. A variable that has an entry stays in an expansion only where
it stands inside its own expansion, so it can be reached from itself. What is expanded from a variable
that no cycle can be reached from has no variable with an entry left in it, and is what the entry makes
of the simplified values.
-/

namespace ImplicitInference

namespace Value

theorem occurrences_stripImplicits_subset (v : Value) : v.stripImplicits.occurrences ⊆ v.occurrences := by
  fun_induction stripImplicits v with
  | case1 parameter body ih =>
    intro name hname
    exact mem_occurrences_term.mpr ⟨body, by simp [Form.children], ih hname⟩
  | case2 v _ => exact List.Subset.refl _

end Value

theorem Entry.occurrences_settle_subset (e : Entry) (v : Value) :
    (e.settle v).occurrences ⊆ v.occurrences := by
  unfold settle
  split
  · exact v.occurrences_stripImplicits_subset
  · exact List.Subset.refl _

section Left

variable {entries : Table Entry} {outer : List String} {x y : String} {entry : Entry}

/-- A variable with an entry that is left in an expansion is one of those being expanded, or leads to
itself. -/
theorem left_of_mem_expand (hkey : y ∈ entries.keys) (hy : y ∈ (expand entries outer x).occurrences) :
    Reaches entries x y ∧ (y ∈ outer ∨ LeadsTo entries y y) := by
  fun_induction expand entries outer x with
  | case1 outer x hnone =>
    rw [Value.occurrences_var, List.mem_singleton] at hy
    exact absurd (hy ▸ hkey) (Table.not_mem_keys hnone)
  | case2 outer x entry hentry hmem =>
    rw [Value.occurrences_var, List.mem_singleton] at hy
    rw [hy]
    exact ⟨.refl, .inl hmem⟩
  | case3 outer x entry hentry hmem ih =>
    obtain ⟨z, hz, hyz⟩ := Value.mem_occurrences_subst.mp (entry.occurrences_settle_subset _ hy)
    have hzkey : z ∈ entries.keys := by
      by_contra hfree
      rw [expand_of_none (Table.get?_eq_none hfree), Value.occurrences_var, List.mem_singleton] at hyz
      exact hfree (hyz ▸ hkey)
    have hrefers := refers_of_mem hentry hz hzkey
    obtain ⟨hreach, houter⟩ := ih z hyz
    refine ⟨.head hrefers hreach, ?_⟩
    -- The expansion inside that of `x` can leave `x` itself, and then `x` was reached from itself.
    rcases houter with houter | hcycle
    · rcases List.mem_cons.mp houter with rfl | houter
      · exact .inr (.head' hrefers hreach)
      · exact .inl houter
    · exact .inr hcycle

theorem cyclic_of_mem_expand (hkey : y ∈ entries.keys) (hy : y ∈ (expand entries [] x).occurrences) :
    Reaches entries x y ∧ LeadsTo entries y y := by
  obtain ⟨hreach, houter | hcycle⟩ := left_of_mem_expand hkey hy
  · exact absurd houter List.not_mem_nil
  · exact ⟨hreach, hcycle⟩

theorem substitute_simplify (entries : Table Entry) (v : Value) :
    v.substitute (simplify entries).values = v.subst (expand entries []) :=
  congrArg v.subst (funext (Simplification.assign_simplify entries))

end Left

/-- Only variables on cycles are left by simplification: a variable that has an entry and is left in the
value of `x` can be reached from `x` and from itself. So if no cycle can be reached from `x`, no variable
with an entry is left, and the value is that of the entry with all variables replaced by their own
simplified values, less its leading implicit parameters if the entry was evaluated. -/
theorem only_cyclic_variables_remain (entries : Table Entry) (x : String) (entry : Entry)
    (hentry : entries.get? x = some entry) :
    ∃ v, (simplify entries).values.get? x = some v ∧
      (∀ y ∈ v.freeVariables, y ∈ entries.keys → Reaches entries x y ∧ LeadsTo entries y y) ∧
      (Whole entries x → (∀ y ∈ v.freeVariables, y ∉ entries.keys) ∧
        v = entry.settle (entry.value.substitute (simplify entries).values)) := by
  have hleft : ∀ y ∈ (expand entries [] x).freeVariables, y ∈ entries.keys →
      Reaches entries x y ∧ LeadsTo entries y y := by
    intro y hy hkey
    exact cyclic_of_mem_expand hkey (Value.mem_freeVariables.mp hy)
  refine ⟨expand entries [] x, Simplification.get?_simplify (Table.mem_keys_of_get? hentry), hleft, ?_⟩
  intro hwhole
  constructor
  · intro y hy hkey
    obtain ⟨hreach, hcycle⟩ := hleft y hy hkey
    exact hwhole y hreach hcycle
  · rw [substitute_simplify]
    exact expand_eq_settle hentry (hwhole x .refl)

def layered : Table Entry :=
  ⟨[("r", ⟨.evaluatedFrom, "r",
      .function .implicit (.var "p") (.record [("a", .var "q"), ("b", .var "free")]), []⟩),
    ("q", ⟨.equals, "q", .data (.symbol "P") [.var "p"], []⟩),
    ("p", ⟨.equals, "p", .symbol "A", []⟩)]⟩

theorem whole_layered : Whole layered "r" := by
  have hdescends : Descends layered 3 := by decide
  exact fun other _ => hdescends.acyclic other

/-- In `tangled`, where `z` refers to two variables that refer to each other, one of them is left in the
value of `z`; in `layered` nothing is left but the variable without an entry. -/
theorem layered_variables_do_not_remain :
    (∃ v, (simplify tangled).values.get? "z" = some v ∧ "y" ∈ v.freeVariables ∧
      LeadsTo tangled "y" "y") ∧
    Whole layered "r" ∧ ∃ v, (simplify layered).values.get? "r" = some v ∧
      v.freeVariables = ["free"] ∧ ∀ y ∈ v.freeVariables, y ∉ layered.keys := by
  obtain ⟨v, hv, hleft, -⟩ := only_cyclic_variables_remain tangled "z" _ rfl
  obtain ⟨w, hw, -, hwhole⟩ := only_cyclic_variables_remain layered "r" _ rfl
  have hy : ((simplify tangled).values.get? "z").any (fun v => v.freeVariables.contains "y") := by
    decide +kernel
  have hfree : ((simplify layered).values.get? "r").map Value.freeVariables = some ["free"] := by
    decide +kernel
  rw [hv, Option.any_some, List.contains_iff_mem] at hy
  rw [hw] at hfree
  exact ⟨⟨v, hv, hy, (hleft "y" hy (by decide)).2⟩, whole_layered, w, hw, Option.some.inj hfree,
    (hwhole whole_layered).1⟩

end ImplicitInference
