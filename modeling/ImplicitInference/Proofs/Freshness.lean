import ImplicitInference.Proofs.Equivariance
import ImplicitInference.Proofs.Erasure

/-!
The choice of fresh names. Two sources are asked for the same number of names when they serve the
check of a tree. If the names of either are distinct, none of them is written in the tree and none is
a placeholder, then there is a renaming that takes the names of the one to those of the other and keeps
everything else that a check comes across. All passes respect it, so both checks stop for the same
reason or give the same constraints, entries, values, diagnostics and nodes.
-/

namespace ImplicitInference

section Check

variable {σ τ D : Type} [NameSource σ] [NameSource τ]

/-- Names that nothing else in the check of a tree is called by. -/
structure Fresh (tree : Node D) (made : List String) : Prop where
  nodup : made.Nodup
  unwritten : ∀ name ∈ made, name ∉ tree.writtenNames
  unplaced : ∀ name ∈ made, ∀ k, name ≠ Candidate.placeholder k

/-- A renaming of made-up names, in the order in which they were made up, that touches nothing else
that a check could come across. -/
structure Bridges (tree : Node D) (made others : List String) (ρ : Equiv.Perm String) : Prop where
  made : made.map ρ = others
  written : ∀ name ∈ tree.writtenNames, ρ name = name
  placeholder : ∀ k, ρ (Candidate.placeholder k) = Candidate.placeholder k

structure Checked.Renamed (ρ : Equiv.Perm String) (checked other : Checked) : Prop where
  constraints : other.constraints = checked.constraints.map (Constraint.rename ρ ρ)
  entries : other.entries = checked.entries.rename ρ (Entry.rename ρ ρ)
  values : other.values = checked.values.rename ρ (Value.rename ρ)
  diagnostics : other.diagnostics = checked.diagnostics.map (Diagnostic.rename ρ)
  node : other.node = checked.node.map (Resolved.rename ρ)

inductive SameUpTo (ρ : Equiv.Perm String) :
    Except TypingError Checked → Except TypingError Checked → Prop
  | stopped (reason : TypingError) : SameUpTo ρ (.error reason) (.error (reason.rename ρ))
  | checked {checked other : Checked} (h : checked.Renamed ρ other) :
    SameUpTo ρ (.ok checked) (.ok other)

theorem exists_perm {made others : List String} (hmade : made.Nodup) (hothers : others.Nodup)
    (hlength : made.length = others.length) :
    ∃ ρ : Equiv.Perm String, made.map ρ = others ∧
      ∀ name, name ∉ made → name ∉ others → ρ name = name := by
  induction made generalizing others with
  | nil =>
    rw [List.length_nil] at hlength
    rw [List.eq_nil_of_length_eq_zero hlength.symm]
    exact ⟨Equiv.refl String, rfl, fun _ _ _ => rfl⟩
  | cons first made ih =>
    cases others with
    | nil => cases hlength
    | cons other others =>
      obtain ⟨hfirst, hmade⟩ := List.nodup_cons.mp hmade
      obtain ⟨hother, hothers⟩ := List.nodup_cons.mp hothers
      obtain ⟨ρ, hrest, hfixed⟩ := ih hmade hothers (Nat.succ.inj hlength)
      -- What the rest makes of the first name changes places with the name that it should get.
      refine ⟨ρ.trans (Equiv.swap (ρ first) other), ?_, ?_⟩
      · rw [List.map_cons, ← hrest]
        congr 1
        · exact Equiv.swap_apply_left (ρ first) other
        · apply List.map_congr_left
          intro name hname
          apply Equiv.swap_apply_of_ne_of_ne
          · intro heq
            exact hfirst (ρ.injective heq ▸ hname)
          · rintro rfl
            exact hother (hrest ▸ List.mem_map_of_mem hname)
      · intro name hname hname'
        rw [List.mem_cons, not_or] at hname hname'
        have hsame := hfixed name hname.2 hname'.2
        rw [Equiv.trans_apply, hsame]
        apply Equiv.swap_apply_of_ne_of_ne
        · intro heq
          exact hname.1 (ρ.injective (hsame.trans heq))
        · exact hname'.1

variable {tree : Node D} {names : σ} {others : τ}

theorem exists_bridge (hnames : Fresh tree (generated tree names))
    (hothers : Fresh tree (generated tree others)) :
    ∃ ρ, Bridges tree (generated tree names) (generated tree others) ρ := by
  have hlength : (generated tree names).length = (generated tree others).length := by
    rw [generated_eq, generated_eq, length_draw, length_draw]
  obtain ⟨ρ, hmade, hfixed⟩ := exists_perm hnames.nodup hothers.nodup hlength
  refine ⟨ρ, hmade, ?_, ?_⟩
  · intro name hname
    exact hfixed name (fun hmem => hnames.unwritten name hmem hname)
      (fun hmem => hothers.unwritten name hmem hname)
  · intro k
    exact hfixed _ (fun hmem => hnames.unplaced _ hmem k rfl)
      (fun hmem => hothers.unplaced _ hmem k rfl)

variable {options : Options}

theorem check_of_error {reason : TypingError} (h : typeTree options tree names = .error reason) :
    check options names tree = .error reason := by
  obtain ⟨finish, hcheck⟩ := check_eq options names tree
  rw [hcheck, h]
  rfl

theorem check_of_ok {typed : Node Typed} (h : typeTree options tree names = .ok typed) :
    ∃ checked, check options names tree = .ok checked ∧
      checked.node = resolved options (buildScopes typed) ∧
      checked.diagnostics =
        (reduceTree options tree names).diagnostics ++ reports options (buildScopes typed) ∧
      checked.constraints = (attachShapes tree names).constraints ∧
      checked.entries = (reduceTree options tree names).entries := by
  obtain ⟨finish, hcheck⟩ := check_eq options names tree
  rw [h] at hcheck
  obtain ⟨other, hother, hparts⟩ := check_ok hcheck
  rw [h] at hother
  cases hother
  exact ⟨finish typed, hcheck, hparts⟩

section Bridge

variable (options) {ρ : Equiv.Perm String}
  (h : Bridges tree (generated tree names) (generated tree others) ρ)

include h

theorem Bridges.shapes :
    (attachShapes tree others).node = (attachShapes tree names).node.map (Shaped.rename ρ) ∧
      (attachShapes tree others).constraints =
        (attachShapes tree names).constraints.map (Constraint.rename ρ ρ) := by
  have hanswers := h.made
  rw [generated_eq, generated_eq] at hanswers
  obtain ⟨hnode, hconstraints, -⟩ := attachShapes_rename h.written hanswers.symm
  exact ⟨hnode, hconstraints⟩

theorem Bridges.reduction :
    Reduction.Renamed ρ ρ (reduceTree options tree names) (reduceTree options tree others) := by
  have hreduce := reduce_rename ρ ρ options (attachShapes tree names).constraints
  rw [← h.shapes.2] at hreduce
  exact hreduce

theorem Bridges.types : typeTree options tree others =
    ((typeTree options tree names).map (Node.map (Typed.rename ρ))).mapError
      (TypingError.rename ρ) := by
  unfold typeTree
  rw [h.shapes.1, (h.reduction options).entries, simplify_rename, retype_rename]

theorem Bridges.outcome : SameUpTo ρ (check options names tree) (check options others tree) := by
  have htypes := h.types options
  cases htyped : typeTree options tree names with
  | error reason =>
    rw [htyped] at htypes
    rw [check_of_error htyped, check_of_error htypes]
    exact .stopped reason
  | ok typed =>
    rw [htyped] at htypes
    obtain ⟨checked, hchecked, hnode, hdiagnostics, hconstraints, hentries⟩ := check_of_ok htyped
    obtain ⟨other, hother, hnode', hdiagnostics', hconstraints', hentries'⟩ := check_of_ok htypes
    have hrenamed : other.entries = checked.entries.rename ρ (Entry.rename ρ ρ) := by
      rw [hentries', hentries, (h.reduction options).entries]
    rw [hchecked, hother]
    refine .checked ⟨?_, hrenamed, ?_, ?_, ?_⟩
    · rw [hconstraints', hconstraints, h.shapes.2]
    · rw [values_of_check hother, hrenamed, simplify_rename, values_of_check hchecked]
    · rw [hdiagnostics', hdiagnostics, (h.reduction options).diagnostics, buildScopes_rename,
        Resolved.reports_rename h.placeholder, List.map_append]
    · rw [hnode', hnode, buildScopes_rename, Resolved.resolved_rename h.placeholder]

end Bridge

/-- The choice of fresh names is irrelevant: the names of two sources are renamings of each other, and
every renaming of the one into the other takes the outcome of a check to that of the other. -/
theorem fresh_names_are_irrelevant (options : Options) (tree : Node D) (names : σ) (others : τ)
    (hnames : Fresh tree (generated tree names)) (hothers : Fresh tree (generated tree others)) :
    (∃ ρ, Bridges tree (generated tree names) (generated tree others) ρ) ∧
      ∀ ρ, Bridges tree (generated tree names) (generated tree others) ρ →
        SameUpTo ρ (check options names tree) (check options others tree) :=
  ⟨exists_bridge hnames hothers, fun _ h => h.outcome options⟩

/-- A name that does not start like a placeholder is none. -/
theorem Fresh.of_starts {made : List String} (hnodup : made.Nodup)
    (hunwritten : ∀ name ∈ made, name ∉ tree.writtenNames)
    (hstarts : ∀ name ∈ made, ¬ "implicit$".toList <+: name.toList) : Fresh tree made := by
  refine ⟨hnodup, hunwritten, ?_⟩
  rintro name hname k rfl
  apply hstarts _ hname
  rw [Candidate.placeholder, String.toList_append]
  exact List.prefix_append _ _

structure Row where
  next : Nat := 0

instance : NameSource Row := ⟨fun _ row => ("t" ++ toString row.next, ⟨row.next + 1⟩)⟩

theorem neededTwice_fresh_names_are_irrelevant :
    Fresh neededTwice (generated neededTwice ({} : Counter)) ∧
      Fresh neededTwice (generated neededTwice ({} : Row)) ∧
      ∃ ρ, Bridges neededTwice (generated neededTwice ({} : Counter))
          (generated neededTwice ({} : Row)) ρ ∧
        SameUpTo ρ (check {} ({} : Counter) neededTwice) (check {} ({} : Row) neededTwice) := by
  have hcounter : Fresh neededTwice (generated neededTwice ({} : Counter)) :=
    .of_starts (by decide +kernel) (by decide +kernel) (by decide +kernel)
  have hrow : Fresh neededTwice (generated neededTwice ({} : Row)) :=
    .of_starts (by decide +kernel) (by decide +kernel) (by decide +kernel)
  obtain ⟨⟨ρ, hbridges⟩, hsame⟩ :=
    fresh_names_are_irrelevant {} neededTwice ({} : Counter) ({} : Row) hcounter hrow
  exact ⟨hcounter, hrow, ρ, hbridges, hsame ρ hbridges⟩

end Check

end ImplicitInference
