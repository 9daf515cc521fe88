import ImplicitInference.Proofs.Completion
import ImplicitInference.Proofs.Correspondence
import ImplicitInference.Proofs.Matching

/-!
Renaming and the later passes. Typing, the scopes and the resolution of implicit parameters look
variables up and compare values, but never look at how a variable is called, so they make of renamed
input what they make of the input, renamed. Typing stops at the same node, and a scope keeps the names
that it binds. The trials of resolution have placeholders of their own, which a renaming must keep.
-/

namespace ImplicitInference

section Typing

variable (ρ : Equiv.Perm String) (origins : String → String)

def Typed.rename (d : Typed) : Typed := ⟨d.shape.rename ρ, d.type.rename ρ⟩

def TypingError.rename : TypingError → TypingError
  | missingShape name => missingShape (ρ name)
  | emptyNative name => emptyNative (ρ name)

theorem Value.substitute_rename (v : Value) (values : Table Value) :
    (v.rename ρ).substitute (values.rename ρ (rename ρ)) = (v.substitute values).rename ρ := by
  rw [substitute, subst_rename, substitute, rename, subst_subst]
  apply subst_congr
  intro name _
  rw [Table.get?_rename]
  cases values.get? name with
  | none => exact (rename_var ρ name).symm
  | some found => rfl

variable (entries : Table Entry) (values : Table Value)

theorem Typed.ofShaped_rename (shaped : Shaped) :
    ofShaped (entries.rename ρ (Entry.rename ρ origins)) (values.rename ρ (Value.rename ρ))
        (shaped.rename ρ) =
      ((ofShaped entries values shaped).map (rename ρ)).mapError (TypingError.rename ρ) := by
  unfold ofShaped
  rw [show (shaped.rename ρ).name = ρ shaped.name from rfl, Table.get?_rename, Table.get?_rename]
  cases entries.get? shaped.name with
  | none => rfl
  | some entry =>
    cases values.get? shaped.name with
    | none => rfl
    | some shape =>
      have hshape : (if (entry.rename ρ origins).isConsumed then (shape.rename ρ).stripImplicits
          else shape.rename ρ) =
            (if entry.isConsumed then shape.stripImplicits else shape).rename ρ := by
        rw [Entry.isConsumed_rename, Value.stripImplicits_rename]
        split <;> rfl
      have htype : (shaped.rename ρ).type.substitute (values.rename ρ (Value.rename ρ)) =
          (shaped.type.substitute values).rename ρ := Value.substitute_rename ρ shaped.type values
      simp only [Option.map_some, hshape, htype]
      rfl

theorem Typed.given_rename (shaped : Shaped) :
    given (entries.rename ρ (Entry.rename ρ origins)) (values.rename ρ (Value.rename ρ))
      (shaped.rename ρ) = (given entries values shaped).rename ρ := by
  rw [given, ofShaped_rename, given]
  cases ofShaped entries values shaped <;> rfl

theorem Typed.stop?_rename {α : Type} (e : Expr α) (shaped : Shaped) :
    stop? (entries.rename ρ (Entry.rename ρ origins)) (values.rename ρ (Value.rename ρ)) e
      (shaped.rename ρ) = (stop? entries values e shaped).map (TypingError.rename ρ) := by
  rw [stop?, ofShaped_rename, stop?]
  by_cases hempty : e.isEmptyNative
  · rw [if_pos hempty, if_pos hempty]
    rfl
  · rw [if_neg hempty, if_neg hempty]
    cases ofShaped entries values shaped <;> rfl

theorem stop?_rename (shaped : Node Shaped) :
    stop? (entries.rename ρ (Entry.rename ρ origins)) (values.rename ρ (Value.rename ρ))
      (shaped.map (Shaped.rename ρ)) = (stop? entries values shaped).map (TypingError.rename ρ) := by
  induction shaped using Node.induction with
  | mk e d ih =>
    have hchildren : e.children.findSome? (stop? (entries.rename ρ (Entry.rename ρ origins))
        (values.rename ρ (Value.rename ρ)) ∘ Node.map (Shaped.rename ρ)) =
          (e.children.findSome? (stop? entries values)).map (TypingError.rename ρ) := by
      rw [List.map_findSome?]
      exact findSome?_congr ih
    rw [Node.map_mk, stop?_mk, stop?_mk, Expr.children_map, List.findSome?_map, hchildren,
      Typed.stop?_map, Typed.stop?_rename, Option.map_or]

/-- Typing stops at the same node or gives the same types, renamed. -/
theorem retype_rename (shaped : Node Shaped) :
    retype (entries.rename ρ (Entry.rename ρ origins)) (values.rename ρ (Value.rename ρ))
        (shaped.map (Shaped.rename ρ)) =
      ((retype entries values shaped).map (Node.map (Typed.rename ρ))).mapError
        (TypingError.rename ρ) := by
  have hgiven : (shaped.map (Shaped.rename ρ)).map (Typed.given
      (entries.rename ρ (Entry.rename ρ origins)) (values.rename ρ (Value.rename ρ))) =
        (shaped.map (Typed.given entries values)).map (Typed.rename ρ) := by
    rw [Node.map_map, Node.map_map]
    exact Node.map_congr fun m _ => Typed.given_rename ρ origins entries values m.decoration
  rw [retype_eq_elim, retype_eq_elim, stop?_rename, hgiven]
  cases stop? entries values shaped <;> rfl

end Typing

section Scopes

variable (ρ : Equiv.Perm String)

mutual
/-- Renames all values that can be found in a binding; what is bound keeps its name. -/
def Binding.rename : Binding → Binding
  | ⟨type, scope, node⟩ =>
    ⟨type.rename ρ, Scope.rename scope, node.map (Node.map (Typed.rename ρ))⟩
def Scope.rename : Table Binding → Table Binding
  | ⟨rows⟩ => ⟨Scope.renameRows rows⟩
def Scope.renameRows : List (String × Binding) → List (String × Binding)
  | [] => []
  | (name, binding) :: rest => (name, binding.rename) :: Scope.renameRows rest
end

theorem Scope.rename_eq (scope : Scope) : Scope.rename ρ scope = scope.map (Binding.rename ρ) := by
  obtain ⟨rows⟩ := scope
  rw [Scope.rename]
  refine congrArg Table.mk ?_
  induction rows with
  | nil => rw [Scope.renameRows]; rfl
  | cons row rest ih => rw [Scope.renameRows, ih]; rfl

theorem Binding.rename_mk (type : Value) (scope : Scope) (node : Option (Node Typed)) :
    Binding.rename ρ ⟨type, scope, node⟩ =
      ⟨type.rename ρ, scope.map (Binding.rename ρ), node.map (Node.map (Typed.rename ρ))⟩ := by
  rw [Binding.rename, Scope.rename_eq]

theorem Scope.extend_rename (scope : Scope) (bindings : List (String × Binding)) :
    Scope.extend (scope.map (Binding.rename ρ)) (bindings.map (Prod.map id (Binding.rename ρ))) =
      (scope.extend bindings).map (Binding.rename ρ) := by
  induction bindings generalizing scope with
  | nil => rfl
  | cons binding rest ih =>
    have happend : Table.append (scope.map (Binding.rename ρ)) binding.1 (binding.2.rename ρ) =
        (Table.append scope binding.1 binding.2).map (Binding.rename ρ) := by
      simp [Table.append, Table.erase, Table.map, List.filter_map, Function.comp_def]
    exact (congrArg (Scope.extend · _) happend).trans (ih _)

theorem Scope.ofPattern_rename (scope : Scope) (pattern : Node Typed) :
    Scope.ofPattern (scope.map (Binding.rename ρ)) (pattern.map (Typed.rename ρ)) =
      (scope.ofPattern pattern).map (Prod.map id (Binding.rename ρ)) := by
  rw [ofPattern, Node.boundIdentifiers_map, ofPattern, List.map_map, List.map_map]
  apply List.map_congr_left
  intro bound _
  exact congrArg (bound.1, ·) (Binding.rename_mk ρ bound.2.type scope none).symm

def Scoped.rename (d : Scoped) : Scoped :=
  ⟨d.shape.rename ρ, d.type.rename ρ, d.scope.map (Binding.rename ρ)⟩

/-- The children of a renamed layer stand in renamed scopes. -/
theorem Scoped.enter_rename {β : Type} {g : β → β} {scope : Scope}
    {e : Expr (Node Typed × (Scope → β))} {k : Node Typed × (Scope → β) → Scope → β}
    (h : ∀ child ∈ e.children, ∀ inner : Scope,
      k child (inner.map (Binding.rename ρ)) = g (child.2 inner)) :
    enter (scope.map (Binding.rename ρ))
        (e.map fun child => (child.1.map (Typed.rename ρ), k child)) =
      (enter scope e).map g := by
  have hdirect : (e.map fun child => (child.1.map (Typed.rename ρ), k child)).map
      (fun child => child.2 (scope.map (Binding.rename ρ))) =
        (e.map fun child => child.2 scope).map g := by
    rw [Expr.map_map, Expr.map_map]
    exact Expr.map_congr fun child hchild => h child hchild scope
  have hpattern : ∀ pattern : Node Typed,
      Scope.extend (scope.map (Binding.rename ρ))
          (Scope.ofPattern (scope.map (Binding.rename ρ)) (pattern.map (Typed.rename ρ))) =
        (scope.extend (scope.ofPattern pattern)).map (Binding.rename ρ) := by
    intro pattern
    rw [Scope.ofPattern_rename, Scope.extend_rename]
  cases e with
  | identifier name => exact hdirect
  | native implementations => exact hdirect
  | binding name value body =>
    have hbinding : Scope.extend (scope.map (Binding.rename ρ))
        [(name, ⟨(value.1.map (Typed.rename ρ)).decoration.type, scope.map (Binding.rename ρ),
          some (value.1.map (Typed.rename ρ))⟩)] =
          (scope.extend [(name, ⟨value.1.decoration.type, scope, some value.1⟩)]).map
            (Binding.rename ρ) := by
      rw [Node.decoration_map, ← Scope.extend_rename]
      exact congrArg (fun binding => Scope.extend _ [(name, binding)])
        (Binding.rename_mk ρ value.1.decoration.type scope (some value.1)).symm
    simp only [enter, Expr.map, hbinding, h value (by simp [Expr.children]),
      h body (by simp [Expr.children])]
  | form layer =>
    cases layer with
    | function plicity parameter body =>
      simp only [enter, Expr.map, Form.map, hpattern,
        h parameter (by simp [Expr.children, Form.children]),
        h body (by simp [Expr.children, Form.children])]
    | choice subject arms =>
      simp only [enter, Expr.map, Form.map, h subject (by simp [Expr.children, Form.children]),
        List.map_map]
      congr 2
      apply List.map_congr_left
      intro arm harm
      have hparts : ∀ part ∈ [arm.1, arm.2], ∀ inner : Scope,
          k part (inner.map (Binding.rename ρ)) = g (part.2 inner) := fun part hpart =>
        h part (List.mem_cons_of_mem _ (List.mem_flatMap.mpr ⟨arm, harm, hpart⟩))
      simp only [Function.comp_apply, hpattern, hparts arm.1 (by simp), hparts arm.2 (by simp)]
    | _ => exact hdirect

theorem Scoped.within_rename (tree : Node Typed) (scope : Scope) :
    within (tree.map (Typed.rename ρ)) (scope.map (Binding.rename ρ)) =
      (within tree scope).map (Scoped.rename ρ) := by
  induction tree using Node.induction generalizing scope with
  | mk e d ih =>
    have hchildren : enter (scope.map (Binding.rename ρ))
        ((e.map (Node.map (Typed.rename ρ))).map fun node => (node, within node)) =
          (enter scope (e.map fun node => (node, within node))).map (Node.map (Scoped.rename ρ)) := by
      rw [← enter_rename ρ (k := fun child => within (child.1.map (Typed.rename ρ)))]
      · rw [Expr.map_map, Expr.map_map]
        rfl
      · intro child hchild inner
        rw [Expr.children_map] at hchild
        obtain ⟨node, hnode, rfl⟩ := List.mem_map.mp hchild
        exact ih node hnode inner
    rw [Node.map_mk, within, Node.para_mk, ← within, hchildren, within, Node.para_mk, ← within,
      Node.map_mk]
    rfl

theorem buildScopes_rename (tree : Node Typed) :
    buildScopes (tree.map (Typed.rename ρ)) = (buildScopes tree).map (Scoped.rename ρ) :=
  Scoped.within_rename ρ tree Table.empty

end Scopes

section Resolution

variable (ρ : Equiv.Perm String)

theorem Value.builtinInstance?_rename (v : Value) :
    (v.rename ρ).builtinInstance? = v.builtinInstance? := by
  by_cases hclosed : v.occurrences = []
  · have hsame : v.rename ρ = v := by
      apply subst_eq_self
      intro name hname
      simp [hclosed] at hname
    rw [hsame]
  · have hnone : ∀ w : Value, w.occurrences ≠ [] → w.builtinInstance? = none := by
      intro w hw
      apply Option.eq_none_iff_forall_ne_some.mpr
      intro name hsome
      exact hw (Candidate.rigid_of_builtinInstance hsome).1
    rw [hnone v hclosed, hnone]
    rw [occurrences_rename]
    simpa using hclosed

namespace Candidate

def rename (candidate : Candidate) : Candidate := (candidate.1, candidate.2.rename ρ)

theorem satisfies_rename (type requirement : Value) :
    satisfies (type.rename ρ) (requirement.rename ρ) = satisfies type requirement := by
  have hfree : ∀ name, ρ name ∈ (type.rename ρ).freeVariables ↔ name ∈ type.freeVariables := by
    intro name
    rw [Value.mem_freeVariables, Value.mem_freeVariables, Value.occurrences_rename,
      List.mem_map_of_injective ρ.injective]
  simp [satisfies, Value.asVar?_rename, Value.unify_rename, Unified.rename, Function.comp_def, hfree]

theorem forRequirement_rename (options : Options) (scope : Scope) (requirement : Value) :
    forRequirement options (scope.map (Binding.rename ρ)) (requirement.rename ρ) =
      (forRequirement options scope requirement).map (rename ρ) := by
  have htype : ∀ binding : Binding, (binding.rename ρ).type = binding.type.rename ρ := by
    intro ⟨type, scope, node⟩
    rw [Binding.rename_mk]
  unfold forRequirement
  rw [Value.builtinInstance?_rename]
  cases if options.builtinInstances then requirement.builtinInstance? else none with
  | some name => rfl
  | none =>
    simp only [Table.map, List.filter_map, List.map_map, Function.comp_def, htype, satisfies_rename]
    rfl

theorem combinations_map {α β : Type} (f : α → β) (choices : List (List α)) :
    combinations (choices.map (List.map f)) = (combinations choices).map (List.map f) := by
  induction choices with
  | nil => rfl
  | cons list rest ih =>
    simp only [List.map_cons, combinations, ih, List.flatMap_map, List.map_flatMap, List.map_map]
    rfl

/-- A trial is about the same facts, renamed, when its placeholders keep their names. -/
theorem facts_rename (hfixed : ∀ k, ρ (placeholder k) = placeholder k) (requirements : List Value)
    (combination : List Candidate) :
    facts (requirements.map (Value.rename ρ)) (combination.map (rename ρ)) =
      (facts requirements combination).map (Constraint.rename ρ id) := by
  rw [facts_eq, facts_eq, List.zip_map, List.zipIdx_map, List.flatMap_map, List.map_flatMap]
  congr 1
  funext row
  simp [trial, stands, wanted, Constraint.rename, rename, hfixed]

end Candidate

theorem Scoped.requirements_rename (here : Scoped) :
    (here.rename ρ).requirements = here.requirements.map (Value.rename ρ) := by
  unfold requirements excess rename
  simp only [Value.implicitParameters_rename, Value.implicitCount_rename, List.map_take]

namespace Resolved

def rename (d : Resolved) : Resolved where
  type := d.type.rename ρ
  scope := d.scope.map (Binding.rename ρ)
  supplied := d.supplied.map (Candidate.rename ρ)

theorem supply_rename (node : Node Resolved) (candidate : Candidate) :
    supply (node.map (rename ρ)) (candidate.rename ρ) = (supply node candidate).map (rename ρ) := by
  have htype : (node.decoration.rename ρ).type.stripLayer?.getD (node.decoration.rename ρ).type =
      (node.decoration.type.stripLayer?.getD node.decoration.type).rename ρ := by
    show (node.decoration.type.rename ρ).stripLayer?.getD _ = _
    rw [Value.stripLayer?_rename]
    cases node.decoration.type.stripLayer? <;> rfl
  simp only [supply, Node.decoration_map, htype, Node.map_mk]
  simp [Expr.map, Form.map, Node.map_mk, Candidate.rename, rename]

theorem supplyAll_rename (node : Node Resolved) (combination : List Candidate) :
    supplyAll (node.map (rename ρ)) (combination.map (Candidate.rename ρ)) =
      (supplyAll node combination).map (rename ρ) := by
  have hresult : (combination.map (Candidate.rename ρ)).foldr
      (fun candidate node => supply node candidate) (node.map (rename ρ)) =
        (combination.foldr (fun candidate node => supply node candidate) node).map (rename ρ) := by
    induction combination with
    | nil => rfl
    | cons candidate rest ih =>
      rw [List.map_cons, List.foldr_cons, ih, supply_rename, List.foldr_cons]
  rw [supplyAll, hresult, supplyAll, Node.map_mk, Node.expression_map, Node.decoration_map]
  rfl

end Resolved

variable {ρ} (hfixed : ∀ k, ρ (Candidate.placeholder k) = Candidate.placeholder k)
  (options : Options)

include hfixed

theorem Scoped.supplies_rename (here : Scoped) :
    (here.rename ρ).supplies options =
      (here.supplies options).map (List.map (Candidate.rename ρ)) := by
  have hchoices : (here.requirements.map (Value.rename ρ)).map
      (Candidate.forRequirement options (here.rename ρ).scope) =
        (here.requirements.map (Candidate.forRequirement options here.scope)).map
          (List.map (Candidate.rename ρ)) := by
    rw [List.map_map, List.map_map]
    exact List.map_congr_left fun requirement _ =>
      Candidate.forRequirement_rename ρ options here.scope requirement
  have hsilent : ∀ combination : List Candidate,
      (reduce options (Candidate.facts (here.requirements.map (Value.rename ρ))
        (combination.map (Candidate.rename ρ)))).diagnostics.isEmpty =
          (reduce options (Candidate.facts here.requirements combination)).diagnostics.isEmpty := by
    intro combination
    rw [Candidate.facts_rename ρ hfixed, (reduce_rename ρ id options _).diagnostics,
      List.isEmpty_map]
  unfold supplies Candidate.valid Candidate.trials
  rw [requirements_rename, hchoices, Candidate.combinations_map]
  simp only [List.filter_map, List.map_map, Function.comp_def, hsilent]

namespace Resolved

theorem settle_rename (e : Expr (Node Resolved)) (here : Scoped) :
    settle options (e.map (Node.map (rename ρ))) (here.rename ρ) =
      (settle options e here).map (rename ρ) := by
  have hbare : bare (e.map (Node.map (rename ρ))) (here.rename ρ) = (bare e here).map (rename ρ) := by
    rw [bare, bare, Node.map_mk]
    rfl
  unfold settle
  rw [Scoped.requirements_rename, List.isEmpty_map, Scoped.supplies_rename hfixed, hbare]
  by_cases hnone : here.requirements.isEmpty
  · rw [if_pos hnone, if_pos hnone]
  · rw [if_neg hnone, if_neg hnone]
    rcases here.supplies options with _ | ⟨combination, _ | ⟨other, rest⟩⟩
    · rfl
    · exact supplyAll_rename ρ (bare e here) combination
    · rfl

theorem report_rename (here : Scoped) :
    report options (here.rename ρ) = (report options here).map (Diagnostic.rename ρ) := by
  unfold report
  rw [Scoped.requirements_rename, List.isEmpty_map, Scoped.supplies_rename hfixed]
  by_cases hnone : here.requirements.isEmpty
  · rw [if_pos hnone, if_pos hnone]
    rfl
  · rw [if_neg hnone, if_neg hnone]
    rcases here.supplies options with _ | ⟨combination, _ | ⟨other, rest⟩⟩
    · rfl
    · rfl
    · simp [Diagnostic.rename]

theorem resolved_rename (tree : Node Scoped) :
    resolved options (tree.map (Scoped.rename ρ)) = (resolved options tree).map (rename ρ) := by
  induction tree using Node.induction with
  | mk e here ih =>
    have hchildren : (e.map (Node.map (Scoped.rename ρ))).map (resolved options) =
        (e.map (resolved options)).map (Node.map (rename ρ)) := by
      rw [Expr.map_map, Expr.map_map]
      exact Expr.map_congr ih
    rw [Node.map_mk, resolved_mk, resolved_mk, hchildren, settle_rename hfixed]

theorem reports_rename (tree : Node Scoped) :
    reports options (tree.map (Scoped.rename ρ)) =
      (reports options tree).map (Diagnostic.rename ρ) := by
  induction tree using Node.induction with
  | mk e here ih =>
    have hchildren : (e.children.map (Node.map (Scoped.rename ρ))).flatMap (reports options) =
        (e.children.flatMap (reports options)).map (Diagnostic.rename ρ) := by
      rw [List.flatMap_map, List.map_flatMap]
      exact List.flatMap_congr ih
    rw [Node.map_mk, reports_mk, reports_mk, Expr.children_map, hchildren, report_rename hfixed,
      List.map_append]

end Resolved

end Resolution

end ImplicitInference
