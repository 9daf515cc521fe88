import ImplicitInference.Proofs.Erasure
import ImplicitInference.Proofs.Expansion

/-!
What all values of a checked tree are made of. Shapes are drawn from the layers of types, and every
later pass keeps to the layers it is given: merging, substitution, the removal of implicit parameters,
and the choice of what to supply. So types come out as types, without duals, applications, reads or
choices. If the tree has no implicit function, then no value has one, so no node needs anything
supplied, and resolution changes and reports nothing.
-/

namespace ImplicitInference

section Entries

variable {sig : Signature}

structure Entry.Within (sig : Signature) (e : Entry) : Prop where
  value : e.value.Within sig
  sources : ∀ source ∈ e.sources, source.value.Within sig

namespace Reduction

variable {r t : Reduction} {c : Constraint} {queue learned : List Constraint}

theorem Step.withinSources (h : Step r c t learned)
    (hr : ∀ entry ∈ r.entries.values, entry.Within sig) (hc : c.value.Within sig) :
    (∀ entry ∈ t.entries.values, entry.Within sig) ∧ ∀ fact ∈ learned, fact.value.Within sig := by
  cases h with
  | trivial _ => exact ⟨hr, List.forall_mem_nil _⟩
  | repeated _ => exact ⟨hr, List.forall_mem_nil _⟩
  | opened _ =>
    refine ⟨?_, List.forall_mem_nil _⟩
    intro entry hentry
    rcases Table.mem_values_insert hentry with rfl | hold
    · exact ⟨hc, List.forall_mem_singleton.mpr hc⟩
    · exact hr entry hold
  | @merged old _ hget =>
    have hold := hr old (Table.mem_values_of_get? hget)
    obtain ⟨hvalue, hfacts⟩ := Entry.within_merge hold.value hc
    refine ⟨?_, fun fact hmem => (hfacts fact hmem).1.2⟩
    intro entry hentry
    rcases Table.mem_values_insert hentry with rfl | hother
    · exact ⟨hvalue, List.forall_mem_append.mpr
        ⟨hold.sources, List.forall_mem_singleton.mpr hc⟩⟩
    · exact hr entry hother

structure Within (sig : Signature) (r : Reduction) (queue : List Constraint) : Prop where
  entries : ∀ entry ∈ r.entries.values, entry.Within sig
  queue : ∀ c ∈ queue, c.value.Within sig

theorem Within.step (h : Within sig r (c :: queue)) :
    Within sig (r.step c).1 (queue ++ (r.step c).2) := by
  obtain ⟨hc, hqueue⟩ := List.forall_mem_cons.mp h.queue
  obtain ⟨hnext, hlearned⟩ := (step_taken r c).withinSources h.entries hc
  exact ⟨hnext, List.forall_mem_append.mpr ⟨hqueue, hlearned⟩⟩

end Reduction

theorem within_reduce (options : Options) {constraints : List Constraint}
    (h : ∀ c ∈ constraints, c.value.Within sig) :
    ∀ entry ∈ (reduce options constraints).entries.values, entry.Within sig := by
  have hstart : Reduction.Within sig {} constraints := ⟨List.forall_mem_nil _, h⟩
  rw [entries_reduce]
  exact (Reduction.State.keeps (Reduction.Within sig) (fun _ _ _ => Reduction.Within.step) hstart
    options.reductionLimit).entries

variable {entries : Table Entry}

theorem within_expand (hnames : ∀ name, sig.names name)
    (h : ∀ entry ∈ entries.values, entry.value.Within sig) (outer : List String) (name : String) :
    (expand entries outer name).Within sig := by
  fun_induction expand entries outer name with
  | case1 outer name _ => exact Value.within_var.mpr (hnames name)
  | case2 outer name _ _ _ => exact Value.within_var.mpr (hnames name)
  | case3 outer name entry hentry _ ih =>
    have hvalue := (h entry (Table.mem_values_of_get? hentry)).subst fun other _ => ih other
    unfold Entry.settle
    by_cases hrelation : entry.relation = .evaluatedFrom
    · rw [if_pos hrelation]
      exact hvalue.stripImplicits
    · rw [if_neg hrelation]
      exact hvalue

theorem within_simplify (hnames : ∀ name, sig.names name)
    (h : ∀ entry ∈ entries.values, entry.value.Within sig) :
    ∀ v ∈ (simplify entries).values.values, v.Within sig := by
  intro v hv
  rw [Simplification.simplify_values, Table.values, List.map_map] at hv
  obtain ⟨name, -, rfl⟩ := List.mem_map.mp hv
  exact within_expand hnames h [] name

end Entries

section Typing

structure Typed.Within (sig : Signature) (d : Typed) : Prop where
  shape : d.shape.Within sig
  type : d.type.Within sig

variable {sig : Signature} {entries : Table Entry} {values : Table Value}

theorem within_ofShaped {shaped : Shaped} {typed : Typed} (hnames : ∀ name, sig.names name)
    (hvalues : ∀ v ∈ values.values, v.Within sig) (hshaped : shaped.type.Within sig)
    (h : Typed.ofShaped entries values shaped = .ok typed) : typed.Within sig := by
  unfold Typed.ofShaped at h
  split at h
  · rename_i entry shape _ hshape
    cases h
    have hwithin := hvalues shape (Table.mem_values_of_get? hshape)
    constructor
    · show (if entry.isConsumed then shape.stripImplicits else shape).Within sig
      by_cases hconsumed : entry.isConsumed
      · rw [if_pos hconsumed]
        exact hwithin.stripImplicits
      · rw [if_neg hconsumed]
        exact hwithin
    · apply hshaped.subst
      intro name _
      cases hget : values.get? name with
      | none => exact Value.within_var.mpr (hnames name)
      | some v => exact hvalues v (Table.mem_values_of_get? hget)
  · cases h

theorem within_retype {shaped : Node Shaped} {typed : Node Typed} (hnames : ∀ name, sig.names name)
    (hvalues : ∀ v ∈ values.values, v.Within sig)
    (hshaped : ∀ m ∈ shaped.toList, m.decoration.type.Within sig)
    (h : retype entries values shaped = .ok typed) :
    ∀ m ∈ typed.toList, m.decoration.Within sig := by
  obtain ⟨rfl, hok⟩ := retype_ok h
  intro m hm
  rw [Node.toList_map] at hm
  obtain ⟨n, hn, rfl⟩ := List.mem_map.mp hm
  rw [Node.decoration_map]
  exact within_ofShaped hnames hvalues (hshaped n hn) (hok n hn)

end Typing

section Scopes

/-- All that can be found in a binding, also through the scope that it was introduced in. -/
inductive Binding.Within (sig : Signature) : Binding → Prop
  | mk {type : Value} {scope : Table Binding} {node : Option (Node Typed)}
      (htype : type.Within sig) (hscope : ∀ row ∈ scope.toList, Binding.Within sig row.2)
      (hnode : ∀ value ∈ node, ∀ m ∈ value.toList, m.decoration.Within sig) :
      Binding.Within sig ⟨type, scope, node⟩

def Scope.Within (sig : Signature) (scope : Scope) : Prop :=
  ∀ row ∈ scope.toList, row.2.Within sig

structure Scoped.Within (sig : Signature) (d : Scoped) : Prop where
  type : d.type.Within sig
  scope : d.scope.Within sig

variable {sig : Signature} {scope : Scope}

theorem Binding.Within.type {b : Binding} (h : b.Within sig) : b.type.Within sig := by
  cases h with
  | mk htype _ _ => exact htype

theorem Scope.Within.extend {bindings : List (String × Binding)} (h : scope.Within sig)
    (hbindings : ∀ binding ∈ bindings, binding.2.Within sig) :
    (scope.extend bindings).Within sig := by
  induction bindings generalizing scope with
  | nil => exact h
  | cons binding bindings ih =>
    obtain ⟨hfirst, hrest⟩ := List.forall_mem_cons.mp hbindings
    apply ih _ hrest
    intro row hrow
    rcases List.mem_append.mp hrow with hold | hnew
    · exact h row (List.mem_filter.mp hold).1
    · rw [List.mem_singleton.mp hnew]
      exact hfirst

theorem Node.exists_of_mem_boundIdentifiers {D : Type} {n : Node D} {bound : String × D}
    (h : bound ∈ n.boundIdentifiers) :
    ∃ m ∈ n.toList, m.expression = .identifier bound.1 ∧ m.decoration = bound.2 := by
  induction n using Node.induction with
  | mk e d ih =>
    have hparts : ∀ parts : List (List (String × D)),
        parts ⊆ e.children.map boundIdentifiers → bound ∈ parts.flatten →
          ∃ m ∈ toList ⟨e, d⟩, m.expression = .identifier bound.1 ∧ m.decoration = bound.2 := by
      intro parts hsubset hbound
      obtain ⟨part, hpart, hmem⟩ := List.mem_flatten.mp hbound
      obtain ⟨child, hchild, rfl⟩ := List.mem_map.mp (hsubset hpart)
      obtain ⟨m, hm, hfound⟩ := ih child hchild hmem
      exact ⟨m, mem_toList_mk.mpr (.inr ⟨child, hchild, hm⟩), hfound⟩
    rw [boundIdentifiers, fold_mk] at h
    cases e with
    | identifier name =>
      rw [List.mem_singleton.mp h]
      exact ⟨_, mem_toList_self _, rfl, rfl⟩
    | native implementations => cases h
    | binding name value body => exact hparts _ (List.Subset.refl _) h
    | form layer =>
      cases layer with
      | data name parameters => exact hparts _ (List.subset_cons_self _ _) h
      | _ => exact hparts _ (by rw [← Expr.children_map]; exact List.Subset.refl _) h

theorem Scope.Within.extend_ofPattern {pattern : Node Typed} (h : scope.Within sig)
    (hpattern : ∀ m ∈ pattern.toList, m.decoration.Within sig) :
    (scope.extend (scope.ofPattern pattern)).Within sig := by
  apply h.extend
  intro binding hbinding
  obtain ⟨bound, hbound, rfl⟩ := List.mem_map.mp hbinding
  obtain ⟨m, hm, -, hdecoration⟩ := Node.exists_of_mem_boundIdentifiers hbound
  refine .mk ?_ h nofun
  rw [← hdecoration]
  exact (hpattern m hm).type

theorem Scope.Within.extend_value {value : Node Typed} {name : String} (h : scope.Within sig)
    (hvalue : ∀ m ∈ value.toList, m.decoration.Within sig) :
    (scope.extend [(name, ⟨value.decoration.type, scope, some value⟩)]).Within sig := by
  apply h.extend
  refine List.forall_mem_singleton.mpr (.mk (hvalue value (Node.mem_toList_self value)).type h ?_)
  rintro _ ⟨⟩
  exact hvalue

theorem within_scoped {tree : Node Typed} (htree : ∀ m ∈ tree.toList, m.decoration.Within sig)
    (hscope : scope.Within sig) :
    ∀ n ∈ (Scoped.within tree scope).toList, n.decoration.Within sig := by
  intro n hn
  have hparts : ∀ m ∈ tree.toList, ∀ k ∈ m.toList, k.decoration.Within sig :=
    fun m hm k hk => htree k (Node.mem_toList_trans hk hm)
  have hinner := Scoped.scope_keeps (I := Scope.Within sig) hscope
    (fun m hm _ houter => houter.extend_ofPattern (hparts m hm))
    (fun m hm _ _ houter => houter.extend_value (hparts m hm)) n hn
  have hmem : n.map Scoped.typed ∈ tree.toList := by
    rw [← Scoped.map_within tree scope, Node.toList_map]
    exact List.mem_map_of_mem hn
  have htype := (htree _ hmem).type
  rw [Node.decoration_map] at htype
  exact ⟨htype, hinner⟩

end Scopes

section Resolution

structure Resolved.Within (sig : Signature) (d : Resolved) : Prop where
  type : d.type.Within sig
  scope : d.scope.Within sig
  supplied : ∀ candidate ∈ d.supplied, candidate.2.Within sig

open Resolved

variable {sig : Signature} {options : Options}

/-- What is supplied is what is required or the type of a binding. -/
theorem within_forRequirement {scope : Scope} {requirement : Value} {candidate : Candidate}
    (hscope : scope.Within sig) (hrequirement : requirement.Within sig)
    (h : candidate ∈ Candidate.forRequirement options scope requirement) :
    candidate.2.Within sig := by
  rcases Candidate.forRequirement_cases options requirement with ⟨name, -, -, hall⟩ | ⟨-, hall⟩
  · rw [hall, List.mem_singleton] at h
    rw [h]
    exact hrequirement
  · rw [hall, List.mem_filter] at h
    obtain ⟨binding, hbinding, rfl⟩ := List.mem_map.mp h.1
    exact (hscope binding hbinding).type

theorem within_supplies {here : Scoped} {combination : List Candidate} (h : here.Within sig)
    (hmem : combination ∈ here.supplies options) :
    ∀ candidate ∈ combination, candidate.2.Within sig := by
  have hrequirements : ∀ requirement ∈ here.requirements, requirement.Within sig := by
    intro requirement hrequirement
    exact h.type.implicitParameters requirement (List.mem_of_mem_take hrequirement)
  obtain ⟨hall, -⟩ := Scoped.mem_supplies_iff.mp hmem
  clear hmem
  generalize here.requirements = requirements at hall hrequirements
  induction hall with
  | nil => exact List.forall_mem_nil _
  | cons hcandidate _ ih =>
    obtain ⟨hfirst, hrest⟩ := List.forall_mem_cons.mp hrequirements
    exact List.forall_mem_cons.mpr
      ⟨within_forRequirement h.scope hfirst hcandidate, ih hrest⟩

theorem Value.Within.peel {v : Value} (h : v.Within sig) : v.peel.Within sig := by
  unfold Value.peel Value.stripLayer?
  split
  · exact h.child (by simp [Form.children])
  · exact h

theorem within_supplied {node : Node Resolved} {combination : List Candidate}
    (hnode : ∀ n ∈ node.toList, n.decoration.Within sig)
    (hcombination : ∀ candidate ∈ combination, candidate.2.Within sig) :
    ∀ n ∈ (combination.foldr (fun candidate node => supply node candidate) node).toList,
      n.decoration.Within sig := by
  induction combination with
  | nil => exact hnode
  | cons candidate rest ih =>
    obtain ⟨hcandidate, hrest⟩ := List.forall_mem_cons.mp hcombination
    have hinner := ih hrest
    have hcallee := hinner _ (Node.mem_toList_self _)
    intro n hn
    rcases Node.mem_toList_mk.mp hn with rfl | ⟨child, hchild, hn⟩
    · exact ⟨hcallee.type.peel, hcallee.scope, List.forall_mem_nil _⟩
    · rcases List.mem_pair.mp hchild with rfl | rfl
      · exact hinner n hn
      · rcases Node.mem_toList_mk.mp hn with rfl | ⟨_, hnone, _⟩
        · exact ⟨hcandidate, hcallee.scope, List.forall_mem_nil _⟩
        · cases hnone

theorem within_resolved {tree : Node Scoped} (h : ∀ m ∈ tree.toList, m.decoration.Within sig) :
    ∀ n ∈ (resolved options tree).toList, n.decoration.Within sig := by
  induction tree using Node.induction with
  | mk e here ih =>
    have hhere : here.Within sig := h _ (Node.mem_toList_self _)
    have hbare : ∀ n ∈ (ofNode options ⟨e, here⟩).toList, n.decoration.Within sig := by
      intro n hn
      rcases Node.mem_toList_mk.mp hn with rfl | ⟨child, hchild, hn⟩
      · exact ⟨hhere.type, hhere.scope, List.forall_mem_nil _⟩
      · rw [Expr.children_map] at hchild
        obtain ⟨part, hpart, rfl⟩ := List.mem_map.mp hchild
        exact ih part hpart (fun m hm => h m (Node.mem_toList_of_child hpart hm)) n hn
    intro n hn
    rcases resolved_eq options ⟨e, here⟩ with heq | ⟨-, combination, hsupplies, heq⟩
    · rw [heq] at hn
      exact hbare n hn
    · have hmem : combination ∈ here.supplies options := by
        rw [show here.supplies options = [combination] from hsupplies]
        exact List.mem_singleton.mpr rfl
      have hcombination := within_supplies hhere hmem
      have hsupplied := within_supplied hbare hcombination
      rw [heq] at hn
      rcases Node.mem_toList_mk.mp hn with rfl | ⟨child, hchild, hn⟩
      · have hroot := hsupplied _ (Node.mem_toList_self _)
        exact ⟨hroot.type, hroot.scope, hcombination⟩
      · exact hsupplied n (Node.mem_toList_of_child hchild hn)

/-- Where nothing is required, the tree stays as it is and nothing is reported. -/
theorem resolved_of_no_requirements (options : Options) {tree : Node Scoped}
    (h : ∀ m ∈ tree.toList, m.decoration.requirements = []) :
    resolved options tree = tree.map (fun here => { type := here.type, scope := here.scope }) ∧
      reports options tree = [] := by
  induction tree using Node.induction with
  | mk e here ih =>
    have hparts : ∀ child ∈ e.children, ∀ m ∈ child.toList, m.decoration.requirements = [] :=
      fun child hchild m hm => h m (Node.mem_toList_of_child hchild hm)
    have hhere : here.requirements = [] := h _ (Node.mem_toList_self _)
    constructor
    · rw [resolved_mk, settle, hhere, List.isEmpty_nil, if_pos rfl, bare, Node.map_mk]
      exact congrArg (Node.mk · _)
        (Expr.map_congr fun child hchild => (ih child hchild (hparts child hchild)).1)
    · rw [reports_mk, report, hhere, List.isEmpty_nil, if_pos rfl, List.append_nil]
      exact List.flatMap_eq_nil_iff.mpr fun child hchild =>
        (ih child hchild (hparts child hchild)).2

end Resolution

section Check

structure Checked.Within (sig : Signature) (c : Checked) : Prop where
  constraints : ∀ constraint ∈ c.constraints, constraint.value.Within sig
  entries : ∀ entry ∈ c.entries.values, entry.Within sig
  values : ∀ v ∈ c.values.values, v.Within sig
  node : ∀ n ∈ c.node.toList, n.decoration.Within sig

variable {σ D : Type} [NameSource σ] {options : Options} {names : σ} {tree : Node D}
  {checked : Checked} {allowed : List Plicity}

/-- The plicities of the functions of a tree bound those of the values before resolution. -/
theorem within_buildScopes {typed : Node Typed} (hexplicit : .explicit ∈ allowed)
    (hallowed : ∀ n ∈ tree.toList, ∀ plicity,
      n.expression.plicity? = some plicity → plicity ∈ allowed)
    (htyped : typeTree options tree names = .ok typed) :
    ∀ m ∈ (buildScopes typed).toList, m.decoration.Within (.types allowed) := by
  obtain ⟨htypes, hconstraints⟩ := within_attachShapes tree names hexplicit hallowed
  have hentries := within_reduce options hconstraints
  have hvalues := within_simplify (fun _ => trivial) fun entry hentry => (hentries entry hentry).value
  exact within_scoped (within_retype (fun _ => trivial) hvalues htypes htyped)
    (List.forall_mem_nil _)

theorem within_check (hexplicit : .explicit ∈ allowed) (hallowed : ∀ n ∈ tree.toList, ∀ plicity,
      n.expression.plicity? = some plicity → plicity ∈ allowed)
    (h : check options names tree = .ok checked) : checked.Within (.types allowed) := by
  obtain ⟨typed, htyped, hnode, -, hconstraints, hentries⟩ := check_ok h
  have hall := (within_attachShapes tree names hexplicit hallowed).2
  rw [← hconstraints] at hall
  have hreduced : ∀ entry ∈ checked.entries.values, entry.Within (.types allowed) := by
    rw [hentries, reduceTree, ← hconstraints]
    exact within_reduce options hall
  refine ⟨hall, hreduced, ?_, ?_⟩
  · rw [values_of_check h]
    exact within_simplify (fun _ => trivial) fun entry hentry => (hreduced entry hentry).value
  · rw [hnode]
    exact within_resolved (within_buildScopes hexplicit hallowed htyped)

/-- Every value that checking produces is a type. Without implicit functions in the tree there are
none in its types; then no node is rewritten, and all that is reported comes from reduction. -/
theorem checked_values_are_types (options : Options) (names : σ) (tree : Node D) (checked : Checked)
    (h : check options names tree = .ok checked) :
    checked.Within (.types [.explicit, .implicit]) ∧
      ((∀ n ∈ tree.toList, n.expression.plicity? ≠ some .implicit) →
        checked.Within (.types [.explicit]) ∧
          checked.node.undecorated = tree.undecorated ∧
          (∀ n ∈ checked.node.toList, n.decoration.supplied = []) ∧
          checked.diagnostics = (reduce options checked.constraints).diagnostics) := by
  have hboth : ∀ plicity, plicity ∈ [Plicity.explicit, .implicit] := by
    intro plicity
    cases plicity <;> simp
  refine ⟨within_check (hboth .explicit) (fun _ _ plicity _ => hboth plicity) h, ?_⟩
  intro hnone
  have hallowed : ∀ n ∈ tree.toList, ∀ plicity,
      n.expression.plicity? = some plicity → plicity ∈ [Plicity.explicit] := by
    intro n hn plicity hplicity
    cases plicity with
    | explicit => exact List.mem_cons_self
    | implicit => exact absurd hplicity (hnone n hn)
  obtain ⟨typed, htyped, hnode, hdiagnostics, hconstraints, -⟩ := check_ok h
  have hscoped := within_buildScopes List.mem_cons_self hallowed htyped
  obtain ⟨hresolved, hreports⟩ := resolved_of_no_requirements options
    fun m hm => by rw [Scoped.requirements, (hscoped m hm).type.implicitParameters_eq_nil,
      List.take_nil]
  refine ⟨within_check List.mem_cons_self hallowed h, ?_, ?_, ?_⟩
  · rw [hnode, hresolved, Node.undecorated_map, undecorated_buildScopes htyped]
  · intro n hn
    rw [hnode, hresolved, Node.toList_map] at hn
    obtain ⟨m, -, rfl⟩ := List.mem_map.mp hn
    rw [Node.decoration_map]
  · rw [hdiagnostics, hreports, List.append_nil, hconstraints]
    rfl

def explicitTree : Node Unit :=
  .bound "f" (.formed (.function .explicit (.named "a") (.cell (.named "a"))))
    (.formed (.choice (.formed (.read (.formed (.application (.named "f") .text)) (.property "a")))
      [(.text, .formed (.dual .yes .text)),
        (.text, .formed (.read (.formed (.data (.formed (.literal (.symbol "P"))) [.yes]))
          (.position 0)))]))

theorem explicitTree_values_are_types :
    ∃ checked, check {} ({} : Counter) explicitTree = .ok checked ∧
      checked.Within (.types [.explicit, .implicit]) ∧
      (∀ n ∈ explicitTree.toList, n.expression.plicity? ≠ some .implicit) ∧
      checked.Within (.types [.explicit]) ∧
      checked.node.undecorated = explicitTree.undecorated ∧
      (∀ n ∈ checked.node.toList, n.decoration.supplied = []) ∧
      checked.diagnostics.length = 1 ∧
      checked.diagnostics = (reduce {} checked.constraints).diagnostics := by
  have hchecks : (check {} ({} : Counter) explicitTree).toOption.any fun checked =>
      checked.diagnostics.length = 1 := by
    decide +kernel
  obtain ⟨checked, hchecked, hcount⟩ := exists_ok_of_any hchecks
  have hnone : ∀ n ∈ explicitTree.toList, n.expression.plicity? ≠ some .implicit := by
    decide +kernel
  obtain ⟨htypes, hexplicit⟩ :=
    checked_values_are_types {} ({} : Counter) explicitTree checked hchecked
  obtain ⟨hwithin, hsame, hsupplied, hdiagnostics⟩ := hexplicit hnone
  exact ⟨checked, hchecked, htypes, hnone, hwithin, hsame, hsupplied, of_decide_eq_true hcount,
    hdiagnostics⟩

end Check

end ImplicitInference
