import ImplicitInference.Checked
import ImplicitInference.Proofs.Naming
import ImplicitInference.Proofs.Resolution
import ImplicitInference.Proofs.Sources
import ImplicitInference.Proofs.Typing
import ImplicitInference.Proofs.Unfolding

/-!
Checking taken apart. A tree that is checked was typed, given scopes and resolved, and what is
reported comes from the reduction or from the resolution. Scopes change nothing about shapes and
types, and typing keeps the shaped tree, so every node that is resolved has a shaped node behind it,
with all of its children. Each node has an equation of its own, so that no variable of a node is left
to be evaluated when its constraints are reduced.
-/

namespace ImplicitInference

section Scopes

def Scoped.typed (d : Scoped) : Typed := ⟨d.shape, d.type⟩

/-- The scopes that the children of a layer can stand in: the scope of the layer, or what a pattern or
a bound value makes of it. -/
inductive Scoped.Entered {β : Type} (scope : Scope) (e : Expr (Node Typed × (Scope → β))) :
    Scope → Prop
  | same : Entered scope e scope
  | pattern {child : Node Typed × (Scope → β)} (h : child ∈ e.children) :
    Entered scope e (scope.extend (scope.ofPattern child.1))
  | value {child : Node Typed × (Scope → β)} (h : child ∈ e.children) (name : String) :
    Entered scope e (scope.extend [(name, ⟨child.1.decoration.type, scope, some child.1⟩)])

/-- Each child is given one of these scopes. -/
theorem Scoped.exists_pairs_of_enter {β : Type} (scope : Scope)
    (e : Expr (Node Typed × (Scope → β))) :
    ∃ pairs : Expr ((Node Typed × (Scope → β)) × Scope), pairs.map Prod.fst = e ∧
      enter scope e = pairs.map (fun pair => pair.1.2 pair.2) ∧
      ∀ pair ∈ pairs.children, Entered scope e pair.2 := by
  have hdirect : ∃ pairs : Expr ((Node Typed × (Scope → β)) × Scope), pairs.map Prod.fst = e ∧
      (e.map fun child => child.2 scope) = pairs.map (fun pair => pair.1.2 pair.2) ∧
      ∀ pair ∈ pairs.children, Entered scope e pair.2 := by
    refine ⟨e.map fun child => (child, scope), ?_, ?_, ?_⟩
    · rw [Expr.map_map]
      exact Expr.map_id e
    · rw [Expr.map_map]
      rfl
    · intro pair hpair
      rw [Expr.children_map] at hpair
      obtain ⟨child, -, rfl⟩ := List.mem_map.mp hpair
      exact .same
  cases e with
  | identifier name => exact hdirect
  | native implementations => exact hdirect
  | binding name value body =>
    refine ⟨.binding name (value, scope) (body, _), rfl, rfl, ?_⟩
    intro pair hpair
    rcases List.mem_pair.mp hpair with rfl | rfl
    · exact .same
    · exact .value List.mem_cons_self name
  | form layer =>
    cases layer with
    | function plicity parameter body =>
      refine ⟨.form (.function plicity (parameter, scope) (body, _)), rfl, rfl, ?_⟩
      intro pair hpair
      rcases List.mem_pair.mp hpair with rfl | rfl
      · exact .same
      · exact .pattern List.mem_cons_self
    | choice subject arms =>
      refine ⟨.form (.choice (subject, scope) (arms.map fun arm =>
        ((arm.1, scope), (arm.2, scope.extend (scope.ofPattern arm.1.1))))), ?_, ?_, ?_⟩
      · simp [Expr.map, Form.map, Function.comp_def]
      · simp [enter, Expr.map, Form.map, Function.comp_def]
      · intro pair hpair
        rcases List.mem_cons.mp hpair with rfl | hpair
        · exact .same
        · obtain ⟨parts, hparts, hpair⟩ := List.mem_flatMap.mp hpair
          obtain ⟨arm, harm, rfl⟩ := List.mem_map.mp hparts
          rcases List.mem_pair.mp hpair with rfl | rfl
          · exact .same
          · exact .pattern (List.mem_cons_of_mem _
              (List.mem_flatMap.mpr ⟨arm, harm, List.mem_cons_self⟩))
    | _ => exact hdirect

/-- What holds of the scope of the root, and of all that the patterns and values of a tree make of a
scope that it holds of, holds of every scope in the tree. -/
theorem Scoped.scope_keeps {I : Scope → Prop} {tree : Node Typed} {scope : Scope} (h : I scope)
    (hpattern : ∀ m ∈ tree.toList, ∀ outer, I outer → I (outer.extend (outer.ofPattern m)))
    (hvalue : ∀ m ∈ tree.toList, ∀ outer name, I outer →
      I (outer.extend [(name, ⟨m.decoration.type, outer, some m⟩)])) :
    ∀ n ∈ (within tree scope).toList, I n.decoration.scope := by
  induction tree using Node.induction generalizing scope with
  | mk e d ih =>
    have hparts : ∀ child ∈ e.children, ∀ m ∈ child.toList, m ∈ Node.toList ⟨e, d⟩ :=
      fun child hchild m hm => Node.mem_toList_mk.mpr (.inr ⟨child, hchild, hm⟩)
    have hpairs : ∀ pair ∈ (e.map fun node => (node, within node)).children,
        ∃ child ∈ e.children, pair = (child, within child) := by
      intro pair hpair
      rw [Expr.children_map] at hpair
      obtain ⟨child, hchild, rfl⟩ := List.mem_map.mp hpair
      exact ⟨child, hchild, rfl⟩
    intro n hn
    rw [within, Node.para_mk, ← within] at hn
    rcases Node.mem_toList_mk.mp hn with rfl | ⟨part, hpart, hn⟩
    · exact h
    · obtain ⟨pairs, hlayer, henter, hentered⟩ :=
        exists_pairs_of_enter scope (e.map fun node => (node, within node))
      rw [henter, Expr.children_map] at hpart
      obtain ⟨⟨pair, inner⟩, hpair, rfl⟩ := List.mem_map.mp hpart
      have hinner : I inner := by
        have hentered : Entered scope _ inner := hentered _ hpair
        cases hentered with
        | same => exact h
        | pattern hmem =>
          obtain ⟨child, hchild, rfl⟩ := hpairs _ hmem
          exact hpattern child (hparts child hchild child (Node.mem_toList_self child)) scope h
        | value hmem name =>
          obtain ⟨child, hchild, rfl⟩ := hpairs _ hmem
          exact hvalue child (hparts child hchild child (Node.mem_toList_self child)) scope name h
      have hmem := Expr.mem_children_map (g := Prod.fst) hpair
      rw [hlayer] at hmem
      obtain ⟨child, hchild, heq⟩ := hpairs _ hmem
      rw [heq] at hn
      exact ih child hchild hinner (fun m hm => hpattern m (hparts child hchild m hm))
        (fun m hm => hvalue m (hparts child hchild m hm)) n hn

theorem Scoped.map_enter {β γ : Type} {g : β → γ} {k : Node Typed × (Scope → β) → γ} {scope : Scope}
    {e : Expr (Node Typed × (Scope → β))}
    (h : ∀ child ∈ e.children, ∀ inner, g (child.2 inner) = k child) :
    (enter scope e).map g = e.map k := by
  obtain ⟨pairs, hlayer, henter, -⟩ := exists_pairs_of_enter scope e
  rw [henter, Expr.map_map]
  rw [← hlayer] at h ⊢
  rw [Expr.map_map]
  apply Expr.map_congr
  intro pair hpair
  exact h pair.1 (Expr.mem_children_map hpair) pair.2

theorem Scoped.map_within (tree : Node Typed) (scope : Scope) :
    (within tree scope).map Scoped.typed = tree := by
  induction tree using Node.induction generalizing scope with
  | mk e d ih =>
    have hchildren : (enter scope (e.map fun node => (node, within node))).map
        (Node.map Scoped.typed) = e := by
      rw [map_enter (k := Prod.fst)]
      · rw [Expr.map_map]
        exact Expr.map_id e
      · intro child hchild inner
        rw [Expr.children_map] at hchild
        obtain ⟨node, hnode, rfl⟩ := List.mem_map.mp hchild
        exact ih node hnode inner
    rw [within, Node.para_mk, ← within, Node.map_mk, hchildren]
    rfl

theorem map_buildScopes (tree : Node Typed) : (buildScopes tree).map Scoped.typed = tree :=
  Scoped.map_within tree Table.empty

end Scopes

section Check

variable {σ D : Type} [NameSource σ] {options : Options} {names : σ} {tree : Node D}
  {checked : Checked} {typed : Node Typed}

theorem check_ok (h : check options names tree = .ok checked) :
    ∃ typed, typeTree options tree names = .ok typed ∧
      checked.node = resolved options (buildScopes typed) ∧
      checked.diagnostics =
        (reduceTree options tree names).diagnostics ++ reports options (buildScopes typed) ∧
      checked.constraints = (attachShapes tree names).constraints ∧
      checked.entries = (reduceTree options tree names).entries := by
  have hyields : (Execution.except TypingError).Yields (check options names tree) () checked () := h
  simp only [check, Execution.yields_bind, Execution.yields_pure] at hyields
  obtain ⟨typed, _, htyped, rfl, -⟩ := hyields
  obtain ⟨hnode, hreports⟩ := resolveImplicits_eq options (buildScopes typed)
  exact ⟨typed, htyped, hnode, by rw [hreports]; rfl, rfl, rfl⟩

theorem values_of_check (h : check options names tree = .ok checked) :
    checked.values = (simplify checked.entries).values := by
  have hyields : (Execution.except TypingError).Yields (check options names tree) () checked () := h
  simp only [check, Execution.yields_bind, Execution.yields_pure] at hyields
  obtain ⟨_, _, _, rfl, -⟩ := hyields
  rfl

def givenBy (entries : Table Entry) : Node Shaped → Node Typed :=
  Node.map (Typed.given entries (simplify entries).values)

/-- A typed node has a shaped node behind it. -/
theorem mem_typeTree (h : typeTree options tree names = .ok typed) {m : Node Typed}
    (hm : m ∈ typed.toList) : ∃ shaped ∈ (attachShapes tree names).node.toList,
      m = givenBy (reduceTree options tree names).entries shaped := by
  rw [(retype_ok h).1, Node.toList_map] at hm
  obtain ⟨shaped, hshaped, rfl⟩ := List.mem_map.mp hm
  exact ⟨shaped, hshaped, rfl⟩

/-- Behind a node with its scope there is a shaped node as well. -/
theorem mem_buildScopes (h : typeTree options tree names = .ok typed) {m : Node Scoped}
    (hm : m ∈ (buildScopes typed).toList) : ∃ shaped ∈ (attachShapes tree names).node.toList,
      m.map Scoped.typed = givenBy (reduceTree options tree names).entries shaped := by
  apply mem_typeTree h
  rw [← map_buildScopes typed, Node.toList_map]
  exact List.mem_map_of_mem hm

/-- Behind the children of some role there are shaped children of the same role. -/
theorem exists_parts (select : {α : Type} → Expr α → List α)
    (hselect : ∀ {α β : Type} (f : α → β) (e : Expr α), select (e.map f) = (select e).map f)
    (h : typeTree options tree names = .ok typed) {m : Node Scoped}
    (hm : m ∈ (buildScopes typed).toList) :
    ∃ whole ∈ (attachShapes tree names).node.toList,
      m.decoration.typed = (givenBy (reduceTree options tree names).entries whole).decoration ∧
      ∀ part ∈ select m.expression, ∃ child ∈ select whole.expression, part.decoration.typed =
        (givenBy (reduceTree options tree names).entries child).decoration := by
  obtain ⟨whole, hwhole, hsame⟩ := mem_buildScopes h hm
  refine ⟨whole, hwhole, ?_, fun part hpart => ?_⟩
  · rw [← hsame, Node.decoration_map]
  · have hparts := congrArg (fun n => select n.expression) hsame
    simp only [givenBy, Node.expression_map, hselect] at hparts
    have hmem := List.mem_map_of_mem hpart (f := Node.map Scoped.typed)
    rw [hparts] at hmem
    obtain ⟨child, hchild, heq⟩ := List.mem_map.mp hmem
    exact ⟨child, hchild, by rw [givenBy, heq, Node.decoration_map]⟩

theorem type_givenBy (h : typeTree options tree names = .ok typed) {shaped : Node Shaped}
    (hshaped : shaped ∈ (attachShapes tree names).node.toList) :
    (givenBy (reduceTree options tree names).entries shaped).decoration.type =
      shaped.decoration.type.substitute (simplify (reduceTree options tree names).entries).values := by
  rw [givenBy, Node.decoration_map]
  exact (ofShaped_ok ((retype_ok h).2 shaped hshaped)).1

/-- A node is wanted without implicit parameters if another node asked for that. -/
theorem shape_givenBy (h : typeTree options tree names = .ok typed) {shaped : Node Shaped}
    (hshaped : shaped ∈ (attachShapes tree names).node.toList)
    (hsource : (reduceTree options tree names).HasSource shaped.decoration.name
      fun source => source.isConsumption) :
    (givenBy (reduceTree options tree names).entries
      shaped).decoration.shape.implicitCount = 0 := by
  obtain ⟨entry, hentry, source, hsource, hconsumption⟩ := hsource
  obtain ⟨-, found, shape, hfound, hshape⟩ := ofShaped_ok ((retype_ok h).2 shaped hshaped)
  rw [hentry] at hfound
  obtain rfl := Option.some.inj hfound
  have hconsumed : entry.isConsumed := List.any_eq_true.mpr ⟨source, hsource, hconsumption⟩
  rw [givenBy, Node.decoration_map, hshape, if_pos hconsumed]
  exact Value.implicitCount_stripImplicits shape

end Check

section Entailment

variable {σ D : Type} [NameSource σ] {options : Options} {names : σ} {tree : Node D}
  {constraints : List Constraint} {m : Node Shaped}

theorem Proper.own_not_isTrivial {shaped : Node Shaped} (h : Proper shaped)
    (hm : m ∈ shaped.toList) : ¬ (Shaped.own m).isTrivial :=
  fun htrivial => h m hm (Reduction.value_of_isTrivial htrivial)

theorem Asks.exists_child {c : Constraint} (h : Asks m c) (hrelation : c.relation ≠ .equals) :
    ∃ child ∈ m.expression.children, c.var = child.decoration.name := by
  obtain ⟨asked, hdraws, request, hrequest, rfl⟩ := h
  rcases List.mem_append.mp hrequest with hasked | hown
  · have hchild := hdraws.asks_children request hasked
    rw [Expr.children_map] at hchild
    obtain ⟨child, hchild, hname⟩ := List.mem_map.mp hchild
    exact ⟨child, hchild, hname.symm⟩
  · rw [List.mem_singleton.mp hown] at hrelation
    exact absurd rfl hrelation

/-- Of what nodes are evaluated from nothing is left, since each has an equation of its own. -/
theorem relation_of_proper (hproper : Proper (attachShapes tree names).node)
    (hdiagnostics : (reduceTree options tree names).diagnostics = []) :
    ∀ entry ∈ (reduceTree options tree names).entries.values,
      entry.relation ≠ .evaluatedFrom := by
  intro entry hentry hrelation
  obtain ⟨⟨c, hc, hvar, hfrom⟩, htrivial⟩ :=
    evaluatedFrom_of_reduce (not_stops_of_silent hdiagnostics) hentry hrelation
  obtain ⟨m, hm, hasks⟩ := asks_attachShapes tree names c hc
  obtain ⟨child, hchild, hname⟩ := hasks.exists_child (by simp [hfrom])
  have hmem := Node.mem_toList_of_mem_children hm hchild
  have hown := ((sketched_attachShapes tree names).1 child hmem).own_mem
  exact hproper.own_not_isTrivial hmem (htrivial _ hown (hname.symm.trans hvar) rfl)

/-- The name of a node reads as its type. -/
theorem Sketched.eval_name (h : Sketched constraints m) {M : Type} {d : Domain M} {s : String → M}
    (hs : ∀ c ∈ constraints, (Reading.loosely d s).Says c) :
    s m.decoration.name = d.eval s m.decoration.type := hs _ h.own_mem

end Entailment

end ImplicitInference
