import ImplicitInference.Proofs.Completion
import ImplicitInference.Proofs.Erasure

/-!
Consumed children. A node that calls, reads from, matches or joins some of its children wants them
without implicit parameters, and says so by a constraint on the name of the child. In a tree that is
checked to the end all of these were taken up before anything that is learned, so even a request that
repeats another one finds a request on record. The child is then consumed whatever else is reported,
and resolution supplies all implicit parameters that it has.
-/

namespace ImplicitInference

/-- The children that a layer wants without implicit parameters: what is called, the sides of a dual,
what is read from, and the subject, tests and results of a choice. -/
def Expr.consumed {α : Type} : Expr α → List α
  | .form (.application callee _) => [callee]
  | .form (.dual left right) => [left, right]
  | .form (.read source _) => [source]
  | .form (.choice subject arms) => subject :: arms.flatMap fun arm => [arm.1, arm.2]
  | _ => []

section Consumed

variable {α β : Type} {e : Expr α}

theorem Expr.consumed_map (f : α → β) (e : Expr α) : (e.map f).consumed = e.consumed.map f := by
  cases e with
  | form layer =>
    cases layer with
    | choice subject arms =>
      simp [map, Form.map, consumed, List.flatMap_map, List.map_flatMap]
    | _ => rfl
  | _ => rfl

theorem Expr.children_of_consumed {a : α} (h : a ∈ e.consumed) : a ∈ e.children := by
  cases e with
  | form layer =>
    cases layer with
    | application callee parameter =>
      rw [List.mem_singleton.mp h]
      exact List.mem_cons_self
    | dual left right => exact h
    | read source accessor => exact h
    | choice subject arms => exact h
    | _ => cases h
  | _ => cases h

/-- A layer asks something of every child that it wants without implicit parameters. -/
theorem Draws.asks_consumed {e : Expr String} {type : Value} {asked : List Request} {name : String}
    (h : Draws e type asked) (hname : name ∈ e.consumed) :
    ∃ request ∈ asked, request.1 ≠ .equals ∧ request.2.1 = name := by
  cases h with
  | application callee parameter result =>
    rw [List.mem_singleton.mp hname]
    exact ⟨_, List.mem_cons_self, nofun, rfl⟩
  | dual left right result =>
    rcases List.mem_pair.mp hname with rfl | rfl
    · exact ⟨_, List.mem_cons_self, nofun, rfl⟩
    · exact ⟨_, List.mem_cons_of_mem _ List.mem_cons_self, nofun, rfl⟩
  | property source property result =>
    rw [List.mem_singleton.mp hname]
    exact ⟨_, List.mem_cons_self, nofun, rfl⟩
  | position source data result before =>
    rw [List.mem_singleton.mp hname]
    exact ⟨_, List.mem_cons_self, nofun, rfl⟩
  | choice subject test result arms =>
    rcases List.mem_cons.mp hname with rfl | hname
    · exact ⟨_, List.mem_cons_self, nofun, rfl⟩
    · obtain ⟨arm, harm, hname⟩ := List.mem_flatMap.mp hname
      rcases List.mem_pair.mp hname with rfl | rfl
      · refine ⟨(.evaluatedFrom, arm.1, .var test), ?_, nofun, rfl⟩
        exact List.mem_cons_of_mem _ (List.mem_flatMap.mpr ⟨arm, harm, List.mem_cons_self⟩)
      · refine ⟨(.evaluatedFrom, arm.2, .var result), ?_, nofun, rfl⟩
        exact List.mem_cons_of_mem _ (List.mem_flatMap.mpr ⟨arm, harm, by simp⟩)
  | _ => cases hname

end Consumed

theorem Sketched.asks_consumed {constraints : List Constraint} {m part : Node Shaped}
    (h : Sketched constraints m) (hpart : part ∈ m.expression.consumed) :
    ∃ c ∈ constraints, c.relation ≠ .equals ∧ c.var = part.decoration.name := by
  obtain ⟨asked, hdraws, hasked⟩ := h
  have hname : part.decoration.name ∈
      (m.expression.map fun child => child.decoration.name).consumed := by
    rw [Expr.consumed_map]
    exact List.mem_map_of_mem hpart
  obtain ⟨request, hrequest, hrelation, hvar⟩ := hdraws.asks_consumed hname
  exact ⟨_, hasked _ (List.mem_append_left _ hrequest), hrelation, hvar⟩

/-- What a node asks of a child is never that the child's name is the child's name. -/
theorem Constraint.Noted.not_isTrivial {c : Constraint} {n : Node Shaped} (h : c.Noted Counter)
    (hrelation : c.relation ≠ .equals) (hn : Attached Counter n) (hvar : c.var = n.decoration.name) :
    ¬ c.isTrivial := by
  intro htrivial
  have hvalue := Reduction.value_of_isTrivial htrivial
  exact hn.name_ne (h.madeUp hrelation c.var hvalue) hvar

section Shapes

variable {D : Type} {options : Options} {tree : Node D} {typed : Node Typed}

/-- A consumed child is wanted without implicit parameters. -/
theorem shape_of_consumed (h : typeTree options tree ({} : Counter) = .ok typed)
    (hnodup : (attachShapes tree ({} : Counter)).node.names.Nodup) {m part : Node Shaped}
    (hm : m ∈ (attachShapes tree ({} : Counter)).node.toList)
    (hpart : part ∈ m.expression.consumed) :
    (givenBy (reduceTree options tree ({} : Counter)).entries
      part).decoration.shape.implicitCount = 0 := by
  have hmem := Node.mem_toList_of_mem_children hm (Expr.children_of_consumed hpart)
  have hnoted := noted_attachShapes tree ({} : Counter)
  obtain ⟨c, hc, hrelation, hvar⟩ :=
    ((sketched_attachShapes tree ({} : Counter)).1 m hm).asks_consumed hpart
  have htrivial : ¬ c.isTrivial :=
    (hnoted c hc).not_isTrivial hrelation (attached_attachShapes tree ({} : Counter) part hmem) hvar
  have hrequests : ∀ c ∈ (attachShapes tree ({} : Counter)).constraints,
      c.relation ≠ .equals → c.isConsumption := by
    intro c hc hrelation
    obtain ⟨kind, hkind⟩ := (hnoted c hc).provenance
    simp [Constraint.isConsumption, hrelation, hkind]
  obtain ⟨entry, hentry, source, hsource, hsame, hrequest⟩ :=
    (takes_of_reduce (limit_of_typeTree h hnodup) hrequests c hc).resolve_left htrivial
  apply shape_givenBy h hmem
  rw [← hvar]
  exact ⟨entry, hentry, source, hsource, hrequest (hsame ▸ hrelation)⟩

def Diagnostic.isUnsupplied : Diagnostic → Bool
  | .unresolvedImplicits _ | .ambiguousImplicits _ _ => true
  | _ => false

theorem Resolved.isUnsupplied_of_mem_report {here : Scoped} {d : Diagnostic}
    (h : d ∈ report options here) : d.isUnsupplied := by
  unfold report at h
  split at h
  · cases h
  · split at h
    · rw [List.mem_singleton.mp h]
      rfl
    · cases h
    · rw [List.mem_singleton.mp h]
      rfl

/-- If a tree with no more nodes than can be numbered is checked to the end and no implicit parameters
were left unsupplied, then no consumed child has any. This is so of every node of the tree in its
resolved form, while the applications to supplied parameters are passed over; it does not matter what
else is reported. -/
theorem consumed_children_have_no_implicits (options : Options) (tree : Node D)
    (hsize : tree.size < 2 ^ 64) (checked : Checked)
    (hchecked : check options ({} : Counter) tree = .ok checked)
    (hsupplied : ∀ d ∈ checked.diagnostics, ¬ d.isUnsupplied) :
    ∃ originals, checked.node.originals? = some originals ∧ originals.length = tree.size ∧
      ∀ n ∈ originals, ∀ part ∈ n.expression.consumed, part.decoration.type.implicitCount = 0 := by
  obtain ⟨typed, htyped, hnode, hreported, -⟩ := check_ok hchecked
  refine ⟨(buildScopes typed).toList.map (ofNode options), ?_, ?_, ?_⟩
  · rw [hnode, originals?_resolved]
  · rw [List.length_map, Node.length_toList, ← Node.size_undecorated, undecorated_buildScopes htyped,
      Node.size_undecorated]
  · intro n hn part hpart
    obtain ⟨m, hm, rfl⟩ := List.mem_map.mp hn
    have hconsumed : part ∈ (m.expression.map (resolved options)).consumed := hpart
    rw [Expr.consumed_map] at hconsumed
    obtain ⟨child, hchild, rfl⟩ := List.mem_map.mp hconsumed
    obtain ⟨whole, hwhole, -, hparts⟩ :=
      exists_parts Expr.consumed Expr.consumed_map htyped hm
    obtain ⟨shaped, hshaped, htypedChild⟩ := hparts child hchild
    have hshape : child.decoration.shape.implicitCount = 0 := by
      have hwanted := shape_of_consumed htyped (nodup_names tree hsize) hwhole hshaped
      rwa [← htypedChild] at hwanted
    have hsilent : Resolved.report options child.decoration = [] := by
      apply List.eq_nil_iff_forall_not_mem.mpr
      intro d hd
      have hmem := mem_reports
        (Node.mem_toList_of_mem_children hm (Expr.children_of_consumed hchild)) hd
      refine hsupplied d ?_ (Resolved.isUnsupplied_of_mem_report hd)
      rw [hreported]
      exact List.mem_append_right _ hmem
    rw [type_resolved_of_consumed hsilent hshape]
    exact Value.implicitCount_stripImplicits _

def unmatchedChoice : Node Unit :=
  .bound "b" .yes (.formed (.choice .yes [(.text, .formed (.function .implicit .yes .text))]))

theorem unmatchedChoice_consumed_children_have_no_implicits :
    ∃ checked, check {} ({} : Counter) unmatchedChoice = .ok checked ∧ checked.diagnostics ≠ [] ∧
      checked.node.suppliedCount = 1 ∧
      ∃ originals, checked.node.originals? = some originals ∧
        originals.length = unmatchedChoice.size ∧
        ∀ n ∈ originals, ∀ part ∈ n.expression.consumed,
          part.decoration.type.implicitCount = 0 := by
  have hchecks : (check {} ({} : Counter) unmatchedChoice).toOption.any fun checked =>
      ¬ checked.diagnostics.isEmpty ∧ checked.node.suppliedCount = 1 ∧
        ∀ d ∈ checked.diagnostics, ¬ d.isUnsupplied := by
    decide +kernel
  obtain ⟨checked, hchecked, hall⟩ := exists_ok_of_any hchecks
  obtain ⟨hreported, hcount, hsupplied⟩ := of_decide_eq_true hall
  refine ⟨checked, hchecked, fun hnone => hreported (by simp [hnone]), hcount, ?_⟩
  exact consumed_children_have_no_implicits {} unmatchedChoice (by decide) checked hchecked hsupplied

end Shapes

end ImplicitInference
