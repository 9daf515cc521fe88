import ImplicitInference.Proofs.Checking
import ImplicitInference.Proofs.Naming

/-!
Types of branches. The sides of a dual and the results of the arms of a choice are wanted without
implicit parameters: each is consumed, so that resolution supplies all parameters that it has, or
reports that it cannot. What is left of its type is what the whole node evaluates to.
-/

namespace ImplicitInference

def Expr.branches {α : Type} : Expr α → List α
  | .form (.dual left right) => [left, right]
  | .form (.choice _ arms) => arms.map Prod.snd
  | _ => []

section Branches

variable {α β : Type} {e : Expr α}

theorem Expr.branches_map (f : α → β) (e : Expr α) : (e.map f).branches = e.branches.map f := by
  cases e with
  | form layer =>
    cases layer with
    | choice subject arms => simp [map, Form.map, branches]
    | _ => rfl
  | _ => rfl

theorem Expr.children_of_branches {a : α} (h : a ∈ e.branches) : a ∈ e.children := by
  cases e with
  | form layer =>
    cases layer with
    | dual left right => exact h
    | choice subject arms =>
      obtain ⟨arm, harm, rfl⟩ := List.mem_map.mp h
      exact List.mem_cons_of_mem _ (List.mem_flatMap.mpr ⟨arm, harm, by simp⟩)
    | _ => cases h
  | _ => cases h

theorem Expr.kind_of_branches {a : α} (h : a ∈ e.branches) :
    e.kind ≠ .application ∧ e.kind ≠ .identifier := by
  cases e with
  | form layer =>
    cases layer with
    | dual left right => exact ⟨nofun, nofun⟩
    | choice subject arms => exact ⟨nofun, nofun⟩
    | _ => cases h
  | _ => cases h

/-- A node wants each branch evaluated to its own type. -/
theorem Draws.asks_branch {e : Expr String} {type : Value} {asked : List Request} {name : String}
    (h : Draws e type asked) (hname : name ∈ e.branches) :
    (.evaluatedFrom, name, type) ∈ asked := by
  cases h with
  | dual left right result =>
    rcases List.mem_pair.mp hname with rfl | rfl <;> simp
  | choice subject test result arms =>
    obtain ⟨arm, harm, rfl⟩ := List.mem_map.mp hname
    exact List.mem_cons_of_mem _ (List.mem_flatMap.mpr ⟨arm, harm, by simp⟩)
  | _ => cases hname

end Branches

theorem Sketched.asks_branch {constraints : List Constraint} {m branch : Node Shaped}
    (h : Sketched constraints m) (hbranch : branch ∈ m.expression.branches) :
    ∃ c ∈ constraints, c.relation = .evaluatedFrom ∧ c.var = branch.decoration.name ∧
      c.value = m.decoration.type := by
  obtain ⟨asked, hdraws, hasked⟩ := h
  have hname : branch.decoration.name ∈
      (m.expression.map fun child => child.decoration.name).branches := by
    rw [Expr.branches_map]
    exact List.mem_map_of_mem hbranch
  exact ⟨_, hasked _ (List.mem_append_left _ (hdraws.asks_branch hname)), rfl, rfl, rfl⟩

theorem Sketched.equates_branch {constraints : List Constraint} {m branch : Node Shaped}
    (h : Sketched constraints m) (hbranch : branch ∈ m.expression.branches)
    (hown : Sketched constraints branch) :
    Equates constraints true branch.decoration.type m.decoration.type := by
  intro M d s hs
  obtain ⟨c, hc, hrelation, hvar, hvalue⟩ := h.asks_branch hbranch
  have hasked : c.relation.Loosely d s c.var c.value := hs c hc
  rw [hrelation, hvar, hvalue] at hasked
  show d.strip (d.eval s branch.decoration.type) = d.strip (d.eval s m.decoration.type)
  rw [← hown.eval_name hs]
  exact hasked

/-- No node is typed by the variable of one of its branches. -/
def Apart (tree : Node Shaped) : Prop :=
  ∀ m ∈ tree.toList, ∀ branch ∈ m.expression.branches,
    m.decoration.type ≠ .var branch.decoration.name

/-- The names of a counter keep nodes and results apart. -/
theorem apart_counter {D : Type} (tree : Node D) (names : Counter) :
    Apart (attachShapes tree names).node := by
  intro m hm branch hbranch heq
  have hattached := attached_attachShapes tree names
  obtain ⟨_, _, asked, hwhole⟩ := hattached m hm
  have hpart := hattached branch
    (Node.mem_toList_of_mem_children hm (Expr.children_of_branches hbranch))
  have hname : branch.decoration.name ∈
      (m.expression.map fun child => child.decoration.name).branches := by
    rw [Expr.branches_map]
    exact List.mem_map_of_mem hbranch
  rcases hwhole.named.type _ heq with hmade | hidentifier | ⟨bound, value, hbinding⟩
  · exact hpart.name_ne hmade rfl
  · rw [hidentifier] at hname
    cases hname
  · rw [hbinding] at hname
    cases hname

section Tree

variable {σ D : Type} [NameSource σ] {options : Options} {names : σ} {tree : Node D}
  {typed : Node Typed}

/-- A branch is wanted without implicit parameters. -/
theorem shape_of_branch (h : typeTree options tree names = .ok typed)
    (hdiagnostics : (reduceTree options tree names).diagnostics = [])
    (hapart : Apart (attachShapes tree names).node) {m branch : Node Shaped}
    (hm : m ∈ (attachShapes tree names).node.toList) (hbranch : branch ∈ m.expression.branches) :
    (givenBy (reduceTree options tree names).entries branch).decoration.shape.implicitCount = 0 := by
  obtain ⟨hsketched, hdual⟩ := sketched_attachShapes tree names
  obtain ⟨c, hc, hrelation, hvar, hvalue⟩ := (hsketched m hm).asks_branch hbranch
  have htrivial : ¬ c.isTrivial := by
    intro htrivial
    have hsame := Reduction.value_of_isTrivial htrivial
    rw [hvalue, hvar] at hsame
    exact hapart m hm branch hbranch hsame
  have hrequested : ∀ c ∈ (attachShapes tree names).constraints, Reduction.Requested c := by
    intro source hsource hevaluated
    obtain ⟨kind, hkind⟩ := provenance_attachShapes tree names source hsource
    simp [Constraint.isConsumption, hevaluated, hkind]
  have hmem := Node.mem_toList_of_mem_children hm (Expr.children_of_branches hbranch)
  apply shape_givenBy h hmem
  rw [← hvar]
  exact consumption_of_reduce hdual hrequested hdiagnostics hc hrelation htrivial

/-- A node that was resolved has the type that it was given, and its branches lose all implicit
parameters of theirs. -/
theorem exists_branches (h : typeTree options tree names = .ok typed)
    (hdiagnostics : (reduceTree options tree names).diagnostics = [])
    (hreports : reports options (buildScopes typed) = [])
    (hapart : Apart (attachShapes tree names).node) {n branch : Node Resolved}
    (hn : n ∈ (resolved options (buildScopes typed)).toList)
    (hbranch : branch ∈ n.expression.branches) :
    ∃ whole ∈ (attachShapes tree names).node.toList,
      n.decoration.type = whole.decoration.type.substitute
        (simplify (reduceTree options tree names).entries).values ∧
      ∀ other ∈ n.expression.branches, ∃ part ∈ whole.expression.branches,
        other.decoration.type = (part.decoration.type.substitute
          (simplify (reduceTree options tree names).entries).values).stripImplicits := by
  obtain ⟨happlication, hidentifier⟩ := Expr.kind_of_branches hbranch
  obtain ⟨m, hm, hexpression, htype⟩ := exists_of_kind hn happlication hidentifier
  obtain ⟨whole, hwhole, hwholeTyped, hparts⟩ :=
    exists_parts Expr.branches Expr.branches_map h hm
  refine ⟨whole, hwhole, ?_, fun other hother => ?_⟩
  · exact htype.trans ((congrArg Typed.type hwholeTyped).trans (type_givenBy h hwhole))
  · rw [hexpression, Expr.branches_map] at hother
    obtain ⟨child, hchild, rfl⟩ := List.mem_map.mp hother
    obtain ⟨part, hpart, hpartTyped⟩ := hparts child hchild
    have hmem := Node.mem_toList_of_mem_children hwhole (Expr.children_of_branches hpart)
    have hshape : child.decoration.shape.implicitCount = 0 := by
      have hwanted := shape_of_branch h hdiagnostics hapart hwhole hpart
      rwa [← hpartTyped] at hwanted
    have hsilent := report_of_reports hreports
      (Node.mem_toList_of_mem_children hm (Expr.children_of_branches hchild))
    have hpartType : child.decoration.type = _ :=
      (congrArg Typed.type hpartTyped).trans (type_givenBy h hmem)
    exact ⟨part, hpart, by rw [type_resolved_of_consumed hsilent hshape, hpartType]⟩

/-- If nothing is reported, all implicit parameters of the sides of a dual and of the results of a
choice were supplied, and what is left of their types is one type. It is also the type of the whole
node, unless that has implicit parameters. The types agree if nothing that has an entry is left in
them and what was skipped holds of the unfoldings. -/
theorem branches_agree_after_resolution (options : Options) (names : σ) (tree : Node D)
    (checked : Checked) (hchecked : check options names tree = .ok checked)
    (hdiagnostics : checked.diagnostics = []) (hapart : Apart (attachShapes tree names).node) :
    ∀ n ∈ checked.node.toList, ∀ branch ∈ n.expression.branches,
      branch.decoration.type.implicitCount = 0 ∧
      ∀ other ∈ n :: n.expression.branches, other.decoration.type.implicitCount = 0 →
        (Proper (attachShapes tree names).node → SameType options checked.constraints true
          branch.decoration.type other.decoration.type) ∧
        (KeepsSkipped options checked.constraints →
          branch.decoration.type.Final checked.entries →
          other.decoration.type.Final checked.entries →
            branch.decoration.type.agrees other.decoration.type) := by
  obtain ⟨typed, htyped, hnode, hreported, hconstraints, hentries⟩ := check_ok hchecked
  rw [hreported, List.append_eq_nil_iff] at hdiagnostics
  rw [hnode, hconstraints, hentries]
  intro n hn branch hbranch
  obtain ⟨whole, hwhole, hwholeType, hparts⟩ :=
    exists_branches htyped hdiagnostics.1 hdiagnostics.2 hapart hn hbranch
  obtain ⟨hsketched, hdual⟩ := sketched_attachShapes tree names
  have hequates : ∀ part ∈ whole.expression.branches,
      Equates (attachShapes tree names).constraints true part.decoration.type
        whole.decoration.type := by
    intro part hpart
    have hmem := Node.mem_toList_of_mem_children hwhole (Expr.children_of_branches hpart)
    exact (hsketched whole hwhole).equates_branch hpart (hsketched part hmem)
  obtain ⟨part, hpart, htype⟩ := hparts branch hbranch
  refine ⟨by rw [htype, Value.implicitCount_stripImplicits], fun other hother hbare => ?_⟩
  obtain ⟨v, hv, hotherType⟩ : ∃ v, Equates (attachShapes tree names).constraints true v
      whole.decoration.type ∧ other.decoration.type = (v.substitute
        (simplify (reduceTree options tree names).entries).values).stripImplicits := by
    rcases List.mem_cons.mp hother with rfl | hother
    · refine ⟨_, fun _ _ _ _ => rfl, ?_⟩
      rw [← hwholeType, Value.stripImplicits_eq_self hbare]
    · obtain ⟨part', hpart', htype'⟩ := hparts other hother
      exact ⟨_, hequates part' hpart', htype'⟩
  have hone := (hequates part hpart).trans hv.symm
  rw [htype, hotherType]
  constructor
  · intro hproper
    exact (hone.sameType hdual hdiagnostics.1 (relation_of_proper hproper hdiagnostics.1)).strip
  · exact hone.agrees hdual hdiagnostics.1

def Node.found : Node Unit := .formed (.function .implicit .yes .text)

def variousBranches : Node Unit :=
  .taking "z" (.bound "b" .yes (.formed (.record
    [("a", .formed (.choice .text [(.text, .yes), (.text, .named "b")])),
      ("b", .both .found .found), ("c", .both (.named "z") (.cell (.named "z")))])))

theorem variousBranches_agree_after_resolution :
    ∃ checked, check {} ({} : Counter) variousBranches = .ok checked ∧
      (checked.node.toList.flatMap fun n => n.expression.branches).length = 6 ∧
      ∀ n ∈ checked.node.toList, ∀ branch ∈ n.expression.branches,
        branch.decoration.type.implicitCount = 0 ∧
        ∀ other ∈ n :: n.expression.branches, other.decoration.type.implicitCount = 0 →
          SameType {} checked.constraints true branch.decoration.type other.decoration.type ∧
          (branch.decoration.type.Final checked.entries →
            other.decoration.type.Final checked.entries →
            branch.decoration.type.agrees other.decoration.type) := by
  have hproper := proper_counter variousBranches (by decide) (by decide +kernel)
  have hchecks : (check {} ({} : Counter) variousBranches).toOption.any fun checked =>
      checked.diagnostics.isEmpty ∧
      (∀ fact ∈ skippedFacts {} checked.constraints,
        ((reduce {} checked.constraints).entries.get? fact.var).any fun entry => entry.states fact) ∧
      (checked.node.toList.flatMap fun n => n.expression.branches).length = 6 := by
    decide +kernel
  obtain ⟨checked, hchecked, hall⟩ := exists_ok_of_any hchecks
  obtain ⟨hdiagnostics, hstated, hlength⟩ := of_decide_eq_true hall
  have hskipped : KeepsSkipped {} checked.constraints := fun fact hfact =>
    Constraint.unfolds_of_states (hstated fact hfact)
  refine ⟨checked, hchecked, hlength, fun n hn branch hbranch => ?_⟩
  obtain ⟨hbare, hsame⟩ := branches_agree_after_resolution {} ({} : Counter) variousBranches checked
    hchecked (List.isEmpty_iff.mp hdiagnostics) (apart_counter _ _) n hn branch hbranch
  refine ⟨hbare, fun other hother hbare => ?_⟩
  obtain ⟨hsame, hagrees⟩ := hsame other hother hbare
  exact ⟨hsame hproper, hagrees hskipped⟩

def BranchesDiffer (tree : Node Unit) : Prop :=
  ∃ checked, check {} ({} : Counter) tree = .ok checked ∧ checked.diagnostics = [] ∧
    ∃ n ∈ checked.node.toList, ∃ branch ∈ n.expression.branches,
      ¬ branch.decoration.type.agrees n.decoration.type

/-- The type of a record that holds itself is cut elsewhere than the type of the other side. Where it
is lost that names are one, a side is `false` and the whole is `true`. A dual keeps the implicit
parameters that were supplied to its sides. -/
theorem branch_types_can_differ :
    BranchesDiffer (.taking "z" (.both (.named "z") (.cell (.named "z")))) ∧
      BranchesDiffer crossedDuals ∧ BranchesDiffer (.bound "b" .yes (.both .found .found)) := by
  have hdiffer : ∀ tree, ((check {} ({} : Counter) tree).toOption.any fun checked =>
      checked.diagnostics.isEmpty ∧ ∃ n ∈ checked.node.toList, ∃ branch ∈ n.expression.branches,
        ¬ branch.decoration.type.agrees n.decoration.type) → BranchesDiffer tree := by
    intro tree h
    obtain ⟨checked, hchecked, hall⟩ := exists_ok_of_any h
    obtain ⟨hdiagnostics, hdiffer⟩ := of_decide_eq_true hall
    exact ⟨checked, hchecked, List.isEmpty_iff.mp hdiagnostics, hdiffer⟩
  refine ⟨hdiffer _ ?_, hdiffer _ ?_, hdiffer _ ?_⟩
  all_goals decide +kernel

end Tree

end ImplicitInference
