import ImplicitInference.Proofs.Checking

/-!
Types of references. A binding makes its name and its value one type, and a reference has the type of
the name. The types that a reference and the bound value are given agree if nothing was left to be
replaced in them. Where they are recursive they may be cut at different variables, and are still the
same type.
-/

namespace ImplicitInference

/-- In a binding, the type of every reference in the body is related to the type of the value. -/
def Expr.References (related : Value → Value → Prop) : Expr (Node Typed) → Prop
  | .binding name value body => ∀ n ∈ body.toList, n.expression.refersTo name →
      related n.decoration.type value.decoration.type
  | _ => True

instance (related : Value → Value → Prop) [DecidableRel related] (e : Expr (Node Typed)) :
    Decidable (e.References related) :=
  match e with
  | .binding _ _ _ => inferInstanceAs (Decidable (∀ n ∈ _, _ → _))
  | .identifier _ | .form _ | .native _ => isTrue trivial

theorem Expr.References.mono {related related' : Value → Value → Prop} {e : Expr (Node Typed)}
    (h : e.References related) (himp : ∀ v w, related v w → related' v w) :
    e.References related' := by
  cases e with
  | binding name value body => exact fun n hn hrefers => himp _ _ (h n hn hrefers)
  | _ => trivial

theorem Sketched.equates_bound {constraints : List Constraint} {m value body : Node Shaped}
    {name : String} (h : Sketched constraints m)
    (hbinding : m.expression = .binding name value body) (hvalue : Sketched constraints value) :
    Equates constraints false (.var name) value.decoration.type := by
  intro M d s hs
  obtain ⟨asked, hdraws, hasked⟩ := h
  obtain ⟨e, var, type⟩ := m
  obtain rfl := hbinding
  cases hdraws with
  | binding =>
    have hbound : s value.decoration.name = d.eval s (.var name) :=
      hs _ (hasked _ (List.mem_append_left _ List.mem_cons_self))
    show d.eval s (.var name) = d.eval s value.decoration.type
    rw [← hbound, hvalue.eval_name hs]

theorem exists_binding {entries : Table Entry} {shaped : Node Shaped} {name : String}
    {value body : Node Typed} (h : (givenBy entries shaped).expression = .binding name value body) :
    ∃ value' body', shaped.expression = .binding name value' body' ∧ value = givenBy entries value' := by
  rw [givenBy, Node.expression_map] at h
  cases he : shaped.expression with
  | binding other value' body' =>
    rw [he, Expr.map] at h
    injection h with hname hvalue
    exact ⟨value', body', by rw [hname], hvalue.symm⟩
  | _ => rw [he] at h; cases h

section Tree

variable {σ D : Type} [NameSource σ]

/-- If nothing is reported, every reference in the body of a binding has the type of the bound value,
whatever is left in these types. They agree if nothing that has an entry is left in them and what was
skipped holds of the unfoldings. -/
theorem reference_has_bound_type (options : Options) (names : σ) (tree : Node D) (checked : Checked)
    (hchecked : check options names tree = .ok checked) (hdiagnostics : checked.diagnostics = []) :
    ∃ typed, typeTree options tree names = .ok typed ∧
      ∀ m ∈ typed.toList, m.expression.References fun v w =>
        (Proper (attachShapes tree names).node → SameType options checked.constraints false v w) ∧
          (KeepsSkipped options checked.constraints →
            v.Final checked.entries → w.Final checked.entries → v.agrees w) := by
  obtain ⟨typed, htyped, -, hreported, hconstraints, hentries⟩ := check_ok hchecked
  rw [hreported, List.append_eq_nil_iff] at hdiagnostics
  refine ⟨typed, htyped, fun m hm => ?_⟩
  cases hbinding : m.expression with
  | binding name value body =>
    intro n hn hrefers
    have hbody : body ∈ typed.toList :=
      Node.mem_toList_of_mem_children hm (by simp [hbinding, Expr.children])
    obtain ⟨binding, hmem, rfl⟩ := mem_typeTree htyped hm
    obtain ⟨reference, hreference, rfl⟩ := mem_typeTree htyped (Node.mem_toList_trans hn hbody)
    obtain ⟨value, _, hshaped, rfl⟩ := exists_binding hbinding
    have hvalue : value ∈ (attachShapes tree names).node.toList :=
      Node.mem_toList_of_mem_children hmem (by simp [hshaped, Expr.children])
    rw [givenBy, Node.expression_map, Expr.refersTo_map] at hrefers
    obtain ⟨hsketched, hdual⟩ := sketched_attachShapes tree names
    have hequates := (hsketched binding hmem).equates_bound hshaped (hsketched value hvalue)
    rw [hconstraints, hentries, type_givenBy htyped hreference, type_givenBy htyped hvalue,
      (hsketched reference hreference).type_eq hrefers]
    constructor
    · intro hproper
      exact hequates.sameType hdual hdiagnostics.1 (relation_of_proper hproper hdiagnostics.1)
    · exact hequates.agrees hdual hdiagnostics.1
  | _ => trivial

def Node.couple (left right : Node Unit) : Node Unit := .formed (.record [("a", left), ("b", right)])

def heldName : Node Unit :=
  .taking "x" (.bound "b" .yes (.bound "y" (.couple (.named "x") (.named "b"))
    (.both (.named "x") (.named "y"))))

theorem heldName_reference_has_bound_type :
    ∃ checked typed, check {} ({} : Counter) heldName = .ok checked ∧
      typeTree {} heldName ({} : Counter) = .ok typed ∧
      ∀ m ∈ typed.toList, m.expression.References fun v w =>
        SameType {} checked.constraints false v w ∧
          (v.Final checked.entries → w.Final checked.entries → v.agrees w) := by
  have hproper := proper_counter heldName (by decide) (by decide +kernel)
  have hchecks : (check {} ({} : Counter) heldName).toOption.any fun checked =>
      checked.diagnostics.isEmpty ∧ (skippedFacts {} checked.constraints).isEmpty := by
    decide +kernel
  obtain ⟨checked, hchecked, hall⟩ := exists_ok_of_any hchecks
  obtain ⟨hdiagnostics, hnone⟩ := of_decide_eq_true hall
  have hskipped : KeepsSkipped {} checked.constraints := by
    intro fact hfact
    rw [List.isEmpty_iff.mp hnone] at hfact
    exact absurd hfact List.not_mem_nil
  obtain ⟨typed, htyped, hreferences⟩ := reference_has_bound_type {} ({} : Counter) heldName checked
    hchecked (List.isEmpty_iff.mp hdiagnostics)
  refine ⟨checked, typed, hchecked, htyped, fun m hm => (hreferences m hm).mono ?_⟩
  exact fun v w h => ⟨h.1 hproper, h.2 hskipped⟩

def ReferencesDiffer (tree : Node Unit) : Prop :=
  ∃ checked typed, check {} ({} : Counter) tree = .ok checked ∧ checked.diagnostics = [] ∧
    typeTree {} tree ({} : Counter) = .ok typed ∧
    ¬ ∀ m ∈ typed.toList, m.expression.References fun v w => v.agrees w

/-- The type of a record that holds itself is cut at another place than the type of its name. Where a
fact is passed around between names and lost, even finite types differ. -/
theorem reference_types_can_differ : ReferencesDiffer heldName ∧ ReferencesDiffer crossedDuals := by
  have hchecks : ∀ tree ∈ [heldName, crossedDuals],
      ((check {} ({} : Counter) tree).toOption.any fun checked => checked.diagnostics.isEmpty) ∧
        (typeTree {} tree ({} : Counter)).toOption.any fun typed =>
          ¬ ∀ m ∈ typed.toList, m.expression.References fun v w => v.agrees w := by
    decide +kernel
  have hdiffers : ∀ tree ∈ [heldName, crossedDuals], ReferencesDiffer tree := by
    intro tree hmem
    obtain ⟨hsome, hdiffer⟩ := hchecks tree hmem
    obtain ⟨checked, hchecked, hdiagnostics⟩ := exists_ok_of_any hsome
    obtain ⟨typed, htyped, hdiffer⟩ := exists_ok_of_any hdiffer
    exact ⟨checked, typed, hchecked, List.isEmpty_iff.mp hdiagnostics, htyped,
      of_decide_eq_true hdiffer⟩
  exact ⟨hdiffers _ (by simp), hdiffers _ (by simp)⟩

end Tree

end ImplicitInference
