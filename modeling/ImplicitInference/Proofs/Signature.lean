import ImplicitInference.Proofs.Recursion

/-!
What values are made of. A signature says which variables and which layers a value may have. What two
values within a signature come to, and all that is assumed about their variables, is within it too,
for unification makes nothing up: each layer of an outcome is a layer of one of the two values. That
there are no duals is such a signature; so is that there are no NaNs, or only given variables. The
layers of types are another: with it a value is free of duals, and of all that only expressions have.
-/

namespace ImplicitInference

namespace Form

variable {α β : Type}

def outline (form : Form α) : Form Unit := form.map fun _ => ()

@[simp] theorem outline_map (f : α → β) (form : Form α) : (form.map f).outline = form.outline := by
  rw [outline, map_map]
  rfl

end Form

structure Signature where
  names : String → Prop
  layers : Form Unit → Prop

namespace Value

def Within (sig : Signature) : Value → Prop :=
  fold sig.names fun form => sig.layers form.outline ∧ ∀ part ∈ form.children, part

variable {sig : Signature} {v body : Value} {form : Form Value}

@[simp] theorem within_var {name : String} : (var name).Within sig ↔ sig.names name := by
  simp [Within]

theorem within_term :
    (term form).Within sig ↔ sig.layers form.outline ∧ ∀ v ∈ form.children, v.Within sig := by
  rw [Within, fold_term, Form.outline_map, Form.children_map, List.forall_mem_map]

theorem Within.child (h : (term form).Within sig) (hv : v ∈ form.children) : v.Within sig :=
  (within_term.mp h).2 v hv

theorem Within.sides {sides : Value × Value} (h : (term form).Within sig)
    (hsides : form.sides? = some sides) : sides.1.Within sig ∧ sides.2.Within sig := by
  rw [Form.eq_dual_of_sides? hsides] at h
  exact ⟨h.child (by simp [Form.children]), h.child (by simp [Form.children])⟩

theorem Within.stripImplicits (h : v.Within sig) : v.stripImplicits.Within sig := by
  fun_induction Value.stripImplicits v with
  | case1 parameter body ih => exact ih (h.child (by simp [Form.children]))
  | case2 v _ => exact h

/-- The implicit parameters of one value may stand before another. -/
theorem Within.wrapImplicits (h : v.Within sig) (hbody : body.Within sig) :
    (body.wrapImplicits v.implicitParameters).Within sig := by
  fun_induction implicitParameters v with
  | case1 parameter rest ih =>
    obtain ⟨hlayer, hchildren⟩ := within_term.mp h
    have hrest := ih (hchildren rest (by simp [Form.children]))
    refine within_term.mpr ⟨hlayer, fun part hpart => ?_⟩
    rcases List.mem_pair.mp hpart with rfl | rfl
    · exact hchildren _ (by simp [Form.children])
    · exact hrest
  | case2 v _ => exact hbody

theorem Within.implicitParameters (h : v.Within sig) : ∀ w ∈ v.implicitParameters, w.Within sig := by
  fun_induction Value.implicitParameters v with
  | case1 parameter body ih =>
    exact List.forall_mem_cons.mpr
      ⟨h.child (by simp [Form.children]), ih (h.child (by simp [Form.children]))⟩
  | case2 v _ => exact List.forall_mem_nil _

theorem Within.subst {s : String → Value} (h : v.Within sig)
    (hs : ∀ name, sig.names name → (s name).Within sig) : (v.subst s).Within sig := by
  induction v using Value.induction with
  | var name => simpa using hs name (within_var.mp h)
  | term form ih =>
    obtain ⟨hlayer, hchildren⟩ := within_term.mp h
    rw [subst_term, within_term, Form.outline_map, Form.children_map, List.forall_mem_map]
    exact ⟨hlayer, fun v hv => ih v hv (hchildren v hv)⟩

end Value

namespace Unified

variable {sig : Signature}

def Within (sig : Signature) (u : Unified) : Prop :=
  u.value.Within sig ∧ ∀ assumed ∈ u.assumptions, sig.names assumed.1 ∧ assumed.2.Within sig

theorem within_keep {v : Value} (h : v.Within sig) : (keep v).Within sig :=
  ⟨h, List.forall_mem_nil _⟩

theorem within_assume {name : String} {v : Value} (hname : sig.names name) (h : v.Within sig) :
    (assume name v).Within sig :=
  ⟨h, List.forall_mem_singleton.mpr ⟨hname, h⟩⟩

theorem Within.andThen {first second : Unified} (hfirst : first.Within sig)
    (hsecond : second.Within sig) : (first.andThen second).Within sig :=
  ⟨hsecond.1, List.forall_mem_append.mpr ⟨hfirst.2, hsecond.2⟩⟩

theorem within_ofForm {parts : Form Unified} {clash : Option Diagnostic}
    (hlayer : sig.layers parts.outline) (hparts : ∀ part ∈ parts.children, part.Within sig) :
    (ofForm parts clash).Within sig := by
  constructor
  · refine Value.within_term.mpr ⟨by rwa [Form.outline_map], ?_⟩
    rw [Form.children_map, List.forall_mem_map]
    exact fun part hpart => (hparts part hpart).1
  · intro assumed hassumed
    obtain ⟨part, hpart, hmem⟩ := List.mem_flatMap.mp hassumed
    exact (hparts part hpart).2 assumed hmem

end Unified

namespace Value

/-- Unification stays within the signature of its values. -/
theorem within_unify {sig : Signature} {left right : Value} (hleft : left.Within sig)
    (hright : right.Within sig) : (left.unify right).Within sig := by
  revert hleft hright
  refine unify_induction
    (motive := fun left right u => left.Within sig → right.Within sig → u.Within sig) ?_ left right
  intro left right pairs u h ih hleft hright
  cases h with
  | same _ => exact Unified.within_keep hleft
  | varLeft _ => exact Unified.within_assume (within_var.mp hleft) hright
  | varRight => exact Unified.within_assume (within_var.mp hright) hleft
  | dualLeft _ =>
    obtain ⟨ha, hb⟩ := hleft.sides rfl
    have hcollapsed := ih _ List.mem_cons_self ha hb
    exact hcollapsed.andThen
      (ih _ (List.mem_cons_of_mem _ List.mem_cons_self) hcollapsed.1 hright)
  | dualRight _ _ =>
    obtain ⟨ha, hb⟩ := hright.sides rfl
    have hcollapsed := ih _ List.mem_cons_self ha hb
    exact hcollapsed.andThen
      (ih _ (List.mem_cons_of_mem _ List.mem_cons_self) hleft hcollapsed.1)
  | @joined f g _ _ _ =>
    have hlayer : sig.layers (f.join g).1.outline := by
      rw [← Form.outline_map Prod.fst, Form.map_fst_join]
      exact (within_term.mp hleft).1
    have hparts : ∀ pair ∈ (f.join g).1.children, (Unified.ofPair unify pair).Within sig := by
      apply Unified.forall_ofPair (P := fun _ u => u.Within sig)
      · intro a ha
        exact Unified.within_keep (hleft.child ha)
      · intro call hcall
        obtain ⟨ha, hb⟩ := Form.mem_children_of_mem_partners hcall
        exact ih call hcall (hleft.child ha) (hright.child hb)
    apply Unified.within_ofForm
    · rwa [Form.outline_map]
    · rwa [Form.children_map, List.forall_mem_map]

end Value

def Signature.dualFree : Signature := ⟨fun _ => True, fun layer => layer.sides? = none⟩

theorem Value.dualFree_iff_within (v : Value) : v.dualFree ↔ v.Within .dualFree := by
  induction v using Value.induction with
  | var name => simp [Signature.dualFree]
  | term form ih =>
    have hsides : form.outline.sides? = none ↔ form.sides? = none := by
      rw [Form.outline, Form.sides?_map, Option.map_eq_none_iff]
    rw [dualFree_term, within_term]
    exact and_congr hsides.symm (forall₂_congr ih)

theorem Value.dualFree_unify {left right : Value} (hleft : left.dualFree) (hright : right.dualFree) :
    (left.unify right).value.dualFree ∧
      ∀ assumed ∈ (left.unify right).assumptions, assumed.2.dualFree := by
  simp only [dualFree_iff_within] at hleft hright ⊢
  obtain ⟨hvalue, hassumed⟩ := within_unify hleft hright
  exact ⟨hvalue, fun assumed hmem => (hassumed assumed hmem).2⟩

/-- Whether a layer is one of a type: a literal, a record, a data value, or a function of one of
these plicities. -/
def Form.isType {α : Type} (allowed : List Plicity) : Form α → Bool
  | literal _ | record _ | data _ _ => true
  | function plicity _ _ => allowed.contains plicity
  | _ => false

def Signature.types (allowed : List Plicity) : Signature :=
  ⟨fun _ => True, fun layer => layer.isType allowed⟩

namespace Value

variable {allowed : List Plicity} {v : Value}

theorem Within.dualFree (h : v.Within (.types allowed)) : v.dualFree := by
  rw [dualFree_iff_within]
  induction v using Value.induction with
  | var name => trivial
  | term form ih =>
    obtain ⟨hlayer, hchildren⟩ := within_term.mp h
    refine within_term.mpr ⟨?_, fun v hv => ih v hv (hchildren v hv)⟩
    cases form with
    | dual left right => cases hlayer
    | _ => rfl

theorem within_map_var {f : Form String} (h : f.isType allowed) :
    (term (f.map var)).Within (.types allowed) := by
  rw [within_term, Form.outline_map, Form.children_map, List.forall_mem_map]
  refine ⟨?_, fun name _ => within_var.mpr trivial⟩
  cases f <;> exact h

theorem Within.implicitParameters_eq_nil (h : v.Within (.types [.explicit])) :
    v.implicitParameters = [] := by
  unfold Value.implicitParameters
  split
  · exact absurd (within_term.mp h).1 (by simp [Signature.types, Form.isType, Form.outline, Form.map])
  · rfl

end Value

end ImplicitInference
