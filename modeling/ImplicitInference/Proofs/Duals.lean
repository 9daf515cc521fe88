import ImplicitInference.Proofs.Rigidity

/-!
Values up to duals. A dual whose sides are alike is like either of them, and that is all that sets
duals apart from other layers, so `Alike` is the least congruence with this rule. It is decided by
`collapsed`, which puts the left side in the place of every such dual. Unification takes duals apart
in the same way: if it reports nothing, every substitution that makes its assumptions alike makes
the two values alike, and what they come to is like them.
-/

namespace ImplicitInference

namespace Value

/-- The least congruence under which numbers that agree are alike, and a dual of sides that are alike
is like its left side. -/
inductive Alike : Value → Value → Prop
  | refl (v : Value) : Alike v v
  | symm {v w : Value} (h : Alike v w) : Alike w v
  | trans {u v w : Value} (h : Alike u v) (h' : Alike v w) : Alike u w
  | number {x y : Number} (h : x.agrees y) : Alike (number x) (number y)
  | layer (pairs : Form (Value × Value)) (h : ∀ pair ∈ pairs.children, Alike pair.1 pair.2) :
      Alike (term (pairs.map Prod.fst)) (term (pairs.map Prod.snd))
  | dual {left right : Value} (h : Alike left right) : Alike (dual left right) left

namespace Alike

variable {v w : Value} {form : Form Value}

theorem layer_congr {α : Type} {form : Form α} {f g : α → Value}
    (h : ∀ a ∈ form.children, Alike (f a) (g a)) : Alike (term (form.map f)) (term (form.map g)) := by
  have hlayer := layer (form.map fun a => (f a, g a)) (by
    rw [Form.children_map, List.forall_mem_map]
    exact h)
  rw [Form.map_map, Form.map_map] at hlayer
  exact hlayer

theorem layer_map {f : Value → Value} (h : ∀ v ∈ form.children, Alike v (f v)) :
    Alike (term form) (term (form.map f)) := by
  have hlayer := layer_congr (f := id) h
  rwa [Form.map_id] at hlayer

theorem normal_literal (a : Literal) : Alike (literal a) (literal a.normal) := by
  cases a with
  | number x => exact number ((Number.agrees_iff _ _).mpr x.normal_normal.symm)
  | _ => exact refl _

theorem normal_form (form : Form Value) : Alike (term form) (term form.normal) := by
  cases form with
  | literal a => exact normal_literal a
  | _ => exact refl _

theorem normal_self (v : Value) : Alike v v.normal := by
  induction v using Value.induction with
  | var name =>
    rw [normal_var]
    exact refl _
  | term form ih =>
    rw [normal_term]
    exact (layer_map ih).trans (normal_form _)

theorem of_normal (h : v.normal = w.normal) : Alike v w := by
  have hw := (normal_self w).symm
  rw [← h] at hw
  exact (normal_self v).trans hw

theorem subst_dual {s : String → Value} (h : Alike (v.subst s) (w.subst s)) :
    Alike ((Value.dual v w).subst s) (v.subst s) := by
  rw [subst_term]
  exact dual h

end Alike

section Collapsed

def collapse : Form Value → Value
  | .dual left right => if left.agrees right then left else dual left right
  | form => term form

def collapsed : Value → Value := fold var collapse

@[simp] theorem collapsed_var (name : String) : (var name).collapsed = var name := by
  simp [collapsed]

@[simp] theorem collapsed_term (form : Form Value) :
    (term form).collapsed = collapse (form.map collapsed) := by simp [collapsed]

variable {v w : Value}

theorem alike_collapse (form : Form Value) : Alike (term form) (collapse form) := by
  cases form with
  | dual left right =>
    by_cases h : left.agrees right
    · rw [collapse, if_pos h]
      exact .dual (.of_normal ((agrees_iff left right).mp h))
    · rw [collapse, if_neg h]
      exact .refl _
  | _ => exact .refl _

theorem alike_collapsed (v : Value) : Alike v v.collapsed := by
  induction v using Value.induction with
  | var name =>
    rw [collapsed_var]
    exact .refl _
  | term form ih =>
    rw [collapsed_term]
    exact (Alike.layer_map ih).trans (alike_collapse _)

/-- Whether a layer collapses depends on the normal forms of its children only. -/
theorem normal_collapse_congr (pairs : Form (Value × Value))
    (h : ∀ pair ∈ pairs.children, pair.1.normal = pair.2.normal) :
    (collapse (pairs.map Prod.fst)).normal = (collapse (pairs.map Prod.snd)).normal := by
  have hlayer : (term (pairs.map Prod.fst)).normal = (term (pairs.map Prod.snd)).normal := by
    rw [normal_term, normal_term, Form.map_map, Form.map_map]
    exact congrArg (fun layer => term layer.normal) (Form.map_congr h)
  cases pairs with
  | dual left right =>
    have hleft := h left (by simp [Form.children])
    have hright := h right (by simp [Form.children])
    have hagree : left.1.agrees right.1 ↔ left.2.agrees right.2 := by
      rw [agrees_iff, agrees_iff, hleft, hright]
    simp only [Form.map, collapse]
    by_cases hsides : left.1.agrees right.1
    · rw [if_pos hsides, if_pos (hagree.mp hsides)]
      exact hleft
    · rw [if_neg hsides, if_neg fun hother => hsides (hagree.mpr hother)]
      exact hlayer
  | _ => exact hlayer

theorem Alike.normal_collapsed (h : Alike v w) : v.collapsed.normal = w.collapsed.normal := by
  induction h with
  | refl v => rfl
  | symm _ ih => exact ih.symm
  | trans _ _ ih ih' => exact ih.trans ih'
  | @number x y h =>
    rw [collapsed_term, collapsed_term]
    show (Value.number x).normal = (Value.number y).normal
    rw [← agrees_iff, agrees, compare_term]
    exact h
  | layer pairs _ ih =>
    have hcongr := normal_collapse_congr (pairs.map fun pair => (pair.1.collapsed, pair.2.collapsed))
      (by rw [Form.children_map, List.forall_mem_map]; exact ih)
    rw [Form.map_map, Form.map_map] at hcongr
    rw [collapsed_term, collapsed_term, Form.map_map, Form.map_map]
    exact hcongr
  | dual _ ih =>
    rw [collapsed_term]
    exact congrArg normal (if_pos ((agrees_iff _ _).mpr ih))

theorem alike_iff (v w : Value) : Alike v w ↔ v.collapsed.agrees w.collapsed := by
  rw [agrees_iff]
  constructor
  · exact Alike.normal_collapsed
  · intro h
    exact ((alike_collapsed v).trans (.of_normal h)).trans (alike_collapsed w).symm

instance (v w : Value) : Decidable (Alike v w) := decidable_of_iff' _ (alike_iff v w)

end Collapsed

section Unification

variable {s : String → Value} {left right : Value}

/-- If nothing is reported, a substitution that makes all assumptions alike makes the two values alike,
and what they come to is like them. -/
theorem alike_of_unify (hsilent : (left.unify right).diagnostics = [])
    (hassumed : ∀ assumed ∈ (left.unify right).assumptions,
      Alike (s assumed.1) (assumed.2.subst s)) :
    Alike (left.subst s) (right.subst s) ∧
      Alike ((left.unify right).value.subst s) (left.subst s) := by
  revert hsilent hassumed
  refine unify_induction (motive := fun left right u => u.diagnostics = [] →
    (∀ assumed ∈ u.assumptions, Alike (s assumed.1) (assumed.2.subst s)) →
      Alike (left.subst s) (right.subst s) ∧ Alike (u.value.subst s) (left.subst s)) ?_ left right
  intro left right pairs u h ih hsilent hassumed
  cases h with
  | same heq =>
    refine ⟨.of_normal ?_, .refl _⟩
    rw [normal_subst, normal_subst, normal_eq_of_equal heq]
  | varLeft _ =>
    have hname := List.forall_mem_singleton.mp hassumed
    rw [subst_var]
    exact ⟨hname, hname.symm⟩
  | varRight =>
    have hname := List.forall_mem_singleton.mp hassumed
    rw [subst_var]
    exact ⟨hname.symm, .refl _⟩
  | dualLeft _ =>
    obtain ⟨hsides, hrest⟩ := List.append_eq_nil_iff.mp hsilent
    obtain ⟨hfirst, hsecond⟩ := List.forall_mem_append.mp hassumed
    obtain ⟨hboth, hcollapsed⟩ := ih _ List.mem_cons_self hsides hfirst
    obtain ⟨hright, hvalue⟩ :=
      ih _ (List.mem_cons_of_mem _ List.mem_cons_self) hrest hsecond
    have hdual := hboth.subst_dual
    exact ⟨(hdual.trans hcollapsed.symm).trans hright,
      hvalue.trans (hcollapsed.trans hdual.symm)⟩
  | dualRight _ _ =>
    obtain ⟨hsides, hrest⟩ := List.append_eq_nil_iff.mp hsilent
    obtain ⟨hfirst, hsecond⟩ := List.forall_mem_append.mp hassumed
    obtain ⟨hboth, hcollapsed⟩ := ih _ List.mem_cons_self hsides hfirst
    obtain ⟨hright, hvalue⟩ :=
      ih _ (List.mem_cons_of_mem _ List.mem_cons_self) hrest hsecond
    exact ⟨hright.trans (hcollapsed.trans hboth.subst_dual.symm), hvalue⟩
  | joined _ _ _ =>
    obtain ⟨a, b, rfl, rfl, hab, hkeep⟩ | ⟨q, rfl, rfl, hpairs, hparts, hunified⟩ :=
      ofJoin_silent hsilent
    · rw [hkeep]
      refine ⟨.of_normal ?_, .refl _⟩
      rw [subst_term, subst_term, ← agrees_iff, agrees, compare_term]
      exact hab
    · rw [hunified] at hassumed ⊢
      rw [hpairs] at ih
      have hpair : ∀ pair ∈ q.children, Alike (pair.1.subst s) (pair.2.subst s) ∧
          Alike ((pair.1.unify pair.2).value.subst s) (pair.1.subst s) := by
        intro pair hpair
        refine ih pair hpair (hparts pair hpair) fun assumed hmem => hassumed assumed ?_
        exact List.mem_flatMap.mpr ⟨_, Form.mem_children_map hpair, hmem⟩
      rw [Unified.ofForm]
      simp only [subst_term, Form.map_map]
      exact ⟨.layer_congr fun pair hmem => (hpair pair hmem).1,
        .layer_congr fun pair hmem => (hpair pair hmem).2⟩

end Unification

end Value

open Value

/-- If a convergence that starts with nothing reports nothing, then every substitution that makes each
recorded equation alike makes the two values alike, and the outcome is like the left one. -/
theorem solved_convergence_is_alike (origin : String) (left right : Value) (s : String → Value)
    (hsilent : (Convergence.converge { origin } left right).2.diagnostics = [])
    (hfacts : ∀ fact ∈ (Convergence.converge { origin } left right).2.facts,
      fact.relation = .equals → Alike (s fact.var) (fact.value.subst s)) :
    Alike (left.subst s) (right.subst s) ∧
      Alike ((Convergence.converge { origin } left right).1.subst s) (left.subst s) := by
  refine alike_of_unify hsilent fun assumed hassumed => ?_
  have hfact : Convergence.assumption { origin } assumed ∈
      (Convergence.converge { origin } left right).2.facts := List.mem_map_of_mem hassumed
  exact hfacts _ hfact rfl

def openDual : Value := .record [("a", .dual (.var "x") (.var "y"))]

def zeroDual : Value := .record [("a", .dual (.number (.zero false)) (.number (.zero true)))]

def zeros (name : String) : Value := .number (.zero (name = "x"))

theorem solved_zeroDual_is_alike :
    (Convergence.converge { origin := "o" } openDual zeroDual).2.facts.length = 2 ∧
      Alike (openDual.subst zeros) (zeroDual.subst zeros) ∧
      Alike ((Convergence.converge { origin := "o" } openDual zeroDual).1.subst zeros)
        (openDual.subst zeros) ∧ ¬ Alike (openDual.subst zeros) openDual := by
  obtain ⟨hboth, hvalue⟩ := solved_convergence_is_alike "o" openDual zeroDual zeros (by decide)
    (by decide)
  exact ⟨by decide, hboth, hvalue, by decide⟩

end ImplicitInference
