import ImplicitInference.Proofs.Agreement

/-!
Domains in which values are read. A domain has an element for every form over its elements, and
forms that differ by more than the sign of a zero give different elements, so a reading of the
variables extends to all values, and layers are read as equal exactly if their children are. Finite
values are one such domain, infinite trees are another. The leading implicit parameters of an
element are removed like those of a value; if there is no end to them, nothing is left.
-/

namespace ImplicitInference

structure Domain (M : Type) where
  make : Form M → M
  make_eq_make {x y : Form M} : make x = make y ↔ x.normal = y.normal
  nothing : M
  nothing_ne (parameter body : M) : nothing ≠ make (.function .implicit parameter body)

def Domain.values : Domain Value where
  make form := .term form.normal
  make_eq_make := by simp
  nothing := .var ""
  nothing_ne _ _ := by simp

namespace Domain

variable {M : Type} (d : Domain M) (s : String → M)

def eval : Value → M := Value.fold s d.make

@[simp] theorem eval_var (name : String) : d.eval s (.var name) = s name := by simp [eval]

theorem eval_term (form : Form Value) : d.eval s (.term form) = d.make (form.map (d.eval s)) := by
  simp [eval]

theorem eval_values (s : String → Value) (v : Value) :
    values.eval (fun name => (s name).normal) v = (v.subst s).normal := by
  induction v using Value.induction with
  | var name => simp
  | term form ih =>
    rw [eval_term, Value.subst_term, Value.normal_term, Form.map_map]
    exact congrArg (fun layer => Value.term layer.normal) (Form.map_congr ih)

theorem eval_normal (v : Value) : d.eval s v.normal = d.eval s v := by
  induction v using Value.induction with
  | var name => rfl
  | term form ih =>
    have hchildren : form.map (d.eval s ∘ Value.normal) = form.map (d.eval s) := Form.map_congr ih
    rw [Value.normal_term, eval_term, eval_term, Form.map_normal, Form.map_map, hchildren,
      make_eq_make, Form.normal_normal]

theorem eval_congr {v w : Value} (h : v.normal = w.normal) : d.eval s v = d.eval s w := by
  rw [← eval_normal, h, eval_normal]

theorem eval_subst (t : String → Value) (v : Value) :
    d.eval s (v.subst t) = d.eval (fun name => d.eval s (t name)) v := by
  induction v using Value.induction with
  | var name => simp
  | term form ih =>
    rw [Value.subst_term, eval_term, eval_term, Form.map_map]
    exact congrArg d.make (Form.map_congr ih)

theorem eval_wrapImplicits {v w : Value} (parameters : List Value) (h : d.eval s v = d.eval s w) :
    d.eval s (v.wrapImplicits parameters) = d.eval s (w.wrapImplicits parameters) := by
  induction parameters with
  | nil => exact h
  | cons parameter rest ih =>
    have hcons : ∀ u : Value, d.eval s (u.wrapImplicits (parameter :: rest)) =
        d.make (.function .implicit (d.eval s parameter) (d.eval s (u.wrapImplicits rest))) :=
      fun _ => d.eval_term s _
    rw [hcons, hcons, ih]

/-- What an element comes to without its leading implicit parameters. -/
inductive Strips : M → M → Prop
  | bare {t : M} (h : ∀ parameter body, t ≠ d.make (.function .implicit parameter body)) :
      Strips t t
  | layer {parameter body u : M} (h : Strips body u) :
      Strips (d.make (.function .implicit parameter body)) u

open Classical in
noncomputable def strip (t : M) : M := if h : ∃ u, d.Strips t u then h.choose else d.nothing

noncomputable def shown (evaluated : Bool) (t : M) : M := if evaluated then d.strip t else t

variable {d} {t u w parameter body : M}

theorem make_implicit_inj {p b : M}
    (h : d.make (.function .implicit parameter body) = d.make (.function .implicit p b)) :
    body = b := by
  rw [make_eq_make] at h
  simp only [Form.normal, Form.function.injEq] at h
  exact h.2.2

theorem Strips.unique (h : d.Strips t u) (h' : d.Strips t w) : u = w := by
  induction h with
  | bare hbare =>
    cases h' with
    | bare _ => rfl
    | layer _ => exact absurd rfl (hbare _ _)
  | @layer p b u hrest ih =>
    generalize ht : d.make (.function .implicit p b) = t at h'
    cases h' with
    | bare hbare => exact absurd ht.symm (hbare _ _)
    | layer hother =>
      rw [← make_implicit_inj ht] at hother
      exact ih hother

theorem strip_eq (h : d.Strips t u) : d.strip t = u := by
  have hex : ∃ u, d.Strips t u := ⟨u, h⟩
  rw [strip, dif_pos hex]
  exact hex.choose_spec.unique h

theorem Strips.self (h : d.Strips t u) : d.Strips u u := by
  induction h with
  | bare hbare => exact .bare hbare
  | layer _ ih => exact ih

theorem strip_strip (t : M) : d.strip (d.strip t) = d.strip t := by
  by_cases hex : ∃ u, d.Strips t u
  · obtain ⟨u, hu⟩ := hex
    rw [strip_eq hu, strip_eq hu.self]
  · rw [strip.eq_def d t, dif_neg hex]
    exact strip_eq (.bare d.nothing_ne)

theorem strip_implicit (parameter body : M) :
    d.strip (d.make (.function .implicit parameter body)) = d.strip body := by
  by_cases hex : ∃ u, d.Strips body u
  · obtain ⟨u, hu⟩ := hex
    rw [strip_eq hu, strip_eq (.layer hu)]
  · have hnone : ¬ ∃ u, d.Strips (d.make (.function .implicit parameter body)) u := by
      rintro ⟨u, hu⟩
      generalize ht : d.make (.function .implicit parameter body) = t at hu
      cases hu with
      | bare hbare => exact hbare _ _ ht.symm
      | layer hrest => exact hex ⟨u, make_implicit_inj ht ▸ hrest⟩
    rw [strip, strip, dif_neg hex, dif_neg hnone]

theorem strip_eval (s : String → M) (v : Value) :
    d.strip (d.eval s v.stripImplicits) = d.strip (d.eval s v) := by
  fun_induction Value.stripImplicits v with
  | case1 parameter body ih =>
    rw [ih, eval_term]
    exact (strip_implicit _ _).symm
  | case2 v _ => rfl

end Domain

end ImplicitInference
