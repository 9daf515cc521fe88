import ImplicitInference.Value.Implicits

/-!
Agreement of values is equality of normal forms. The two zeros are the only words that agree
without being identical, so a normal form is a value in which every zero is the positive one.
Substitution and the removal of implicit parameters are stated here through normal forms; everything
that is said about agreement elsewhere is an equation between normal forms.
-/

namespace ImplicitInference

namespace Number

/-- The positive zero stands for both zeros. -/
def normal (x : Number) : Number := if x.isZero then zero false else x

theorem not_nan_of_zero {x : Number} (h : x.isZero) : x.isNaN = false := by
  simp only [isZero, Bool.and_eq_true, beq_iff_eq] at h
  simp [isNaN, h.2]

theorem agrees_iff (x y : Number) : x.agrees y ↔ x.normal = y.normal := by
  have hz : (zero false).isZero := by decide
  by_cases hx : x.isZero <;> by_cases hy : y.isZero
  · simp [agrees, equal, normal, hx, hy, not_nan_of_zero]
  · have hne : x ≠ y := fun h => hy (h ▸ hx)
    have hne' : zero false ≠ y := fun h => hy (h ▸ hz)
    simp [agrees, equal, normal, hx, hy, hne, hne']
  · have hne : x ≠ y := fun h => hx (h ▸ hy)
    have hne' : x ≠ zero false := fun h => hx (h ▸ hz)
    simp [agrees, equal, normal, hx, hy, hne, hne']
  · simp only [agrees, equal, normal, hx, hy]
    by_cases h : x = y <;> simp [h]

theorem normal_normal (x : Number) : x.normal.normal = x.normal := by
  by_cases hx : x.isZero
  · simp [normal, hx, show (zero false).isZero from by decide]
  · simp [normal, hx]

end Number

namespace Literal

def normal : Literal → Literal
  | number x => number x.normal
  | a => a

theorem normal_normal (a : Literal) : a.normal.normal = a.normal := by
  cases a <;> simp [normal, Number.normal_normal]

theorem agrees_iff (a b : Literal) : a.agrees b ↔ a.normal = b.normal := by
  cases a <;> cases b <;> simp [agrees, normal, Number.agrees_iff]

theorem agrees_of_equal {a b : Literal} (h : a.equal b) : a.agrees b := by
  cases a <;> cases b <;> simp_all [agrees, equal, Number.agrees]

end Literal

namespace Form

variable {α β γ : Type}

def normal : Form α → Form α
  | literal a => literal a.normal
  | form => form

theorem map_normal (f : α → β) (form : Form α) : form.normal.map f = (form.map f).normal := by
  cases form <;> rfl

theorem normal_normal (form : Form α) : form.normal.normal = form.normal := by
  cases form with
  | literal a => exact congrArg literal a.normal_normal
  | _ => rfl

@[simp] theorem children_normal (form : Form α) : form.normal.children = form.children := by
  cases form <;> rfl

theorem mem_children_map {f : α → β} {form : Form α} {a : α} (h : a ∈ form.children) :
    f a ∈ (form.map f).children := by
  rw [children_map]
  exact List.mem_map_of_mem h

theorem map_congr {f g : α → β} {form : Form α} (h : ∀ a ∈ form.children, f a = g a) :
    form.map f = form.map g := by
  cases form with
  | literal a => rfl
  | record fields =>
    have hfields : ∀ field ∈ fields, (field.1, f field.2) = (field.1, g field.2) :=
      fun field hf => by rw [h field.2 (List.mem_map_of_mem hf)]
    simp only [map, List.map_congr_left hfields]
  | function p parameter body | application parameter body | dual parameter body =>
    simp only [map, h parameter (by simp [children]), h body (by simp [children])]
  | data name parameters =>
    have hrest := List.map_congr_left fun a ha => h a (List.mem_cons_of_mem name ha)
    simp only [map, h name (by simp [children]), hrest]
  | read source accessor => simp only [map, h source (by simp [children])]
  | choice subject arms =>
    have harms : ∀ arm ∈ arms, (f arm.1, f arm.2) = (g arm.1, g arm.2) := by
      intro arm ha
      have hmem : ∀ a ∈ [arm.1, arm.2], f a = g a := fun a hm =>
        h a (List.mem_cons_of_mem subject (List.mem_flatMap.mpr ⟨arm, ha, hm⟩))
      rw [hmem arm.1 (by simp), hmem arm.2 (by simp)]
    simp only [map, h subject (by simp [children]), List.map_congr_left harms]

theorem map_eq_map_iff {f g : α → β} {x : Form α} :
    x.map f = x.map g ↔ ∀ a ∈ x.children, f a = g a := by
  refine ⟨fun h a ha => ?_, map_congr⟩
  have hchildren := congrArg children h
  rw [children_map, children_map] at hchildren
  exact List.map_inj_left.mp hchildren a ha

theorem allPairs_iff {p : α → β → Bool} {f : α → γ} {g : β → γ} {as : List α} {bs : List β}
    (h : ∀ a ∈ as, ∀ b ∈ bs, (p a b ↔ f a = g b)) : allPairs p as bs ↔ as.map f = bs.map g := by
  induction as generalizing bs with
  | nil => cases bs <;> simp [allPairs]
  | cons a as ih =>
    cases bs with
    | nil => simp [allPairs]
    | cons b bs =>
      have hab := h a (by simp) b (by simp)
      have hrest : allPairs p as bs ↔ as.map f = bs.map g :=
        ih fun a ha b hb => h a (by simp [ha]) b (by simp [hb])
      simp [allPairs, hab, hrest]

theorem allPairs_map_left (f : α → β) (p : β → γ → Bool) (as : List α) (cs : List γ) :
    allPairs p (as.map f) cs = allPairs (fun a c => p (f a) c) as cs := by
  induction as generalizing cs with
  | nil => cases cs <;> rfl
  | cons a as ih => cases cs <;> simp [allPairs, ih]

theorem compare_map_left (literals : Literal → Literal → Bool) (f : α → β) (p : β → γ → Bool)
    (x : Form α) (y : Form γ) :
    (x.map f).compare literals p y = x.compare literals (fun a c => p (f a) c) y := by
  cases x <;> cases y <;> simp [compare, map, allPairs_map_left]

theorem allPairs_mono {p q : α → β → Bool} {as : List α} {bs : List β}
    (h : ∀ a ∈ as, ∀ b, p a b → q a b) (hp : allPairs p as bs) : allPairs q as bs := by
  induction as generalizing bs with
  | nil => cases bs <;> simp_all [allPairs]
  | cons a as ih =>
    cases bs with
    | nil => simp [allPairs] at hp
    | cons b bs =>
      simp only [allPairs, Bool.and_eq_true] at hp ⊢
      exact ⟨h a (by simp) b hp.1, ih (fun a ha => h a (by simp [ha])) hp.2⟩

theorem compare_mono {l m : Literal → Literal → Bool} {p q : α → β → Bool} {x : Form α} {y : Form β}
    (hl : ∀ a b, x = literal a → l a b → m a b) (h : ∀ a ∈ x.children, ∀ b, p a b → q a b)
    (hp : x.compare l p y) : x.compare m q y := by
  cases x with
  | literal a => cases y <;> simp_all [compare]
  | record fs =>
    cases y with
    | record gs =>
      refine allPairs_mono (fun f hf g hpq => ?_) hp
      simp only [Bool.and_eq_true] at hpq ⊢
      exact ⟨hpq.1, h f.2 (List.mem_map_of_mem hf) g.2 hpq.2⟩
    | _ => simp [compare] at hp
  | function _ a b | application a b | dual a b | read a _ =>
    cases y <;> simp_all [compare, children]
  | data a as =>
    cases y with
    | data b bs =>
      simp only [compare, Bool.and_eq_true] at hp ⊢
      exact ⟨h a (by simp [children]) b hp.1,
        allPairs_mono (fun c hc => h c (List.mem_cons_of_mem a hc)) hp.2⟩
    | _ => simp [compare] at hp
  | choice a as =>
    cases y with
    | choice b bs =>
      simp only [compare, Bool.and_eq_true] at hp ⊢
      refine ⟨h a (by simp [children]) b hp.1, allPairs_mono (fun c hc d hpq => ?_) hp.2⟩
      have hmem : ∀ e ∈ [c.1, c.2], ∀ k, p e k → q e k := fun e he =>
        h e (List.mem_cons_of_mem a (List.mem_flatMap.mpr ⟨c, hc, he⟩))
      simp only [Bool.and_eq_true] at hpq ⊢
      exact ⟨hmem c.1 (by simp) d.1 hpq.1, hmem c.2 (by simp) d.2 hpq.2⟩
    | _ => simp [compare] at hp

/-- Layers compare equal if they do after a map that turns the relation into equality. -/
theorem compare_iff {p : α → β → Bool} {f : α → γ} {g : β → γ} {x : Form α} {y : Form β}
    (h : ∀ a ∈ x.children, ∀ b ∈ y.children, (p a b ↔ f a = g b)) :
    x.compare Literal.agrees p y ↔ (x.map f).normal = (y.map g).normal := by
  cases x with
  | literal a => cases y <;> simp [compare, map, normal, Literal.agrees_iff]
  | record fs =>
    cases y with
    | record gs =>
      have hpairs : ∀ a ∈ fs, ∀ b ∈ gs,
          ((a.1 == b.1 && p a.2 b.2) ↔ (a.1, f a.2) = (b.1, g b.2)) := by
        intro a ha b hb
        simp [h a.2 (List.mem_map_of_mem ha) b.2 (List.mem_map_of_mem hb)]
      simp [compare, map, normal, allPairs_iff hpairs]
    | _ => simp [compare, map, normal]
  | function i a b =>
    cases y with
    | function j c d => simp_all [compare, map, normal, children, and_assoc]
    | _ => simp [compare, map, normal]
  | application a b =>
    cases y with
    | application c d => simp_all [compare, map, normal, children]
    | _ => simp [compare, map, normal]
  | data a as =>
    cases y with
    | data b bs =>
      have hpairs : allPairs p as bs ↔ as.map f = bs.map g :=
        allPairs_iff fun x hx y hy => h x (List.mem_cons_of_mem a hx) y (List.mem_cons_of_mem b hy)
      simp [compare, map, normal, hpairs, h a (by simp [children]) b (by simp [children])]
    | _ => simp [compare, map, normal]
  | dual a b =>
    cases y with
    | dual c d => simp_all [compare, map, normal, children]
    | _ => simp [compare, map, normal]
  | read a i =>
    cases y with
    | read b j => simp_all [compare, map, normal, children]
    | _ => simp [compare, map, normal]
  | choice a as =>
    cases y with
    | choice b bs =>
      have hpairs : ∀ x ∈ as, ∀ y ∈ bs,
          ((p x.1 y.1 && p x.2 y.2) ↔ (f x.1, f x.2) = (g y.1, g y.2)) := by
        intro x hx y hy
        have hmem : ∀ c ∈ [x.1, x.2], ∀ d ∈ [y.1, y.2], (p c d ↔ f c = g d) := fun c hc d hd =>
          h c (List.mem_cons_of_mem a (List.mem_flatMap.mpr ⟨x, hx, hc⟩))
            d (List.mem_cons_of_mem b (List.mem_flatMap.mpr ⟨y, hy, hd⟩))
        simp [hmem x.1 (by simp) y.1 (by simp), hmem x.2 (by simp) y.2 (by simp)]
      simp [compare, map, normal, allPairs_iff hpairs, h a (by simp [children]) b (by simp [children])]
    | _ => simp [compare, map, normal]

end Form

namespace Value

def normal : Value → Value := fold var fun form => term form.normal

@[simp] theorem normal_var (name : String) : (var name).normal = var name := by simp [normal]

@[simp] theorem normal_term (form : Form Value) :
    (term form).normal = term (form.map normal).normal := by simp [normal]

theorem normal_normal (v : Value) : v.normal.normal = v.normal := by
  induction v using Value.induction with
  | var name => simp
  | term form ih =>
    rw [normal_term, normal_term, Form.map_normal, Form.normal_normal, Form.map_map]
    exact congrArg (fun layer => term layer.normal) (Form.map_congr ih)

@[simp] theorem subst_var (s : String → Value) (name : String) : (var name).subst s = s name := by
  simp [subst]

@[simp] theorem subst_term (s : String → Value) (form : Form Value) :
    (term form).subst s = term (form.map (subst s)) := by simp [subst]

theorem normal_subst (s : String → Value) (v : Value) :
    (v.subst s).normal = v.normal.subst fun name => (s name).normal := by
  induction v using Value.induction with
  | var name => simp
  | term form ih =>
    simp only [subst_term, normal_term, Form.map_normal, Form.map_map]
    exact congrArg (fun layer => term layer.normal) (Form.map_congr ih)

theorem compare_term (literals : Literal → Literal → Bool) (form form' : Form Value) :
    compare literals (term form) (term form') =
      form.compare literals (compare literals) form' := by
  have hlayer := Form.compare_map_left literals (compare literals) (fun test value => test value)
    form form'
  rw [← hlayer]
  exact congrFun (fold_term _ _ form) (term form')

theorem agrees_iff (v w : Value) : v.agrees w ↔ v.normal = w.normal := by
  induction v using Value.induction generalizing w with
  | var name => cases w <;> simp [agrees, compare]
  | term form ih =>
    cases w with
    | var name => simp [agrees, compare]
    | term form' =>
      rw [agrees, compare_term]
      have hlayer := Form.compare_iff (x := form) (y := form') fun a ha b _ => ih a ha b
      rw [show compare Literal.agrees = agrees from rfl, hlayer]
      simp

theorem normal_eq_of_equal {v w : Value} (h : v.equal w) : v.normal = w.normal := by
  rw [← agrees_iff]
  induction v using Value.induction generalizing w with
  | var name =>
    cases w with
    | var name' => simpa [agrees, equal, compare] using h
    | term form => simp [equal, compare] at h
  | term form ih =>
    cases w with
    | var name => simp [equal, compare] at h
    | term form' =>
      rw [equal, compare_term] at h
      rw [agrees, compare_term]
      exact Form.compare_mono (fun _ _ _ => Literal.agrees_of_equal) (fun a ha b => ih a ha) h

section Implicits

@[simp] theorem stripImplicits_var (name : String) : (var name).stripImplicits = var name := by
  rw [stripImplicits]; intro p b h; cases h

@[simp] theorem stripImplicits_implicit (parameter body : Value) :
    (function .implicit parameter body).stripImplicits = body.stripImplicits := by
  rw [stripImplicits]

theorem stripImplicits_ne_implicit (v parameter body : Value) :
    v.stripImplicits ≠ function .implicit parameter body := by
  fun_induction stripImplicits v with
  | case1 _ _ ih => exact ih
  | case2 v h => exact h parameter body

@[simp] theorem stripImplicits_stripImplicits (v : Value) :
    v.stripImplicits.stripImplicits = v.stripImplicits := by
  rw [stripImplicits]
  exact fun parameter body h => stripImplicits_ne_implicit v parameter body h

/-- A layer is an implicit function after a map exactly if it was one before. -/
theorem stripImplicits_term_map {form : Form Value} (f : Value → Value)
    (h : ∀ parameter body, term form ≠ function .implicit parameter body) :
    (term (form.map f)).stripImplicits = term (form.map f) := by
  rw [stripImplicits]
  intro parameter body heq
  cases form with
  | function plicity p b =>
    simp only [Form.map, term.injEq, Form.function.injEq] at heq
    exact h p b (by rw [heq.1])
  | _ => simp [Form.map] at heq

theorem normal_stripImplicits (v : Value) : v.stripImplicits.normal = v.normal.stripImplicits := by
  fun_induction stripImplicits v with
  | case1 parameter body ih => rw [ih]; simp [Form.map, Form.normal]
  | case2 v h =>
    cases v with
    | var name => simp
    | term form =>
      rw [normal_term]
      cases form with
      | literal a => rfl
      | _ => exact (stripImplicits_term_map normal h).symm

theorem stripImplicits_subst (s : String → Value) (v : Value) :
    (v.subst s).stripImplicits = (v.stripImplicits.subst s).stripImplicits := by
  fun_induction stripImplicits v with
  | case1 parameter body ih => rw [← ih]; simp [Form.map]
  | case2 v h => rfl

/-- Without its implicit parameters a value is a variable or keeps its outermost layer. -/
theorem stripImplicits_subst_term {s : String → Value} {v : Value} {form : Form Value}
    (h : v.stripImplicits = term form) :
    (v.subst s).stripImplicits = (term form).subst s := by
  rw [stripImplicits_subst, h, subst_term]
  exact stripImplicits_term_map _ fun parameter body heq =>
    stripImplicits_ne_implicit v parameter body (h.trans heq)

theorem wrapImplicits_stripImplicits (v : Value) :
    v.stripImplicits.wrapImplicits v.implicitParameters = v := by
  fun_induction stripImplicits v with
  | case1 parameter body ih =>
    rw [implicitParameters]
    exact congrArg (function .implicit parameter) ih
  | case2 v h =>
    rw [implicitParameters]
    · rfl
    · exact h

theorem wrapImplicits_cons (body parameter : Value) (rest : List Value) :
    body.wrapImplicits (parameter :: rest) =
      function .implicit parameter (body.wrapImplicits rest) := rfl

theorem normal_subst_wrapImplicits {s : String → Value} {v w : Value} (parameters : List Value)
    (h : (v.subst s).normal = (w.subst s).normal) :
    ((v.wrapImplicits parameters).subst s).normal =
      ((w.wrapImplicits parameters).subst s).normal := by
  induction parameters with
  | nil => exact h
  | cons parameter rest ih => simp [wrapImplicits_cons, Form.map, ih]

theorem implicitCount_stripImplicits (v : Value) : v.stripImplicits.implicitCount = 0 := by
  rw [implicitCount, implicitParameters]
  · rfl
  · exact stripImplicits_ne_implicit v

theorem stripImplicits_eq_self {v : Value} (h : v.implicitCount = 0) : v.stripImplicits = v := by
  have hwrap := wrapImplicits_stripImplicits v
  rwa [List.eq_nil_of_length_eq_zero h] at hwrap

end Implicits

end Value

end ImplicitInference
