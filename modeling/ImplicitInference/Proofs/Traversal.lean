import ImplicitInference.Node.Basic
import ImplicitInference.Proofs.Agreement
import Mathlib.Algebra.GroupWithZero.Nat

/-!
What an action comes to that visits the children of a layer. The monads of this library only thread
a state or stop with an error, so a computation that succeeds is a step from one state to another
with a result. A traversal is then a chain of such steps, one for each child and in their order, and
the layers before and after it are two views of one layer of pairs.
-/

namespace ImplicitInference

/-- How the successful computations of a monad are read as steps. -/
structure Execution (m : Type → Type) [Monad m] (σ : Type) where
  Yields {β : Type} : m β → σ → β → σ → Prop
  yields_pure {β : Type} {b c : β} {s t : σ} : Yields (pure b) s c t ↔ c = b ∧ t = s
  yields_bind {α β : Type} {x : m α} {f : α → m β} {s t : σ} {b : β} :
    Yields (x >>= f) s b t ↔ ∃ a u, Yields x s a u ∧ Yields (f a) u b t

namespace Execution

def state (σ : Type) : Execution (StateM σ) σ where
  Yields x s b t := x s = (b, t)
  yields_pure := by
    intro β b c s t
    constructor
    · intro h
      exact ⟨(Prod.mk.inj h).1.symm, (Prod.mk.inj h).2.symm⟩
    · rintro ⟨rfl, rfl⟩
      rfl
  yields_bind := by
    intro α β x f s t b
    constructor
    · intro h
      exact ⟨(x s).1, (x s).2, rfl, h⟩
    · rintro ⟨a, u, hx, hf⟩
      show f (x s).1 (x s).2 = (b, t)
      rw [hx]
      exact hf

def except (ε : Type) : Execution (Except ε) Unit where
  Yields x _ b _ := x = .ok b
  yields_pure := by
    intro β b c s t
    exact ⟨fun h => ⟨(Except.ok.inj h).symm, rfl⟩, fun h => by rw [h.1]; rfl⟩
  yields_bind := by
    intro α β x f s t b
    cases x with
    | error e =>
      constructor
      · intro h
        cases h
      · rintro ⟨_, _, hx, _⟩
        cases hx
    | ok a =>
      constructor
      · intro h
        exact ⟨a, (), rfl, h⟩
      · rintro ⟨a', _, hx, hf⟩
        rw [Except.ok.inj hx]
        exact hf

end Execution

/-- A chain of steps that turns the first of each pair into the second. -/
inductive Visits {α β σ : Type} (step : α → β → σ → σ → Prop) : List (α × β) → σ → σ → Prop
  | nil {s : σ} : Visits step [] s s
  | cons {a : α} {b : β} {rest : List (α × β)} {s t u : σ} :
      step a b s t → Visits step rest t u → Visits step ((a, b) :: rest) s u

namespace Visits

variable {α β σ : Type} {step : α → β → σ → σ → Prop} {pairs : List (α × β)} {s t : σ}

theorem single {a : α} {b : β} (h : step a b s t) : Visits step [(a, b)] s t := cons h nil

theorem invariant {I : σ → Prop} (h : Visits step pairs s t) (hs : I s)
    (hstep : ∀ pair ∈ pairs, ∀ u v, step pair.1 pair.2 u v → I u → I v) : I t := by
  induction h with
  | nil => exact hs
  | cons hfirst _ ih =>
    exact ih (hstep _ List.mem_cons_self _ _ hfirst hs) fun pair hmem =>
      hstep pair (List.mem_cons_of_mem _ hmem)

/-- What each step establishes, and the later steps keep, holds at the end. -/
theorem spec {I : σ → Prop} {Q : α × β → σ → Prop} (h : Visits step pairs s t) (hs : I s)
    (hstep : ∀ pair ∈ pairs, ∀ u v, step pair.1 pair.2 u v → I u →
      I v ∧ Q pair v ∧ ∀ other, Q other u → Q other v) :
    I t ∧ ∀ pair ∈ pairs, Q pair t := by
  induction h with
  | nil => exact ⟨hs, List.forall_mem_nil _⟩
  | @cons a b rest s u t hfirst hrest ih =>
    obtain ⟨hu, hq, -⟩ := hstep (a, b) List.mem_cons_self s u hfirst hs
    have hlater := fun pair hmem => hstep pair (List.mem_cons_of_mem (a, b) hmem)
    obtain ⟨ht, hpairs⟩ := ih hu hlater
    have hkept : I t ∧ Q (a, b) t :=
      hrest.invariant (I := fun v => I v ∧ Q (a, b) v) ⟨hu, hq⟩ fun pair hmem u v hstep hboth =>
        ⟨(hlater pair hmem u v hstep hboth.1).1, (hlater pair hmem u v hstep hboth.1).2.2 _ hboth.2⟩
    exact ⟨ht, List.forall_mem_cons.mpr ⟨hkept.2, hpairs⟩⟩

/-- A list that each step extends by what its visit adds is extended by all of that. -/
theorem collects {δ : Type} (view : σ → List δ) {adds : α → List δ} (h : Visits step pairs s t)
    (hstep : ∀ pair ∈ pairs, ∀ u v, step pair.1 pair.2 u v → view v = view u ++ adds pair.1) :
    view t = view s ++ (pairs.map Prod.fst).flatMap adds := by
  induction h with
  | nil => simp
  | @cons a b rest s u t hfirst _ ih =>
    have hrest := ih fun pair hmem => hstep pair (List.mem_cons_of_mem _ hmem)
    have hhere := hstep (a, b) List.mem_cons_self s u hfirst
    rw [hrest, hhere]
    simp

theorem imp {step' : α → β → σ → σ → Prop} (h : Visits step pairs s t)
    (hstep : ∀ pair ∈ pairs, ∀ u v, step pair.1 pair.2 u v → step' pair.1 pair.2 u v) :
    Visits step' pairs s t := by
  induction h with
  | nil => exact .nil
  | @cons a b rest s u t hfirst _ ih =>
    exact .cons (hstep (a, b) List.mem_cons_self s u hfirst) (ih fun pair hmem =>
      hstep pair (List.mem_cons_of_mem _ hmem))

theorem forall_mem {Q : α → β → Prop} (h : Visits step pairs s t)
    (hstep : ∀ a b u v, step a b u v → Q a b) : ∀ pair ∈ pairs, Q pair.1 pair.2 := by
  induction h with
  | nil => exact List.forall_mem_nil _
  | cons hfirst _ ih => exact List.forall_mem_cons.mpr ⟨hstep _ _ _ _ hfirst, ih⟩

/-- Where no state is kept, the steps can be made one by one. -/
theorem of_forall {step : α → β → Unit → Unit → Prop} {pairs : List (α × β)}
    (h : ∀ pair ∈ pairs, step pair.1 pair.2 () ()) : Visits step pairs () () := by
  induction pairs with
  | nil => exact .nil
  | cons pair rest ih =>
    obtain ⟨hfirst, hrest⟩ := List.forall_mem_cons.mp h
    exact .cons hfirst (ih hrest)

end Visits

section Layers

variable {m : Type → Type} [Monad m] [LawfulMonad m] {σ α β γ : Type} (E : Execution m σ)
  {f : α → m β} {s t : σ}

theorem Execution.yields_mapM {as : List α} {bs : List β} (h : E.Yields (as.mapM f) s bs t) :
    ∃ pairs : List (α × β), pairs.map Prod.fst = as ∧ pairs.map Prod.snd = bs ∧
      Visits (fun a b s t => E.Yields (f a) s b t) pairs s t := by
  induction as generalizing bs s with
  | nil =>
    rw [List.mapM_nil, E.yields_pure] at h
    obtain ⟨rfl, rfl⟩ := h
    exact ⟨[], rfl, rfl, .nil⟩
  | cons a as ih =>
    simp only [List.mapM_cons, E.yields_bind, E.yields_pure] at h
    obtain ⟨b, u, hb, bs', v, hbs, rfl, rfl⟩ := h
    obtain ⟨pairs, rfl, rfl, hvisits⟩ := ih hbs
    exact ⟨(a, b) :: pairs, rfl, rfl, .cons hb hvisits⟩

theorem Execution.yields_mapM_fields {fields : List (String × α)} {out : List (String × β)}
    (h : E.Yields (fields.mapM fun field => return (field.1, ← f field.2)) s out t) :
    ∃ pairs : List (String × (α × β)),
      pairs.map (fun field => (field.1, field.2.1)) = fields ∧
      pairs.map (fun field => (field.1, field.2.2)) = out ∧
      Visits (fun a b s t => E.Yields (f a) s b t) (pairs.map Prod.snd) s t := by
  induction fields generalizing out s with
  | nil =>
    rw [List.mapM_nil, E.yields_pure] at h
    obtain ⟨rfl, rfl⟩ := h
    exact ⟨[], rfl, rfl, .nil⟩
  | cons field fields ih =>
    simp only [List.mapM_cons, E.yields_bind, E.yields_pure] at h
    obtain ⟨_, _, ⟨b, u, hb, rfl, rfl⟩, out', v, hout, rfl, rfl⟩ := h
    obtain ⟨pairs, rfl, rfl, hvisits⟩ := ih hout
    exact ⟨(field.1, field.2, b) :: pairs, rfl, rfl, .cons hb hvisits⟩

theorem Execution.yields_mapM_arms {arms : List (α × α)} {out : List (β × β)}
    (h : E.Yields (arms.mapM fun arm => return (← f arm.1, ← f arm.2)) s out t) :
    ∃ pairs : List ((α × β) × (α × β)),
      pairs.map (fun arm => (arm.1.1, arm.2.1)) = arms ∧
      pairs.map (fun arm => (arm.1.2, arm.2.2)) = out ∧
      Visits (fun a b s t => E.Yields (f a) s b t) (pairs.flatMap fun arm => [arm.1, arm.2])
        s t := by
  induction arms generalizing out s with
  | nil =>
    rw [List.mapM_nil, E.yields_pure] at h
    obtain ⟨rfl, rfl⟩ := h
    exact ⟨[], rfl, rfl, .nil⟩
  | cons arm arms ih =>
    simp only [List.mapM_cons, E.yields_bind, E.yields_pure] at h
    obtain ⟨_, _, ⟨b, u, hb, c, v, hc, rfl, rfl⟩, out', w, hout, rfl, rfl⟩ := h
    obtain ⟨pairs, rfl, rfl, hvisits⟩ := ih hout
    exact ⟨((arm.1, b), (arm.2, c)) :: pairs, rfl, rfl, .cons hb (.cons hc hvisits)⟩

/-- A traversal of a form visits its children in order and keeps the form. -/
theorem Form.yields_mapM {form : Form α} {out : Form β} (h : E.Yields (form.mapM f) s out t) :
    ∃ pairs : Form (α × β), pairs.map Prod.fst = form ∧ pairs.map Prod.snd = out ∧
      Visits (fun a b s t => E.Yields (f a) s b t) pairs.children s t := by
  cases form with
  | literal a =>
    obtain ⟨rfl, rfl⟩ := E.yields_pure.mp h
    exact ⟨.literal a, rfl, rfl, .nil⟩
  | record fields =>
    simp only [mapM, E.yields_bind, E.yields_pure] at h
    obtain ⟨_, _, hfields, rfl, rfl⟩ := h
    obtain ⟨pairs, rfl, rfl, hvisits⟩ := E.yields_mapM_fields hfields
    exact ⟨.record pairs, by simp [map], by simp [map], hvisits⟩
  | function p a b =>
    simp only [mapM, E.yields_bind, E.yields_pure] at h
    obtain ⟨c, u, hc, d, v, hd, rfl, rfl⟩ := h
    exact ⟨.function p (a, c) (b, d), rfl, rfl, .cons hc (.single hd)⟩
  | application a b =>
    simp only [mapM, E.yields_bind, E.yields_pure] at h
    obtain ⟨c, u, hc, d, v, hd, rfl, rfl⟩ := h
    exact ⟨.application (a, c) (b, d), rfl, rfl, .cons hc (.single hd)⟩
  | dual a b =>
    simp only [mapM, E.yields_bind, E.yields_pure] at h
    obtain ⟨c, u, hc, d, v, hd, rfl, rfl⟩ := h
    exact ⟨.dual (a, c) (b, d), rfl, rfl, .cons hc (.single hd)⟩
  | data name parameters =>
    simp only [mapM, E.yields_bind, E.yields_pure] at h
    obtain ⟨b, u, hb, _, v, hparameters, rfl, rfl⟩ := h
    obtain ⟨pairs, rfl, rfl, hvisits⟩ := E.yields_mapM hparameters
    exact ⟨.data (name, b) pairs, rfl, rfl, .cons hb hvisits⟩
  | read source accessor =>
    simp only [mapM, E.yields_bind, E.yields_pure] at h
    obtain ⟨b, u, hb, rfl, rfl⟩ := h
    exact ⟨.read (source, b) accessor, rfl, rfl, .single hb⟩
  | choice subject arms =>
    simp only [mapM, E.yields_bind, E.yields_pure] at h
    obtain ⟨b, u, hb, _, v, harms, rfl, rfl⟩ := h
    obtain ⟨pairs, rfl, rfl, hvisits⟩ := E.yields_mapM_arms harms
    exact ⟨.choice (subject, b) pairs, by simp [map], by simp [map], .cons hb hvisits⟩

theorem Expr.yields_mapM {e : Expr α} {out : Expr β} (h : E.Yields (e.mapM f) s out t) :
    ∃ pairs : Expr (α × β), pairs.map Prod.fst = e ∧ pairs.map Prod.snd = out ∧
      Visits (fun a b s t => E.Yields (f a) s b t) pairs.children s t := by
  cases e with
  | identifier name =>
    obtain ⟨rfl, rfl⟩ := E.yields_pure.mp h
    exact ⟨.identifier name, rfl, rfl, .nil⟩
  | form layer =>
    simp only [mapM, E.yields_bind, E.yields_pure] at h
    obtain ⟨_, _, hlayer, rfl, rfl⟩ := h
    obtain ⟨pairs, rfl, rfl, hvisits⟩ := Form.yields_mapM E hlayer
    exact ⟨.form pairs, rfl, rfl, hvisits⟩
  | binding name value body =>
    simp only [mapM, E.yields_bind, E.yields_pure] at h
    obtain ⟨b, u, hb, c, v, hc, rfl, rfl⟩ := h
    exact ⟨.binding name (value, b) (body, c), rfl, rfl, .cons hb (.single hc)⟩
  | native implementations =>
    obtain ⟨rfl, rfl⟩ := E.yields_pure.mp h
    exact ⟨.native implementations, rfl, rfl, .nil⟩

section Introduction

theorem Execution.mapM_of_visits {pairs : List (α × β)}
    (h : Visits (fun a b s t => E.Yields (f a) s b t) pairs s t) :
    E.Yields ((pairs.map Prod.fst).mapM f) s (pairs.map Prod.snd) t := by
  induction h with
  | nil => exact E.yields_pure.mpr ⟨rfl, rfl⟩
  | cons hfirst _ ih =>
    simp only [List.map_cons, List.mapM_cons, E.yields_bind, E.yields_pure]
    exact ⟨_, _, hfirst, _, _, ih, rfl, rfl⟩

theorem Execution.mapM_fields_of_visits {pairs : List (String × (α × β))}
    (h : Visits (fun a b s t => E.Yields (f a) s b t) (pairs.map Prod.snd) s t) :
    E.Yields ((pairs.map fun field => (field.1, field.2.1)).mapM fun field =>
      return (field.1, ← f field.2)) s (pairs.map fun field => (field.1, field.2.2)) t := by
  induction pairs generalizing s with
  | nil =>
    cases h
    exact E.yields_pure.mpr ⟨rfl, rfl⟩
  | cons field rest ih =>
    obtain ⟨name, a, b⟩ := field
    cases h with
    | cons hfirst hrest =>
      simp only [List.map_cons, List.mapM_cons, E.yields_bind, E.yields_pure]
      exact ⟨_, _, ⟨_, _, hfirst, rfl, rfl⟩, _, _, ih hrest, rfl, rfl⟩

theorem Execution.mapM_arms_of_visits {pairs : List ((α × β) × (α × β))}
    (h : Visits (fun a b s t => E.Yields (f a) s b t) (pairs.flatMap fun arm => [arm.1, arm.2])
      s t) :
    E.Yields ((pairs.map fun arm => (arm.1.1, arm.2.1)).mapM fun arm =>
      return (← f arm.1, ← f arm.2)) s (pairs.map fun arm => (arm.1.2, arm.2.2)) t := by
  induction pairs generalizing s with
  | nil =>
    cases h
    exact E.yields_pure.mpr ⟨rfl, rfl⟩
  | cons arm rest ih =>
    obtain ⟨⟨a, b⟩, c, d⟩ := arm
    cases h with
    | cons htest hrest =>
      cases hrest with
      | cons hresult hrest =>
        simp only [List.map_cons, List.mapM_cons, E.yields_bind, E.yields_pure]
        exact ⟨_, _, ⟨_, _, htest, _, _, hresult, rfl, rfl⟩, _, _, ih hrest, rfl, rfl⟩

/-- A chain of steps, one for each child in order, is a traversal. -/
theorem Form.mapM_of_visits {pairs : Form (α × β)}
    (h : Visits (fun a b s t => E.Yields (f a) s b t) pairs.children s t) :
    E.Yields ((pairs.map Prod.fst).mapM f) s (pairs.map Prod.snd) t := by
  cases pairs with
  | literal a =>
    cases h
    exact E.yields_pure.mpr ⟨rfl, rfl⟩
  | record fields =>
    simp only [map, mapM, E.yields_bind, E.yields_pure]
    exact ⟨_, _, E.mapM_fields_of_visits h, rfl, rfl⟩
  | function p a b | application a b | dual a b =>
    cases h with
    | cons ha hrest =>
      cases hrest with
      | cons hb hrest =>
        cases hrest
        simp only [map, mapM, E.yields_bind, E.yields_pure]
        exact ⟨_, _, ha, _, _, hb, rfl, rfl⟩
  | data name parameters =>
    cases h with
    | cons hname hrest =>
      simp only [map, mapM, E.yields_bind, E.yields_pure]
      exact ⟨_, _, hname, _, _, E.mapM_of_visits hrest, rfl, rfl⟩
  | read source accessor =>
    cases h with
    | cons hsource hrest =>
      cases hrest
      simp only [map, mapM, E.yields_bind, E.yields_pure]
      exact ⟨_, _, hsource, rfl, rfl⟩
  | choice subject arms =>
    cases h with
    | cons hsubject hrest =>
      simp only [map, mapM, E.yields_bind, E.yields_pure]
      exact ⟨_, _, hsubject, _, _, E.mapM_arms_of_visits hrest, rfl, rfl⟩

theorem Expr.mapM_of_visits {pairs : Expr (α × β)}
    (h : Visits (fun a b s t => E.Yields (f a) s b t) pairs.children s t) :
    E.Yields ((pairs.map Prod.fst).mapM f) s (pairs.map Prod.snd) t := by
  cases pairs with
  | identifier name =>
    cases h
    exact E.yields_pure.mpr ⟨rfl, rfl⟩
  | form layer =>
    simp only [map, mapM, E.yields_bind, E.yields_pure]
    exact ⟨_, _, Form.mapM_of_visits E h, rfl, rfl⟩
  | binding name value body =>
    cases h with
    | cons hvalue hrest =>
      cases hrest with
      | cons hbody hrest =>
        cases hrest
        simp only [map, mapM, E.yields_bind, E.yields_pure]
        exact ⟨_, _, hvalue, _, _, hbody, rfl, rfl⟩
  | native implementations =>
    cases h
    exact E.yields_pure.mpr ⟨rfl, rfl⟩

variable (E : Execution m Unit) {g : α → β}

theorem Form.yields_map {form : Form α}
    (h : ∀ a ∈ form.children, E.Yields (f a) () (g a) ()) :
    E.Yields (form.mapM f) () (form.map g) () := by
  have hvisits : Visits (fun a b s t => E.Yields (f a) s b t)
      (form.map fun a => (a, g a)).children () () := by
    rw [children_map]
    exact .of_forall (List.forall_mem_map.mpr h)
  have hyields := Form.mapM_of_visits E hvisits
  rw [map_map, map_map] at hyields
  have hfst : (Prod.fst ∘ fun a => (a, g a)) = id := rfl
  rwa [hfst, map_id] at hyields

theorem Expr.yields_map {e : Expr α} (h : ∀ a ∈ e.children, E.Yields (f a) () (g a) ()) :
    E.Yields (e.mapM f) () (e.map g) () := by
  have hvisits : Visits (fun a b s t => E.Yields (f a) s b t)
      (e.map fun a => (a, g a)).children () () := by
    rw [children_map]
    exact .of_forall (List.forall_mem_map.mpr h)
  have hyields := Expr.mapM_of_visits E hvisits
  rw [map_map, map_map] at hyields
  have hfst : (Prod.fst ∘ fun a => (a, g a)) = id := rfl
  rwa [hfst, map_id] at hyields

end Introduction

theorem Form.mapM_map (g : γ → α) (form : Form γ) : (form.map g).mapM f = form.mapM (f ∘ g) := by
  cases form <;> simp [map, mapM, List.mapM_map, Function.comp_def]

theorem Expr.mapM_map (g : γ → α) (e : Expr γ) : (e.map g).mapM f = e.mapM (f ∘ g) := by
  cases e <;> simp [map, mapM, Form.mapM_map, Function.comp_def]

section Children

theorem map_snd_mapM_fields (fields : List (String × α)) :
    List.map Prod.snd <$> fields.mapM (fun field => return (field.1, ← f field.2)) =
      (fields.map Prod.snd).mapM f := by
  induction fields with
  | nil => simp
  | cons field fields ih =>
    rw [List.map_cons, List.mapM_cons, List.mapM_cons, ← ih]
    simp only [map_eq_pure_bind, bind_assoc, pure_bind, List.map_cons]

theorem flatMap_mapM_arms (arms : List (α × α)) :
    (List.flatMap fun arm => [arm.1, arm.2]) <$>
        arms.mapM (fun arm => return (← f arm.1, ← f arm.2)) =
      (arms.flatMap fun arm => [arm.1, arm.2]).mapM f := by
  induction arms with
  | nil => simp
  | cons arm arms ih =>
    rw [List.flatMap_cons, List.cons_append, List.cons_append, List.nil_append, List.mapM_cons,
      List.mapM_cons, List.mapM_cons, ← ih]
    simp only [map_eq_pure_bind, bind_assoc, pure_bind, List.flatMap_cons, List.cons_append,
      List.nil_append]

theorem Form.children_mapM (form : Form α) :
    Form.children <$> form.mapM f = form.children.mapM f := by
  cases form with
  | record fields =>
    rw [children, ← map_snd_mapM_fields]
    simp only [mapM, children, map_eq_pure_bind, bind_assoc, pure_bind]
  | choice subject arms =>
    rw [children, List.mapM_cons, ← flatMap_mapM_arms]
    simp only [mapM, children, map_eq_pure_bind, bind_assoc, pure_bind]
  | _ => simp only [mapM, children, map_eq_pure_bind, bind_assoc, pure_bind, List.mapM_cons,
      List.mapM_nil]

/-- The children of what a traversal makes are what it makes of the children. -/
theorem Expr.children_mapM (e : Expr α) : Expr.children <$> e.mapM f = e.children.mapM f := by
  cases e with
  | form layer =>
    rw [children, ← Form.children_mapM]
    simp only [mapM, children, map_eq_pure_bind, bind_assoc, pure_bind]
  | _ => simp only [mapM, children, map_eq_pure_bind, bind_assoc, pure_bind, List.mapM_cons,
      List.mapM_nil]

end Children

theorem Expr.map_congr {g h : α → β} {e : Expr α} (heq : ∀ a ∈ e.children, g a = h a) :
    e.map g = e.map h := by
  cases e with
  | identifier name => rfl
  | form layer => exact congrArg form (Form.map_congr heq)
  | binding name value body =>
    simp only [map, heq value (by simp [children]), heq body (by simp [children])]
  | native implementations => rfl

theorem Expr.kind_map (g : α → β) (e : Expr α) : (e.map g).kind = e.kind := by
  cases e with
  | form layer =>
    cases layer with
    | literal a => cases a <;> rfl
    | read source accessor => cases accessor <;> rfl
    | _ => rfl
  | _ => rfl

def Expr.refersTo (e : Expr α) (name : String) : Bool :=
  match e with
  | .identifier other => other == name
  | _ => false

theorem Expr.refersTo_map (g : α → β) (e : Expr α) (name : String) :
    (e.map g).refersTo name = e.refersTo name := by
  cases e <;> rfl

theorem Expr.mem_children_map {g : α → β} {e : Expr α} {a : α} (h : a ∈ e.children) :
    g a ∈ (e.map g).children := by
  rw [children_map]
  exact List.mem_map_of_mem h

theorem Node.rebuildM_mk {D D' : Type} (step : Expr (Node D') → D → m (Node D'))
    (e : Expr (Node D)) (d : D) :
    rebuildM step ⟨e, d⟩ = e.mapM (rebuildM step) >>= fun e' => step e' d := by
  simp only [rebuildM, fold_mk, Expr.mapM_map, Function.comp_def, id]

/-- What holds of a node when it holds of the visits of its children holds of a whole traversal. -/
theorem Node.rebuildM_induction {D D' : Type} {step : Expr (Node D') → D → m (Node D')}
    {P : Node D → Node D' → σ → σ → Prop}
    (hstep : ∀ (pairs : Expr (Node D × Node D')) (d : D) (n : Node D') (s u t : σ),
      Visits P pairs.children s u → E.Yields (step (pairs.map Prod.snd) d) u n t →
        P ⟨pairs.map Prod.fst, d⟩ n s t)
    {tree : Node D} {n : Node D'} (h : E.Yields (tree.rebuildM step) s n t) : P tree n s t := by
  induction tree using Node.induction generalizing s n t with
  | mk e d ih =>
    rw [rebuildM_mk, E.yields_bind] at h
    obtain ⟨_, u, he, hhere⟩ := h
    obtain ⟨pairs, rfl, rfl, hvisits⟩ := Expr.yields_mapM E he
    refine hstep pairs d n s u t (hvisits.imp fun pair hpair v w hyields => ?_) hhere
    exact ih pair.1 (Expr.mem_children_map hpair) hyields

end Layers

namespace Node

variable {D : Type} {m n : Node D} {e : Expr (Node D)} {d : D}

theorem toList_mk (e : Expr (Node D)) (d : D) :
    toList ⟨e, d⟩ = ⟨e, d⟩ :: e.children.flatMap toList := by
  have hfst : (Prod.fst ∘ fun n : Node D => (n, n.toList)) = id := rfl
  rw [toList, para_mk, ← toList, Expr.map_map, hfst, Expr.map_id, Expr.children_map,
    List.flatMap_map]

theorem mem_toList_mk :
    m ∈ toList ⟨e, d⟩ ↔ m = ⟨e, d⟩ ∨ ∃ child ∈ e.children, m ∈ child.toList := by
  rw [toList_mk, List.mem_cons, List.mem_flatMap]

theorem mem_toList_self (n : Node D) : n ∈ n.toList := by
  obtain ⟨e, d⟩ := n
  exact mem_toList_mk.mpr (.inl rfl)

theorem mem_toList_of_child {child : Node D} (hchild : child ∈ n.expression.children)
    (hm : m ∈ child.toList) : m ∈ n.toList := by
  obtain ⟨e, d⟩ := n
  exact mem_toList_mk.mpr (.inr ⟨child, hchild, hm⟩)

theorem mem_toList_trans {k : Node D} (hk : k ∈ m.toList) (hm : m ∈ n.toList) : k ∈ n.toList := by
  induction n using Node.induction with
  | mk e d ih =>
    rcases mem_toList_mk.mp hm with rfl | ⟨part, hpart, hm⟩
    · exact hk
    · exact mem_toList_mk.mpr (.inr ⟨part, hpart, ih part hpart hm⟩)

theorem mem_toList_of_mem_children {child : Node D} (hm : m ∈ n.toList)
    (hchild : child ∈ m.expression.children) : child ∈ n.toList :=
  mem_toList_trans (mem_toList_of_child hchild (mem_toList_self child)) hm

def map {D' : Type} (f : D → D') : Node D → Node D' := fold fun e d => ⟨e, f d⟩

variable {D' : Type} (f : D → D')

theorem map_mk (e : Expr (Node D)) (d : D) : map f ⟨e, d⟩ = ⟨e.map (map f), f d⟩ := by
  rw [map, fold_mk]

theorem expression_map (n : Node D) : (n.map f).expression = n.expression.map (map f) := by
  obtain ⟨e, d⟩ := n
  rw [map_mk]

theorem decoration_map (n : Node D) : (n.map f).decoration = f n.decoration := by
  obtain ⟨e, d⟩ := n
  rw [map_mk]

theorem map_decoration_map (n : Node D) : (n.map f).expression.map Node.decoration =
    n.expression.map fun child => f child.decoration := by
  rw [expression_map, Expr.map_map]
  exact Expr.map_congr fun child _ => decoration_map f child

theorem map_map {D'' : Type} (g : D' → D'') (n : Node D) : (n.map f).map g = n.map (g ∘ f) := by
  induction n using Node.induction with
  | mk e d ih =>
    rw [map_mk, map_mk, map_mk, Expr.map_map]
    exact congrArg (Node.mk · _) (Expr.map_congr ih)

theorem map_congr {f g : D → D'} {n : Node D} (h : ∀ m ∈ n.toList, f m.decoration = g m.decoration) :
    n.map f = n.map g := by
  induction n using Node.induction with
  | mk e d ih =>
    have hchildren : e.map (map f) = e.map (map g) := by
      apply Expr.map_congr
      intro child hchild
      exact ih child hchild fun m hm => h m (mem_toList_mk.mpr (.inr ⟨child, hchild, hm⟩))
    rw [map_mk, map_mk, hchildren, h _ (mem_toList_self _)]

theorem toList_map (n : Node D) :
    (n.map f).toList = n.toList.map (map f) := by
  induction n using Node.induction with
  | mk e d ih =>
    rw [toList_mk, map_mk, toList_mk, List.map_cons, map_mk, Expr.children_map, List.flatMap_map,
      List.map_flatMap]
    rw [List.flatMap_def, List.flatMap_def, List.map_congr_left ih]

theorem size_mk (e : Expr (Node D)) (d : D) : size ⟨e, d⟩ = 1 + (e.children.map size).sum := by
  rw [size, fold_mk, Expr.children_map, List.sum_eq_foldr]

theorem length_toList (n : Node D) : n.toList.length = n.size := by
  induction n using Node.induction with
  | mk e d ih =>
    rw [toList_mk, List.length_cons, List.length_flatMap, List.map_congr_left ih, size_mk,
      Nat.add_comm]

theorem boundIdentifiers_map (n : Node D) :
    (n.map f).boundIdentifiers = n.boundIdentifiers.map (Prod.map id f) := by
  induction n using Node.induction with
  | mk e d ih =>
    have hparts : ∀ parts : List (Node D), parts ⊆ e.children →
        ((parts.map (map f)).map boundIdentifiers).flatten =
          ((parts.map boundIdentifiers).flatten).map (Prod.map id f) := by
      intro parts hsubset
      rw [List.map_flatten, List.map_map, List.map_map]
      exact congrArg _ (List.map_congr_left fun part hpart => ih part (hsubset hpart))
    have hall := hparts e.children (List.Subset.refl _)
    rw [map_mk, boundIdentifiers, fold_mk]
    rw [boundIdentifiers, fold_mk]
    cases e with
    | identifier name => rfl
    | native implementations => rfl
    | binding name value body => exact hall
    | form layer =>
      cases layer with
      | data name parameters => exact hparts parameters (List.subset_cons_self _ _)
      | _ =>
        rw [← Expr.children_map, ← Expr.children_map, ← Expr.children_map] at hall
        exact hall

def undecorated (n : Node D) : Node Unit := n.map fun _ => ()

theorem undecorated_mk (e : Expr (Node D)) (d : D) :
    undecorated ⟨e, d⟩ = ⟨e.map undecorated, ()⟩ := map_mk _ e d

theorem undecorated_map (n : Node D) : (n.map f).undecorated = n.undecorated :=
  map_map f _ n

/-- Trees that are the same up to decorations have the same layers. -/
theorem exists_of_undecorated {n : Node D} {n' : Node D'} (h : n.undecorated = n'.undecorated)
    {m : Node D} (hm : m ∈ n.toList) :
    ∃ m' ∈ n'.toList, m'.expression.map undecorated = m.expression.map undecorated := by
  have hmem : m.undecorated ∈ n'.undecorated.toList := by
    rw [← h, undecorated, toList_map]
    exact List.mem_map_of_mem hm
  rw [undecorated, toList_map] at hmem
  obtain ⟨m', hm', hsame⟩ := List.mem_map.mp hmem
  refine ⟨m', hm', ?_⟩
  have hlayers := congrArg Node.expression hsame
  rwa [undecorated, expression_map, expression_map] at hlayers

theorem size_undecorated (n : Node D) : n.undecorated.size = n.size := by
  rw [← length_toList, undecorated, toList_map, List.length_map, length_toList]

end Node

end ImplicitInference
