import ImplicitInference.Proofs.Expansion
import ImplicitInference.Proofs.Recursion
import Mathlib.Logic.Equiv.Defs

/-!
Renaming of variables. A renaming is a bijection of all names, so that two names are the same before
it exactly if they are the same after it. Nothing else about a name matters to unification, reduction
or simplification: names are compared, but not ordered or read, and tables keep the order in which
names came up. So each of these does to renamed values what it does to the values, renamed. The
origin of a constraint is only passed on, and may become any other text.
-/

namespace ImplicitInference

namespace Form

variable {α β γ : Type}

theorem allPairs_map_right (f : β → γ) (p : α → γ → Bool) (as : List α) (bs : List β) :
    allPairs p as (bs.map f) = allPairs (fun a b => p a (f b)) as bs := by
  induction as generalizing bs with
  | nil => cases bs <;> rfl
  | cons a as ih => cases bs <;> simp [allPairs, ih]

theorem compare_map_right (literals : Literal → Literal → Bool) (f : β → γ) (p : α → γ → Bool)
    (x : Form α) (y : Form β) :
    x.compare literals p (y.map f) = x.compare literals (fun a b => p a (f b)) y := by
  cases x <;> cases y <;> simp [compare, map, allPairs_map_right]

theorem compare_congr {literals : Literal → Literal → Bool} {p q : α → β → Bool} {x : Form α}
    {y : Form β} (h : ∀ a ∈ x.children, ∀ b, p a b = q a b) :
    x.compare literals p y = x.compare literals q y := by
  apply Bool.eq_iff_iff.mpr
  constructor
  · exact compare_mono (fun _ _ _ hl => hl) fun a ha b hp => (h a ha b).symm.trans hp
  · exact compare_mono (fun _ _ _ hl => hl) fun a ha b hq => (h a ha b).trans hq

/-- Layers go together as they did before a map of their children. -/
theorem join_map (f : α → β) (x y : Form α) :
    (x.map f).join (y.map f) = ((x.join y).1.map (Prod.map f (Option.map f)), (x.join y).2) := by
  have halone : ∀ z : Form α, (z.map f).alone = z.alone.map (Prod.map f (Option.map f)) := by
    intro z
    rw [alone, alone, map_map, map_map]
    rfl
  cases x with
  | literal a => cases y <;> rfl
  | application a b | dual a b => cases y <;> rfl
  | record fs =>
    cases y with
    | record gs =>
      have hnames : ∀ fields : List (String × α),
          (fields.map fun field => (field.1, f field.2)).map Prod.fst = fields.map Prod.fst := by
        intro fields
        rw [List.map_map]
        rfl
      simp only [map, join, hnames]
      split
      · simp [List.map_zipWith, List.zipWith_map]
      · exact congrArg (·, _) (halone (.record fs))
    | _ => exact congrArg (·, _) (halone (.record fs))
  | function p a b =>
    cases y with
    | function q c d =>
      simp only [map, join]
      split
      · rfl
      · exact congrArg (·, _) (halone (.function p a b))
    | _ => rfl
  | data a as =>
    cases y with
    | data b bs =>
      simp only [map, join, List.length_map]
      split
      · simp [List.map_zipWith, List.zipWith_map]
      · simp
    | _ => exact congrArg (·, _) (halone (.data a as))
  | read a i =>
    cases y with
    | read b j =>
      simp only [map, join]
      split
      · rfl
      · exact congrArg (·, _) (halone (.read a i))
    | _ => rfl
  | choice a as =>
    cases y with
    | choice b bs =>
      simp only [map, join, List.length_map]
      split
      · simp [List.map_zipWith, List.zipWith_map]
      · exact congrArg (·, _) (halone (.choice a as))
    | _ => exact congrArg (·, _) (halone (.choice a as))

end Form

namespace Value

variable (ρ : Equiv.Perm String) (v w body : Value)

def rename : Value := v.subst fun name => var (ρ name)

@[simp] theorem rename_var (name : String) : (var name).rename ρ = var (ρ name) := subst_var _ name

@[simp] theorem rename_term (form : Form Value) :
    (term form).rename ρ = term (form.map (rename ρ)) := subst_term _ form

theorem subst_rename (s : String → Value) : (v.rename ρ).subst s = v.subst fun name => s (ρ name) := by
  rw [rename, subst_subst]
  simp only [subst_var]

theorem equal_rename : (v.rename ρ).equal (w.rename ρ) = v.equal w := by
  induction v using Value.induction generalizing w with
  | var name =>
    cases w with
    | var other => simp [equal, compare, beq_eq_decide]
    | term form => simp [equal, compare]
  | term form ih =>
    cases w with
    | var other => simp [equal, compare]
    | term form' =>
      rw [rename_term, rename_term, equal, compare_term, Form.compare_map_left,
        Form.compare_map_right, compare_term]
      exact Form.compare_congr fun v hv w => ih v hv w

theorem occurrences_rename : (v.rename ρ).occurrences = v.occurrences.map ρ := by
  rw [rename, occurrences_subst, List.map_eq_flatMap]
  simp only [occurrences_var]

theorem asVar?_rename : (v.rename ρ).asVar? = v.asVar?.map ρ := by
  cases v <;> simp [asVar?]

theorem stripLayer?_rename : (v.rename ρ).stripLayer? = v.stripLayer?.map (rename ρ) := by
  cases v with
  | var name => simp [stripLayer?]
  | term form =>
    rw [rename_term]
    cases form with
    | function plicity parameter body => cases plicity <;> rfl
    | _ => rfl

theorem stripImplicits_rename : (v.rename ρ).stripImplicits = v.stripImplicits.rename ρ := by
  fun_induction stripImplicits v with
  | case1 parameter body ih =>
    rw [← ih, rename_term]
    exact stripImplicits_implicit _ _
  | case2 v h =>
    cases v with
    | var name => simp
    | term form =>
      rw [rename_term]
      exact stripImplicits_term_map _ h

theorem implicitParameters_rename :
    (v.rename ρ).implicitParameters = v.implicitParameters.map (rename ρ) := by
  fun_induction implicitParameters v with
  | case1 parameter body ih =>
    rw [List.map_cons, ← ih, rename_term]
    rfl
  | case2 v h =>
    cases v with
    | var name => simp [implicitParameters]
    | term form =>
      rw [rename_term]
      cases form with
      | function plicity parameter body =>
        cases plicity with
        | explicit => rfl
        | implicit => exact absurd rfl (h parameter body)
      | _ => rfl

theorem implicitCount_rename : (v.rename ρ).implicitCount = v.implicitCount := by
  rw [implicitCount, implicitParameters_rename, List.length_map, implicitCount]

theorem wrapImplicits_rename (parameters : List Value) : (body.wrapImplicits parameters).rename ρ =
    (body.rename ρ).wrapImplicits (parameters.map (rename ρ)) := by
  induction parameters with
  | nil => rfl
  | cons parameter rest ih =>
    rw [List.map_cons, wrapImplicits_cons, wrapImplicits_cons, ← ih, rename_term]
    rfl

end Value

section Unification

variable (ρ : Equiv.Perm String)

def Diagnostic.rename : Diagnostic → Diagnostic
  | typesAreDifferent left right => typesAreDifferent (left.rename ρ) (right.rename ρ)
  | typeValuesAreDifferent left right => typeValuesAreDifferent (left.rename ρ) (right.rename ρ)
  | unresolvedImplicits implicits => unresolvedImplicits (implicits.map (Value.rename ρ))
  | diagnostic => diagnostic

theorem Diagnostic.ofClash_rename (left right : Value) (clash : Form.Clash) :
    ofClash (left.rename ρ) (right.rename ρ) clash = (ofClash left right clash).rename ρ := by
  cases clash <;> rfl

namespace Unified

def rename (u : Unified) : Unified where
  value := u.value.rename ρ
  assumptions := u.assumptions.map (Prod.map ρ (Value.rename ρ))
  diagnostics := u.diagnostics.map (Diagnostic.rename ρ)

theorem andThen_rename (first second : Unified) :
    (first.andThen second).rename ρ = (first.rename ρ).andThen (second.rename ρ) := by
  simp [andThen, rename]

theorem ofForm_rename (parts : Form Unified) (clash : Option Diagnostic) :
    (ofForm parts clash).rename ρ =
      ofForm (parts.map (rename ρ)) (clash.map (Diagnostic.rename ρ)) := by
  simp only [ofForm, rename, Value.rename_term, Form.map_map, Form.children_map, List.map_append,
    List.map_flatMap, List.flatMap_map, Option.toList_map]
  rfl

theorem ofJoin_rename {recurse : Value → Value → Unified} {f g : Form Value}
    (h : ∀ call ∈ Form.partners (f.join g).1.children,
      recurse (call.1.rename ρ) (call.2.rename ρ) = (recurse call.1 call.2).rename ρ) :
    (ofJoin recurse f g).rename ρ = ofJoin recurse (f.map (.rename ρ)) (g.map (.rename ρ)) := by
  rw [ofJoin, ofJoin, Form.join_map, ofForm_rename, Form.map_map, Form.map_map, Option.map_map]
  congr 1
  · apply Form.map_congr
    rintro ⟨a, partner⟩ hmem
    cases partner with
    | none => rfl
    | some b => exact (h (a, b) (Form.mem_partners.mpr hmem)).symm
  · congr 1
    funext clash
    rw [← Value.rename_term, ← Value.rename_term]
    exact (Diagnostic.ofClash_rename ρ (.term f) (.term g) clash).symm

end Unified

namespace Value

/-- Unification does not depend on how variables are called. -/
theorem unify_rename (left right : Value) :
    (left.rename ρ).unify (right.rename ρ) = (left.unify right).rename ρ := by
  refine unify_induction (motive := fun left right u =>
    (left.rename ρ).unify (right.rename ρ) = u.rename ρ) ?_ left right
  intro left right pairs u h ih
  have hequal := equal_rename ρ left right
  have hsides : ∀ form : Form Value, form.sides? = none → (form.map (rename ρ)).sides? = none := by
    intro form hform
    rw [Form.sides?_map, hform]
    rfl
  cases h with
  | same heq => exact (Unifies.same (hequal.trans heq)).unify_eq
  | varLeft hne =>
    rw [← hequal, rename_var] at hne
    rw [rename_var]
    exact (Unifies.varLeft hne).unify_eq
  | varRight =>
    rw [rename_term, rename_var, Unifies.varRight.unify_eq, ← rename_term]
    rfl
  | @dualLeft a b g hne =>
    rw [← hequal, rename_term, rename_term] at hne
    have hfirst : (a.rename ρ).unify (b.rename ρ) = (a.unify b).rename ρ := ih _ List.mem_cons_self
    have hrest : ((a.unify b).value.rename ρ).unify ((term g).rename ρ) =
        ((a.unify b).value.unify (term g)).rename ρ :=
      ih _ (List.mem_cons_of_mem _ List.mem_cons_self)
    rw [Unified.andThen_rename, ← hrest, ← hfirst, rename_term, rename_term]
    refine (Unifies.dualLeft hne).unify_eq.trans ?_
    rw [hfirst]
    rfl
  | @dualRight f a b hne hf =>
    rw [← hequal, rename_term, rename_term] at hne
    have hfirst : (a.rename ρ).unify (b.rename ρ) = (a.unify b).rename ρ := ih _ List.mem_cons_self
    have hrest : ((term f).rename ρ).unify ((a.unify b).value.rename ρ) =
        ((term f).unify (a.unify b).value).rename ρ :=
      ih _ (List.mem_cons_of_mem _ List.mem_cons_self)
    rw [Unified.andThen_rename, ← hrest, ← hfirst, rename_term, rename_term]
    refine (Unifies.dualRight hne (hsides f hf)).unify_eq.trans ?_
    rw [hfirst]
    rfl
  | @joined f g hne hf hg =>
    rw [← hequal, rename_term, rename_term] at hne
    rw [rename_term, rename_term, Unified.ofJoin_rename ρ ih]
    exact (Unifies.joined hne (hsides f hf) (hsides g hg)).unify_eq

end Value

end Unification

namespace Table

variable {α β : Type} (ρ : Equiv.Perm String) (f : α → β) (t : Table α)

def rename : Table β := ⟨t.toList.map fun row => (ρ row.1, f row.2)⟩

theorem keys_rename : (t.rename ρ f).keys = t.keys.map ρ := by
  simp [rename, keys]

theorem get?_rename (name : String) : (t.rename ρ f).get? (ρ name) = (t.get? name).map f := by
  simp [rename, get?, List.find?_map, Function.comp_def, beq_eq_decide]

theorem insert_rename (name : String) (a : α) :
    (t.rename ρ f).insert (ρ name) (f a) = (t.insert name a).rename ρ f := by
  have hcontains : (t.rename ρ f).contains (ρ name) = t.contains name := by
    simp [rename, contains, Function.comp_def, beq_eq_decide]
  unfold insert
  rw [hcontains]
  split
  · simp only [rename, List.map_map, mk.injEq]
    apply List.map_congr_left
    intro row _
    by_cases hrow : row.1 = name <;> simp [hrow]
  · simp [rename]

end Table

section Reduction

variable (ρ : Equiv.Perm String) (origins : String → String)

def Constraint.rename (c : Constraint) : Constraint :=
  { c with var := ρ c.var, value := c.value.rename ρ, origin := origins c.origin }

def Entry.rename (e : Entry) : Entry :=
  { e with
    var := ρ e.var
    value := e.value.rename ρ
    sources := e.sources.map (Constraint.rename ρ origins) }

theorem Constraint.isTrivial_rename (c : Constraint) :
    (c.rename ρ origins).isTrivial = c.isTrivial := by
  rw [isTrivial, rename, Value.asVar?_rename, isTrivial]
  cases c.value.asVar? <;> simp [beq_eq_decide]

theorem Constraint.sameFact_rename (c d : Constraint) :
    (c.rename ρ origins).sameFact (d.rename ρ origins) = c.sameFact d := by
  simp [sameFact, rename, Value.equal_rename, beq_eq_decide]

theorem Entry.isConsumed_rename (e : Entry) : (e.rename ρ origins).isConsumed = e.isConsumed := by
  rw [isConsumed, rename, List.any_map]
  rfl

namespace Convergence

def rename (c : Convergence) : Convergence where
  origin := origins c.origin
  facts := c.facts.map (Constraint.rename ρ origins)
  diagnostics := c.diagnostics.map (Diagnostic.rename ρ)

variable (c : Convergence)

theorem converge_rename (left right : Value) :
    (c.rename ρ origins).converge (left.rename ρ) (right.rename ρ) =
      Prod.map (Value.rename ρ) (rename ρ origins) (c.converge left right) := by
  simp only [converge, Value.unify_rename, Unified.rename, rename, Prod.map, List.map_append,
    List.map_map]
  rfl

theorem defer_rename (name : String) (value : Value) :
    (c.rename ρ origins).defer (ρ name) (value.rename ρ) = (c.defer name value).rename ρ origins := by
  simp [defer, rename, Constraint.rename]

theorem evaluate_rename (pre post : Value) (kept : Kept) :
    (c.rename ρ origins).evaluate (pre.rename ρ) (post.rename ρ) kept =
      Prod.map (Value.rename ρ) (rename ρ origins) (c.evaluate pre post kept) := by
  unfold evaluate
  rw [Value.stripImplicits_rename, Value.implicitParameters_rename]
  cases pre.stripImplicits with
  | var name =>
    rw [Value.rename_var]
    cases kept <;> simp [defer_rename]
  | term form =>
    have hconverge := converge_rename ρ origins c
    rw [Value.rename_term]
    cases kept with
    | unevaluated =>
      simp only [← Value.rename_term, hconverge, Prod.map, Value.wrapImplicits_rename]
    | evaluated => simp only [← Value.rename_term, hconverge]

theorem meet_rename (existing incoming : Relation × Value) :
    (c.rename ρ origins).meet (existing.1, existing.2.rename ρ) (incoming.1, incoming.2.rename ρ) =
      Prod.map id (Prod.map (Value.rename ρ) (rename ρ origins)) (c.meet existing incoming) := by
  obtain ⟨relation, value⟩ := existing
  obtain ⟨relation', value'⟩ := incoming
  cases relation <;> cases relation' <;>
    simp only [meet, converge_rename, evaluate_rename, Prod.map, id]

end Convergence

theorem Entry.merge_rename (e : Entry) (c : Constraint) (k : Convergence) :
    (e.rename ρ origins).merge (c.rename ρ origins) (k.rename ρ origins) =
      Prod.map (Entry.rename ρ origins) (Convergence.rename ρ origins) (e.merge c k) := by
  have hmeet := Convergence.meet_rename ρ origins k (e.relation, e.value) (c.relation, c.value)
  simp only [merge, rename, Constraint.rename, hmeet, Prod.map, List.map_append, List.map_cons,
    List.map_nil, id]

namespace Reduction

/-- One reduction has come to the same as another, renamed. -/
structure Renamed (r r' : Reduction) : Prop where
  entries : r'.entries = r.entries.rename ρ (Entry.rename ρ origins)
  diagnostics : r'.diagnostics = r.diagnostics.map (Diagnostic.rename ρ)

variable {ρ origins} {r r' : Reduction}

theorem Renamed.step (h : Renamed ρ origins r r') (c : Constraint) :
    Renamed ρ origins (r.step c).1 (r'.step (c.rename ρ origins)).1 ∧
      (r'.step (c.rename ρ origins)).2 = (r.step c).2.map (Constraint.rename ρ origins) := by
  unfold Reduction.step
  rw [Constraint.isTrivial_rename, h.entries]
  by_cases htrivial : c.isTrivial
  · simp only [htrivial, if_true]
    exact ⟨h, rfl⟩
  have hget : (r.entries.rename ρ (Entry.rename ρ origins)).get? (c.rename ρ origins).var =
      (r.entries.get? c.var).map (Entry.rename ρ origins) := Table.get?_rename ρ _ _ _
  have hinsert : ∀ e : Entry, (r.entries.rename ρ (Entry.rename ρ origins)).insert
      (c.rename ρ origins).var (e.rename ρ origins) =
        (r.entries.insert c.var e).rename ρ (Entry.rename ρ origins) :=
    Table.insert_rename ρ _ _ _
  simp only [htrivial, hget]
  cases r.entries.get? c.var with
  | none => exact ⟨⟨hinsert (.ofConstraint c), h.diagnostics⟩, rfl⟩
  | some entry =>
    have hsame : ((entry.rename ρ origins).sources.any fun source =>
        source.sameFact (c.rename ρ origins)) =
          entry.sources.any fun source => source.sameFact c := by
      simp [Entry.rename, Function.comp_def, Constraint.sameFact_rename]
    simp only [Option.map_some, hsame]
    by_cases hrecorded : entry.sources.any fun source => source.sameFact c
    · simp only [hrecorded, if_true]
      exact ⟨h, rfl⟩
    · simp only [hrecorded]
      have hmerge := Entry.merge_rename ρ origins entry c { origin := c.origin }
      rw [show Convergence.mk (c.rename ρ origins).origin [] [] =
        Convergence.rename ρ origins { origin := c.origin } from rfl, hmerge]
      refine ⟨⟨hinsert _, ?_⟩, rfl⟩
      show r'.diagnostics ++ _ = List.map (Diagnostic.rename ρ) (r.diagnostics ++ _)
      rw [List.map_append, ← h.diagnostics]
      rfl

theorem Renamed.run (limit rest : Nat) (queue : List Constraint) (h : Renamed ρ origins r r') :
    Renamed ρ origins (Reduction.run limit rest queue r).1
      (Reduction.run limit rest (queue.map (Constraint.rename ρ origins)) r').1 := by
  induction rest generalizing queue r r' with
  | zero =>
    cases queue with
    | nil => exact h
    | cons c queue =>
      refine ⟨h.entries, ?_⟩
      simp [Reduction.run, stop, h.diagnostics, Diagnostic.rename]
  | succ rest ih =>
    cases queue with
    | nil => exact h
    | cons c queue =>
      obtain ⟨hstep, hlearned⟩ := h.step c
      simp only [List.map_cons, Reduction.run, hlearned, ← List.map_append]
      exact ih _ hstep

end Reduction

/-- Reduction does not depend on how variables are called. -/
theorem reduce_rename (options : Options) (constraints : List Constraint) :
    Reduction.Renamed ρ origins (reduce options constraints)
      (reduce options (constraints.map (Constraint.rename ρ origins))) := by
  have hstart : Reduction.Renamed ρ origins {} {} := ⟨rfl, rfl⟩
  have hrun := hstart.run options.reductionLimit options.reductionLimit constraints
  exact ⟨hrun.entries, hrun.diagnostics⟩

theorem Entry.settle_rename (e : Entry) (v : Value) :
    (e.rename ρ origins).settle (v.rename ρ) = (e.settle v).rename ρ := by
  unfold settle
  by_cases hrelation : e.relation = .evaluatedFrom
  · rw [if_pos hrelation, if_pos (show (e.rename ρ origins).relation = .evaluatedFrom from hrelation),
      Value.stripImplicits_rename]
  · rw [if_neg hrelation, if_neg (show (e.rename ρ origins).relation ≠ .evaluatedFrom from hrelation)]

theorem expand_rename (entries : Table Entry) (outer : List String) (name : String) :
    expand (entries.rename ρ (Entry.rename ρ origins)) (outer.map ρ) (ρ name) =
      (expand entries outer name).rename ρ := by
  have hget := Table.get?_rename ρ (Entry.rename ρ origins) entries
  fun_induction expand entries outer name with
  | case1 outer name hnone =>
    rw [expand_of_none (by rw [hget, hnone]; rfl), Value.rename_var]
  | case2 outer name entry hentry hmem =>
    rw [expand_of_mem (List.mem_map_of_mem hmem), Value.rename_var]
  | case3 outer name entry hentry hmem ih =>
    have hname : ρ name ∉ outer.map ρ := by
      rwa [List.mem_map_of_injective ρ.injective]
    rw [expand_of_not_mem (by rw [hget, hentry]; rfl) hname, ← Entry.settle_rename ρ origins]
    congr 1
    show (entry.value.rename ρ).subst _ = _
    rw [Value.subst_rename, Value.rename, Value.subst_subst]
    exact Value.subst_congr fun other _ => ih other

theorem simplify_rename (entries : Table Entry) :
    (simplify (entries.rename ρ (Entry.rename ρ origins))).values =
      (simplify entries).values.rename ρ (Value.rename ρ) := by
  rw [Simplification.simplify_values, Simplification.simplify_values, Table.keys_rename]
  refine congrArg Table.mk ?_
  rw [List.map_map, List.map_map]
  apply List.map_congr_left
  intro name _
  exact congrArg (ρ name, ·) (expand_rename ρ origins entries [] name)

end Reduction

end ImplicitInference
