import ImplicitInference.Proofs.Sources
import ImplicitInference.Proofs.Traversal

/-!
What convergence notes. `note` is unification that notes each assumption and each report when it comes
up, on top of what was noted before; it comes to the same as unifying first and noting everything
afterwards. So earlier notes stay in place and do not matter to what is added. All that is added is of
one kind: an equation about a variable of the two values, over their variables, that is not an equation
of a variable with itself.
-/

namespace ImplicitInference

namespace Convergence

def learn (c : Convergence) (u : Unified) : Convergence where
  origin := c.origin
  facts := c.facts ++ u.assumptions.map c.assumption
  diagnostics := c.diagnostics ++ u.diagnostics

variable (c : Convergence)

@[simp] theorem learn_keep (v : Value) : c.learn (.keep v) = c := by
  simp [learn, Unified.keep]

@[simp] theorem learn_assume (name : String) (v : Value) :
    c.learn (.assume name v) = c.assume name v := by
  simp [learn, Unified.assume, assume]

theorem learn_andThen (first second : Unified) :
    c.learn (first.andThen second) = (c.learn first).learn second := by
  simp [learn, Unified.andThen, List.append_assoc, assumption]

/-- The parts of a layer are learned one after the other, and the clash last. -/
theorem learn_ofForm (parts : Form Unified) (clash : Option Diagnostic) :
    c.learn (.ofForm parts clash) =
      clash.toList.foldl report (parts.children.foldl learn c) := by
  have hparts : ∀ (units : List Unified) (c : Convergence), units.foldl learn c =
      { c with
        facts := c.facts ++ (units.flatMap Unified.assumptions).map c.assumption
        diagnostics := c.diagnostics ++ units.flatMap Unified.diagnostics } := by
    intro units
    induction units with
    | nil => simp
    | cons u units ih =>
      intro c
      rw [List.foldl_cons, ih]
      simp [learn, List.append_assoc, assumption]
  rw [hparts]
  cases clash <;> simp [learn, Unified.ofForm, report]

end Convergence

namespace Value

/-- Unification with a bound on its depth that notes each finding when it comes up. -/
def noteWithin : Nat → Value → Value → StateM Convergence Value
  | 0, left, _ => pure left
  | depth + 1, left, right =>
    if left.equal right then pure left
    else match left, right with
      | .var name, other => do
        modify fun c => c.assume name other
        return other
      | .term f, .var name => do
        modify fun c => c.assume name (.term f)
        return .term f
      | .term f, .term g =>
        match f.sides?, g.sides? with
        | some (a, b), _ => do
          let collapsed ← noteWithin depth a b
          noteWithin depth collapsed (.term g)
        | none, some (a, b) => do
          let collapsed ← noteWithin depth a b
          noteWithin depth (.term f) collapsed
        | none, none => do
          let parts ← (f.join g).1.mapM fun pair =>
            pair.2.elim (pure pair.1) (noteWithin depth pair.1)
          let clash := (f.join g).2.map (Diagnostic.ofClash (.term f) (.term g))
          modify fun c => clash.toList.foldl Convergence.report c
          return .term parts

def note (left right : Value) : StateM Convergence Value :=
  noteWithin (left.size + right.size) left right

/-- Visits that each learn their part learn all parts in order. -/
theorem visits_learn {γ : Type} {visit : γ → StateM Convergence Value} {part : γ → Unified}
    {as : List γ} (h : ∀ a ∈ as, ∀ c, visit a c = ((part a).value, c.learn (part a)))
    (c : Convergence) :
    Visits (fun a v s t => (Execution.state Convergence).Yields (visit a) s v t)
      (as.map fun a => (a, (part a).value)) c ((as.map part).foldl Convergence.learn c) := by
  induction as generalizing c with
  | nil => exact .nil
  | cons a as ih =>
    obtain ⟨ha, has⟩ := List.forall_mem_cons.mp h
    exact .cons (ha c) (ih has (c.learn (part a)))

theorem mapM_learn {γ : Type} {visit : γ → StateM Convergence Value} {part : γ → Unified}
    {form : Form γ} (h : ∀ a ∈ form.children, ∀ c, visit a c = ((part a).value, c.learn (part a)))
    (c : Convergence) :
    form.mapM visit c =
      (form.map fun a => (part a).value, (form.map part).children.foldl Convergence.learn c) := by
  have hvisits := visits_learn h c
  rw [← Form.children_map, ← Form.children_map] at hvisits
  have hmapM := Form.mapM_of_visits _ hvisits
  rw [Form.map_map, Form.map_map] at hmapM
  have hid : form.map (Prod.fst ∘ fun a => (a, (part a).value)) = form := Form.map_id form
  rw [hid] at hmapM
  exact hmapM

/-- A layer notes what it comes to if its calls do. -/
theorem Unifies.noteWithin_eq {depth : Nat} {left right : Value} {pairs : List (Value × Value)}
    {u : Unified} (h : Unifies (unifyWithin depth) left right pairs u)
    (hcalls : ∀ call ∈ pairs, ∀ c, noteWithin depth call.1 call.2 c =
      ((unifyWithin depth call.1 call.2).value, c.learn (unifyWithin depth call.1 call.2)))
    (c : Convergence) : noteWithin (depth + 1) left right c = (u.value, c.learn u) := by
  cases h with
  | same h =>
    unfold noteWithin
    rw [if_pos h, Convergence.learn_keep]
    rfl
  | varLeft h =>
    rw [noteWithin, if_neg h, Convergence.learn_assume]
    rfl
  | @varRight f name =>
    have h : ¬(term f).equal (var name) := by simp [equal, compare]
    rw [noteWithin, if_neg h, Convergence.learn_assume]
    rfl
  | @dualLeft a b g h =>
    have hsides := hcalls (a, b) List.mem_cons_self c
    have hrest := hcalls _ (List.mem_cons_of_mem _ List.mem_cons_self)
      (c.learn (unifyWithin depth a b))
    rw [noteWithin, if_neg h, Convergence.learn_andThen]
    exact (Execution.state Convergence).yields_bind.mpr ⟨_, _, hsides, hrest⟩
  | @dualRight f a b h hf =>
    have hg : (Form.dual a b).sides? = some (a, b) := rfl
    have hsides := hcalls (a, b) List.mem_cons_self c
    have hrest := hcalls _ (List.mem_cons_of_mem _ List.mem_cons_self)
      (c.learn (unifyWithin depth a b))
    rw [noteWithin, if_neg h, Convergence.learn_andThen]
    simp only [hf, hg]
    exact (Execution.state Convergence).yields_bind.mpr ⟨_, _, hsides, hrest⟩
  | @joined f g h hf hg =>
    have hparts : ∀ pair ∈ (f.join g).1.children, ∀ c,
        pair.2.elim (pure pair.1) (noteWithin depth pair.1) c =
          ((Unified.ofPair (unifyWithin depth) pair).value,
            c.learn (Unified.ofPair (unifyWithin depth) pair)) := by
      rintro ⟨a, partner⟩ hpair c
      cases partner with
      | none => exact congrArg (Prod.mk a) (c.learn_keep a).symm
      | some b => exact hcalls (a, b) (Form.mem_partners.mpr hpair) c
    rw [noteWithin, if_neg h, Unified.ofJoin, Convergence.learn_ofForm, Unified.ofForm, Form.map_map]
    simp only [hf, hg]
    exact (Execution.state Convergence).yields_bind.mpr ⟨_, _, mapM_learn hparts c, rfl⟩

/-- Noting findings when they come up is noting all of them afterwards. -/
theorem noteWithin_eq (depth : Nat) (left right : Value) (c : Convergence) :
    noteWithin depth left right c =
      ((unifyWithin depth left right).value, c.learn (unifyWithin depth left right)) := by
  induction depth generalizing left right c with
  | zero => exact congrArg (Prod.mk left) (c.learn_keep left).symm
  | succ depth ih =>
    obtain ⟨pairs, h⟩ := exists_unifies depth left right
    exact h.noteWithin_eq (fun call _ => ih call.1 call.2) c

theorem note_eq (left right : Value) (c : Convergence) : note left right c = c.converge left right :=
  noteWithin_eq _ left right c

/-- No variable is assumed to be itself. -/
theorem assumed_ne_var (left right : Value) :
    ∀ assumed ∈ (left.unify right).assumptions, assumed.2 ≠ var assumed.1 := by
  refine unify_induction
    (motive := fun _ _ u => ∀ assumed ∈ u.assumptions, assumed.2 ≠ var assumed.1) ?_ left right
  intro left right pairs u h ih
  cases h with
  | same _ => exact List.forall_mem_nil _
  | @varLeft name right hne =>
    have hother : right ≠ var name := by
      rintro rfl
      exact hne (by simp [equal, compare])
    exact List.forall_mem_singleton.mpr hother
  | varRight => exact List.forall_mem_singleton.mpr Value.noConfusion
  | dualLeft _ =>
    exact List.forall_mem_append.mpr
      ⟨ih _ List.mem_cons_self, ih _ (List.mem_cons_of_mem _ List.mem_cons_self)⟩
  | dualRight _ _ =>
    exact List.forall_mem_append.mpr
      ⟨ih _ List.mem_cons_self, ih _ (List.mem_cons_of_mem _ List.mem_cons_self)⟩
  | joined _ _ _ =>
    rw [Unified.ofJoin, Unified.ofForm, List.forall_mem_flatMap, Form.children_map,
      List.forall_mem_map]
    exact Unified.forall_ofPair (P := fun _ u => ∀ assumed ∈ u.assumptions, assumed.2 ≠ var assumed.1)
      (fun _ _ => List.forall_mem_nil _) ih

end Value

def OccursInEither (left right : Value) (name : String) : Prop :=
  name ∈ left.freeVariables ∨ name ∈ right.freeVariables

theorem within_either_unify (left right : Value) :
    (left.unify right).Within (.named (OccursInEither left right)) := by
  apply Value.within_unify
  · exact (Value.within_named_iff left).mpr fun _ hname => .inl hname
  · exact (Value.within_named_iff right).mpr fun _ hname => .inr hname

/-- A fact that two values were found to need on behalf of a node: an equation that says something about
a variable of theirs, over their variables. -/
structure Constraint.FoundBetween (origin : String) (left right : Value) (fact : Constraint) :
    Prop where
  relation : fact.relation = .equals
  provenance : fact.provenance = .convergence
  origin : fact.origin = origin
  telling : fact.value ≠ .var fact.var
  var : OccursInEither left right fact.var
  value : ∀ name ∈ fact.value.freeVariables, OccursInEither left right name

/-- Convergence only appends, and only mentions what it was given. Whatever was noted before stays in
place, and what is appended, as well as the value, is the same as if nothing had been noted. Each fact
that is appended is an equation found by convergence on behalf of the same node and says more than that a
variable is itself; it is about variables of the two values, and so is the value. It makes no difference
whether findings are noted when they come up or all of them afterwards. -/
theorem convergence_only_appends (c : Convergence) (left right : Value) :
    (c.converge left right).1 = (Convergence.converge { origin := c.origin } left right).1 ∧
    (c.converge left right).2.origin = c.origin ∧
    (c.converge left right).2.facts =
      c.facts ++ (Convergence.converge { origin := c.origin } left right).2.facts ∧
    (c.converge left right).2.diagnostics =
      c.diagnostics ++ (Convergence.converge { origin := c.origin } left right).2.diagnostics ∧
    (∀ fact ∈ (Convergence.converge { origin := c.origin } left right).2.facts,
      fact.FoundBetween c.origin left right) ∧
    (∀ name ∈ (c.converge left right).1.freeVariables, OccursInEither left right name) ∧
    left.note right c = c.converge left right := by
  obtain ⟨hvalue, hassumed⟩ := within_either_unify left right
  refine ⟨rfl, rfl, rfl, rfl, ?_, (Value.within_named_iff _).mp hvalue, Value.note_eq left right c⟩
  intro fact hfact
  obtain ⟨assumed, hmem, rfl⟩ := List.mem_map.mp hfact
  obtain ⟨hvar, hto⟩ := hassumed assumed hmem
  exact {
    relation := rfl
    provenance := rfl
    origin := rfl
    telling := Value.assumed_ne_var left right assumed hmem
    var := hvar
    value := (Value.within_named_iff assumed.2).mp hto }

def busy : Convergence where
  origin := "node"
  facts := [⟨.evaluatesTo, "w", .var "x", "other", .deferral⟩]
  diagnostics := [.typesAreDifferent (.var "w") (.symbol "A")]

def dualField : Value := .record [("a", .var "x"), ("b", .dual (.var "y") (.symbol "A"))]

def otherFields : Value := .record [("a", .var "z"), ("b", .symbol "B")]

theorem busy_convergence_only_appends :
    (busy.converge dualField otherFields).2.facts = busy.facts ++
        [⟨.equals, "x", .var "z", "node", .convergence⟩,
          ⟨.equals, "y", .symbol "A", "node", .convergence⟩] ∧
      (busy.converge dualField otherFields).2.diagnostics = busy.diagnostics ++
        [.typeValuesAreDifferent (.symbol "A") (.symbol "B")] ∧
      Constraint.FoundBetween "node" dualField otherFields
        ⟨.equals, "y", .symbol "A", "node", .convergence⟩ := by
  obtain ⟨-, -, hfacts, hdiagnostics, hfound, -⟩ := convergence_only_appends busy dualField otherFields
  exact ⟨hfacts, hdiagnostics, hfound _ (List.mem_cons_of_mem _ List.mem_cons_self)⟩

end ImplicitInference
