import ImplicitInference.Proofs.Expansion
import ImplicitInference.Proofs.Record
import ImplicitInference.Proofs.Traversal
import Mathlib.Data.List.Monad

/-!
That reduction ends by itself if its constraints have a solution. What is learned holds under the
solution, so the value in a fact is what the solution makes of a variable, with variables in the place
of some parts. There are finitely many such values over the variables of the constraints. A constraint
that is taken up is either dropped, and nothing is learned from it, or it is one of these facts and was
not on record before. So there are ever fewer facts that could still be put on record.
-/

namespace ImplicitInference

namespace Form

variable {α β : Type}

def isNaN : Form α → Bool
  | literal (.number x) => x.isNaN
  | _ => false

theorem isNaN_map (f : α → β) (form : Form α) : (form.map f).isNaN = form.isNaN := by
  cases form with
  | literal a => cases a <;> rfl
  | _ => rfl

end Form

theorem Literal.equal_of_agrees {a b : Literal} (h : a.agrees b)
    (hnan : (Form.literal a : Form Value).isNaN = false) : a.equal b := by
  cases a with
  | number x =>
    cases b with
    | number y =>
      have hx : x.isNaN = false := hnan
      rcases Bool.or_eq_true_iff.mp h with hequal | hsame
      · exact hequal
      · obtain rfl := beq_iff_eq.mp hsame
        simp [equal, Number.equal, hx]
    | _ => exact h
  | _ => cases b <;> exact h

namespace Value

def nanFree : Value → Bool :=
  fold (fun _ => true) fun form => !form.isNaN && form.children.all id

theorem nanFree_term (form : Form Value) :
    (term form).nanFree ↔ form.isNaN = false ∧ ∀ v ∈ form.children, v.nanFree := by
  simp [nanFree, Form.isNaN_map]

theorem equal_of_agrees {v u : Value} (hv : v.nanFree) (h : v.agrees u) : v.equal u := by
  induction v using Value.induction generalizing u with
  | var name =>
    cases u with
    | var other => exact h
    | term form => simp [agrees, compare] at h
  | term form ih =>
    cases u with
    | var name => simp [agrees, compare] at h
    | term form' =>
      obtain ⟨hlayer, hchildren⟩ := (nanFree_term form).mp hv
      rw [agrees, compare_term] at h
      rw [equal, compare_term]
      apply Form.compare_mono _ _ h
      · rintro a b rfl hab
        exact Literal.equal_of_agrees hab hlayer
      · intro a ha b hab
        exact ih a ha (hchildren a ha) hab

end Value

def Signature.over (names : List String) : Signature :=
  ⟨(· ∈ names), fun layer => layer.isNaN = false⟩

theorem Value.within_over_iff {names : List String} (v : Value) :
    v.Within (.over names) ↔ v.nanFree ∧ ∀ name ∈ v.occurrences, name ∈ names := by
  induction v using Value.induction with
  | var name => simp [Signature.over, nanFree]
  | term form ih =>
    have hlayer : (Signature.over names).layers form.outline ↔ form.isNaN = false := by
      simp [Signature.over, Form.outline, Form.isNaN_map]
    rw [within_term, nanFree_term, hlayer]
    constructor
    · rintro ⟨hnan, hchildren⟩
      refine ⟨⟨hnan, fun v hv => ((ih v hv).mp (hchildren v hv)).1⟩, fun name hname => ?_⟩
      obtain ⟨v, hv, hname⟩ := mem_occurrences_term.mp hname
      exact ((ih v hv).mp (hchildren v hv)).2 name hname
    · rintro ⟨⟨hnan, hchildren⟩, hnames⟩
      refine ⟨hnan, fun v hv => (ih v hv).mpr ⟨hchildren v hv, fun name hname => ?_⟩⟩
      exact hnames name (mem_occurrences_term.mpr ⟨v, hv, hname⟩)

section Prunings

def Execution.choice : Execution List Unit where
  Yields bs _ b _ := b ∈ bs
  yields_pure := by
    intro β b c s t
    exact ⟨fun h => ⟨List.mem_singleton.mp h, rfl⟩, fun h => List.mem_singleton.mpr h.1⟩
  yields_bind := by
    intro α β as f s t b
    rw [List.bind_eq_flatMap, List.mem_flatMap]
    constructor
    · rintro ⟨a, ha, hb⟩
      exact ⟨a, (), ha, hb⟩
    · rintro ⟨a, _, ha, hb⟩
      exact ⟨a, ha, hb⟩

namespace Value

variable {names : List String} {s : String → Value}

/-- The ways to put variables from a list in the place of parts of a value. -/
def prunings (names : List String) : Value → List Value :=
  fold (fun _ => names.map var) fun form => names.map var ++ (form.mapM id).map term

theorem prunings_term (form : Form Value) : (term form).prunings names =
    names.map var ++ (form.mapM (prunings names)).map term := by
  rw [prunings, fold_term, Form.mapM_map]
  rfl

theorem var_mem_prunings {name : String} (h : name ∈ names) (v : Value) :
    var name ∈ v.prunings names := by
  have hmem : var name ∈ names.map var := List.mem_map_of_mem h
  cases v with
  | var other => simpa [prunings] using h
  | term form =>
    rw [prunings_term]
    exact List.mem_append_left _ hmem

/-- A value comes from what a substitution makes of it by such a replacement. -/
theorem normal_mem_prunings {v : Value} (h : v.Within (.over names)) :
    v.normal ∈ (v.subst s).normal.prunings names := by
  induction v using Value.induction with
  | var name => exact var_mem_prunings (within_var.mp h) _
  | term form ih =>
    rw [subst_term, normal_term, normal_term, Form.map_map, prunings_term]
    apply List.mem_append_right
    apply List.mem_map_of_mem
    rw [← Form.map_normal, ← Form.map_normal, Form.mapM_map]
    apply Form.yields_map Execution.choice
    intro v hv
    rw [Form.children_normal] at hv
    exact ih v hv (h.child hv)

end Value

end Prunings

def Constraint.Restates (c d : Constraint) : Prop :=
  c.relation = d.relation ∧ c.var = d.var ∧ c.value.normal = d.value.normal

theorem Constraint.Restates.symm {c d : Constraint} (h : c.Restates d) : d.Restates c :=
  ⟨h.1.symm, h.2.1.symm, h.2.2.symm⟩

theorem Constraint.Restates.trans {c d e : Constraint} (h : c.Restates d) (h' : d.Restates e) :
    c.Restates e :=
  ⟨h.1.trans h'.1, h.2.1.trans h'.2.1, h.2.2.trans h'.2.2⟩

theorem Constraint.Restates.sameFact {c d : Constraint} (h : c.Restates d) (hc : c.value.nanFree) :
    c.sameFact d := by
  obtain ⟨hrelation, hvar, hvalue⟩ := h
  have hequal := Value.equal_of_agrees hc ((Value.agrees_iff _ _).mpr hvalue)
  simp [Constraint.sameFact, hrelation, hvar, hequal]

namespace Reduction

variable {s : String → Value} {names : List String} {constraints queue learned facts : List Constraint}
  {r t : Reduction} {c d : Constraint}

section Possible

/-- What can still be learned: a fact over given variables that a substitution solves. What a
variable is evaluated from is never learned, only given. -/
structure Possible (s : String → Value) (names : List String) (constraints : List Constraint)
    (c : Constraint) : Prop where
  var : c.var ∈ names
  value : c.value.Within (.over names)
  holds : c.Holds s
  given : c.relation = .evaluatedFrom → c ∈ constraints

def possibleFacts (s : String → Value) (names : List String) (constraints : List Constraint) :
    List Constraint :=
  constraints ++ names.flatMap fun name =>
    ((s name).normal.prunings names).map (.learned .equals name) ++
      ((s name).normal.stripImplicits.prunings names).map (.learned .evaluatesTo name)

/-- The possible facts are finitely many. -/
theorem Possible.exists_fact (h : Possible s names constraints c) :
    ∃ fact ∈ possibleFacts s names constraints, c.Restates fact := by
  obtain ⟨hvar, hvalue, hholds, hgiven⟩ := h
  have hpruning := Value.normal_mem_prunings (s := s) hvalue
  have hnormal := (Value.normal_normal c.value).symm
  rw [Constraint.Holds] at hholds
  cases hrelation : c.relation with
  | equals =>
    rw [hrelation, holds_equals_iff] at hholds
    rw [← hholds] at hpruning
    refine ⟨.learned .equals c.var c.value.normal, ?_, hrelation, rfl, hnormal⟩
    apply List.mem_append_right
    refine List.mem_flatMap.mpr ⟨c.var, hvar, List.mem_append_left _ ?_⟩
    exact List.mem_map_of_mem hpruning
  | evaluatesTo =>
    rw [hrelation, holds_evaluatesTo_iff] at hholds
    rw [← hholds] at hpruning
    refine ⟨.learned .evaluatesTo c.var c.value.normal, ?_, hrelation, rfl, hnormal⟩
    apply List.mem_append_right
    refine List.mem_flatMap.mpr ⟨c.var, hvar, List.mem_append_right _ ?_⟩
    exact List.mem_map_of_mem hpruning
  | evaluatedFrom =>
    exact ⟨c, List.mem_append_left _ (hgiven hrelation), rfl, rfl, rfl⟩

end Possible

section Step

theorem Step.records_mono (h : Step r c t learned) (hd : r.records d) : t.records d :=
  records_iff.mpr (h.precedes.hasSource (records_iff.mp hd))

/-- A constraint that is taken up is dropped, or it is put on record and was not there. -/
theorem Step.progress (h : Step r c t learned) :
    (t = r ∧ learned = []) ∨ ¬ r.records c ∧ ∀ d, c.sameFact d → t.records d := by
  have hvar : ∀ d, c.sameFact d → d.var = c.var := by
    intro d hsame
    simp only [Constraint.sameFact, Bool.and_eq_true, beq_iff_eq] at hsame
    exact hsame.1.2.symm
  cases h with
  | trivial _ => exact .inl ⟨rfl, rfl⟩
  | repeated _ => exact .inl ⟨rfl, rfl⟩
  | opened hnone =>
    refine .inr ⟨by simp [Reduction.records, hnone], fun d hsame => ?_⟩
    simp [Reduction.records, hvar d hsame, Entry.ofConstraint, hsame]
  | merged hnew _ =>
    refine .inr ⟨hnew, fun d hsame => ?_⟩
    simp [Reduction.records, hvar d hsame, Entry.merge, hsame]

end Step

section Ends

def Ends (r : Reduction) (queue : List Constraint) : Prop :=
  ∃ enough, ∀ limit rest, enough ≤ rest → (run limit rest queue r).1.diagnostics = []

theorem ends_nil (h : r.diagnostics = []) : Ends r [] := by
  refine ⟨0, fun limit rest _ => ?_⟩
  rw [run]
  exact h

theorem ends_cons (h : Ends (r.step c).1 (queue ++ (r.step c).2)) : Ends r (c :: queue) := by
  obtain ⟨enough, henough⟩ := h
  refine ⟨enough + 1, fun limit rest hrest => ?_⟩
  cases rest with
  | zero => omega
  | succ rest =>
    rw [run]
    exact henough limit rest (by omega)

/-- A solution of the entries and the queue, all of which is over given variables. -/
structure Bounded (s : String → Value) (names : List String) (constraints : List Constraint)
    (r : Reduction) (queue : List Constraint) : Prop where
  solved : Solved s r queue
  entries : EntriesWithin (.over names) r.entries
  possible : ∀ c ∈ queue, Possible s names constraints c

theorem Bounded.step (h : Bounded s names constraints r (c :: queue)) :
    Bounded s names constraints (r.step c).1 (queue ++ (r.step c).2) := by
  obtain ⟨hc, hqueue⟩ := List.forall_mem_cons.mp h.possible
  obtain ⟨hentries, hlearned⟩ := (step_taken r c).within h.entries hc.value
  have hsolved := h.solved.step
  refine ⟨hsolved, hentries, List.forall_mem_append.mpr ⟨hqueue, fun fact hfact => ?_⟩⟩
  obtain ⟨⟨hvar, hvalue⟩, hrelation⟩ := hlearned fact hfact
  exact {
    var := hvar
    value := hvalue
    holds := hsolved.waiting fact (List.mem_append_right _ hfact)
    given := fun hevaluated => absurd hevaluated hrelation }

def Covers (s : String → Value) (names : List String) (constraints facts : List Constraint)
    (r : Reduction) : Prop :=
  ∀ c, Possible s names constraints c → r.records c ∨ ∃ fact ∈ facts, c.Restates fact

/-- A fact that is put on record can be struck off the list. -/
theorem Covers.step {before after : List Constraint} {fact : Constraint}
    (h : Covers s names constraints (before ++ fact :: after) r) (hstep : Step r c t learned)
    (hc : c.value.nanFree) (hfact : c.Restates fact) (hrecorded : ∀ d, c.sameFact d → t.records d) :
    Covers s names constraints (before ++ after) t := by
  intro d hd
  rcases h d hd with hearlier | ⟨found, hfound, hrestates⟩
  · exact .inl (hstep.records_mono hearlier)
  · rcases List.mem_append.mp hfound with hbefore | hafter
    · exact .inr ⟨found, List.mem_append_left _ hbefore, hrestates⟩
    · rcases List.mem_cons.mp hafter with rfl | hafter
      · exact .inl (hrecorded d ((hfact.trans hrestates.symm).sameFact hc))
      · exact .inr ⟨found, List.mem_append_right _ hafter, hrestates⟩

/-- A run over finitely many possible facts ends. -/
theorem Bounded.ends (h : Bounded s names constraints r queue)
    (hcovers : Covers s names constraints facts r) : Ends r queue := by
  -- Either the list of facts becomes shorter, or it stays and the queue becomes shorter.
  induction hlength : facts.length using Nat.strong_induction_on generalizing facts r queue with
  | _ n ihFacts =>
    induction queue with
    | nil => exact ends_nil h.solved.silent
    | cons c queue ihQueue =>
      have hnext := h.step
      apply ends_cons
      rcases (step_taken r c).progress with ⟨hsame, hnothing⟩ | ⟨hnew, hrecorded⟩
      · rw [hsame, hnothing, List.append_nil] at hnext ⊢
        exact ihQueue hnext
      · have hc := h.possible c List.mem_cons_self
        obtain ⟨fact, hfact, hrestates⟩ := (hcovers c hc).resolve_left hnew
        obtain ⟨before, after, rfl⟩ := List.append_of_mem hfact
        have hnan := ((Value.within_over_iff c.value).mp hc.value).1
        have hrest := hcovers.step (step_taken r c) hnan hrestates hrecorded
        refine ihFacts (before ++ after).length ?_ hnext hrest rfl
        rw [← hlength, List.length_append, List.length_append, List.length_cons]
        omega

end Ends

end Reduction

open Reduction in
/-- Constraints that have a solution are reduced in finitely many steps, and nothing is reported. -/
theorem solvable_reduction_ends (constraints : List Constraint) (s : String → Value)
    (hdual : ∀ c ∈ constraints, c.value.dualFree) (hnan : ∀ c ∈ constraints, c.value.nanFree)
    (hapart : constraints.Pairwise fun c d =>
      c.relation = .evaluatedFrom → d.relation = .evaluatedFrom → c.var ≠ d.var)
    (hholds : ∀ c ∈ constraints, c.Holds s) :
    ∃ enough, ∀ options : Options, enough ≤ options.reductionLimit →
      (reduce options constraints).diagnostics = [] := by
  let names := constraints.flatMap fun c => c.var :: c.value.occurrences
  have hpossible : ∀ c ∈ constraints, Possible s names constraints c := by
    intro c hc
    have hnames : ∀ name ∈ c.var :: c.value.occurrences, name ∈ names := by
      intro name hname
      exact List.mem_flatMap.mpr ⟨c, hc, hname⟩
    exact {
      var := hnames c.var List.mem_cons_self
      value := (Value.within_over_iff c.value).mpr
        ⟨hnan c hc, fun name hname => hnames name (List.mem_cons_of_mem _ hname)⟩
      holds := hholds c hc
      given := fun _ => hc }
  have hstart : Bounded s names constraints {} constraints :=
    ⟨solved_start hdual hapart hholds, fun _ _ h => absurd h (by simp [Table.get?]), hpossible⟩
  obtain ⟨enough, henough⟩ := hstart.ends fun c hc => .inr hc.exists_fact
  exact ⟨enough, fun options => henough options.reductionLimit options.reductionLimit⟩

theorem implicitCall_reduction_ends :
    (∀ c ∈ implicitCall, c.value.nanFree ∧ c.Holds implicitCallTypes) ∧
      ∃ enough, ∀ options : Options, enough ≤ options.reductionLimit →
        (reduce options implicitCall).diagnostics = [] := by
  have hholds : ∀ c ∈ implicitCall, c.value.nanFree ∧ c.Holds implicitCallTypes := by decide
  exact ⟨hholds, solvable_reduction_ends implicitCall implicitCallTypes (by decide)
    (fun c hc => (hholds c hc).1) (by decide) fun c hc => (hholds c hc).2⟩

end ImplicitInference
