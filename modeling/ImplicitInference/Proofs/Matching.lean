import ImplicitInference.Proofs.Naming
import ImplicitInference.Proofs.Resolution
import ImplicitInference.Proofs.Rigidity
import Mathlib.Data.List.Flatten
import Mathlib.Data.List.Zip

/-!
Whether what is supplied for an implicit parameter matches it. A candidate is accepted if unifying it
with the requirement assumes nothing about the candidate's own variables. What is assumed then is
that variables of the requirement are parts of the candidate, and a substitution that makes the
requirement the candidate exists exactly if no variable is assumed to be two parts that differ. The
trial of a combination sees to this only for candidates without variables: two parts of another
candidate are unified, which may narrow the candidate after all.
-/

namespace ImplicitInference

/-- A substitution leaves the variables of the value and makes the requirement agree with it. -/
def Matches (value requirement : Value) : Prop :=
  ∃ s : String → Value, (∀ name ∈ value.freeVariables, s name = .var name) ∧
    (requirement.subst s).agrees value

def Consistent (assumptions : List (String × Value)) : Prop :=
  ∀ first ∈ assumptions, ∀ second ∈ assumptions,
    first.1 = second.1 → first.2.agrees second.2

instance (assumptions : List (String × Value)) : Decidable (Consistent assumptions) :=
  inferInstanceAs (Decidable (∀ first ∈ assumptions, _))

section Unify

open Value

variable {left right : Value}

/-- What is assumed about a variable that the left side does not have is a part of the left side. -/
theorem assumed_part (hleft : left.dualFree) (hright : right.dualFree) :
    ∀ assumed ∈ (left.unify right).assumptions, assumed.1 ∈ left.occurrences ∨
      (∃ form, assumed.2 = term form) ∧
        ∀ name ∈ assumed.2.occurrences, name ∈ left.occurrences := by
  revert hleft hright
  refine unify_induction (motive := fun left right u => left.dualFree → right.dualFree →
    ∀ assumed ∈ u.assumptions, assumed.1 ∈ left.occurrences ∨ (∃ form, assumed.2 = term form) ∧
      ∀ name ∈ assumed.2.occurrences, name ∈ left.occurrences) ?_ left right
  intro left right pairs u h ih hleft hright
  cases h with
  | same _ => exact List.forall_mem_nil _
  | varLeft _ => exact List.forall_mem_singleton.mpr (.inl (by simp))
  | @varRight f name => exact List.forall_mem_singleton.mpr (.inr ⟨⟨f, rfl⟩, fun _ h => h⟩)
  | dualLeft _ => cases ((dualFree_term _).mp hleft).1
  | dualRight _ _ => cases ((dualFree_term _).mp hright).1
  | @joined f g _ _ _ =>
    obtain ⟨-, hfs⟩ := (dualFree_term f).mp hleft
    obtain ⟨-, hgs⟩ := (dualFree_term g).mp hright
    rw [Unified.ofJoin, Unified.ofForm, List.forall_mem_flatMap, Form.children_map,
      List.forall_mem_map]
    apply Unified.forall_ofPair (P := fun _ u => ∀ assumed ∈ u.assumptions,
      assumed.1 ∈ (term f).occurrences ∨ (∃ form, assumed.2 = term form) ∧
        ∀ name ∈ assumed.2.occurrences, name ∈ (term f).occurrences)
    · intro a _
      exact List.forall_mem_nil _
    · intro call hcall assumed hassumed
      obtain ⟨ha, hb⟩ := Form.mem_children_of_mem_partners hcall
      have hup : ∀ name ∈ call.1.occurrences, name ∈ (term f).occurrences := fun name hname =>
        mem_occurrences_term.mpr ⟨call.1, ha, hname⟩
      rcases ih call hcall (hfs _ ha) (hgs _ hb) assumed hassumed with hname | ⟨hform, hnames⟩
      · exact .inl (hup _ hname)
      · exact .inr ⟨hform, fun name hname => hup name (hnames name hname)⟩

/-- A variable of the right side is assumed at most as often as it occurs there. -/
theorem assumed_sublist (hleft : left.dualFree) (hright : right.dualFree)
    (hsilent : (left.unify right).diagnostics = [])
    (howned : ∀ assumed ∈ (left.unify right).assumptions, assumed.1 ∉ left.occurrences) :
    ((left.unify right).assumptions.map Prod.fst).Sublist right.occurrences := by
  revert hleft hright hsilent howned
  refine unify_induction (motive := fun left right u => left.dualFree → right.dualFree →
    u.diagnostics = [] → (∀ assumed ∈ u.assumptions, assumed.1 ∉ left.occurrences) →
      (u.assumptions.map Prod.fst).Sublist right.occurrences) ?_ left right
  intro left right pairs u h ih hleft hright hsilent howned
  cases h with
  | same _ => exact List.nil_sublist _
  | @varLeft name right _ => exact absurd (by simp) (howned (name, right) List.mem_cons_self)
  | varRight =>
    rw [occurrences_var]
    exact List.Sublist.refl _
  | dualLeft _ => cases ((dualFree_term _).mp hleft).1
  | dualRight _ _ => cases ((dualFree_term _).mp hright).1
  | @joined f g _ _ _ =>
    obtain ⟨-, hfs⟩ := (dualFree_term f).mp hleft
    obtain ⟨-, hgs⟩ := (dualFree_term g).mp hright
    obtain ⟨a, b, -, -, -, hkeep⟩ | ⟨q, rfl, rfl, hpairs, hparts, hall⟩ := ofJoin_silent hsilent
    · rw [hkeep]
      exact List.nil_sublist _
    · rw [hpairs] at ih
      rw [hall] at howned ⊢
      simp only [Unified.ofForm, Form.children_map, List.flatMap_map, List.map_flatMap,
        occurrences_term] at howned ⊢
      apply List.Sublist.flatMap_right
      intro pair hpair
      have hfirst : pair.1 ∈ (q.map Prod.fst).children := Form.mem_children_map hpair
      have hsecond : pair.2 ∈ (q.map Prod.snd).children := Form.mem_children_map hpair
      refine ih pair hpair (hfs _ hfirst) (hgs _ hsecond) (hparts pair hpair)
        fun assumed hassumed hname => ?_
      apply howned assumed (List.mem_flatMap.mpr ⟨pair, hpair, hassumed⟩)
      exact List.mem_flatMap.mpr ⟨pair, hpair, hname⟩

end Unify

/-- Unifying a value with a requirement reports nothing and assumes nothing about the value. -/
structure Accepted (value requirement : Value) : Prop where
  silent : (value.unify requirement).diagnostics = []
  owned : ∀ assumed ∈ (value.unify requirement).assumptions, assumed.1 ∉ value.occurrences

section Accepted

variable {value requirement : Value}

theorem Accepted.part (h : Accepted value requirement) (hvalue : value.dualFree)
    (hrequirement : requirement.dualFree) {assumed : String × Value}
    (hassumed : assumed ∈ (value.unify requirement).assumptions) :
    (∃ form, assumed.2 = .term form) ∧
      ∀ name ∈ assumed.2.occurrences, name ∈ value.occurrences :=
  (assumed_part hvalue hrequirement assumed hassumed).resolve_left (h.owned assumed hassumed)

theorem Accepted.matches_iff (h : Accepted value requirement) (hvalue : value.dualFree)
    (hrequirement : requirement.dualFree) :
    Matches value requirement ↔ Consistent (value.unify requirement).assumptions := by
  have hpart : ∀ s : String → Value, (∀ name ∈ value.occurrences, s name = .var name) →
      ∀ assumed ∈ (value.unify requirement).assumptions, assumed.2.subst s = assumed.2 := by
    intro s hs assumed hassumed
    apply Value.subst_eq_self
    intro name hname
    exact hs name ((h.part hvalue hrequirement hassumed).2 name hname)
  constructor
  · rintro ⟨s, hs, hagrees⟩
    have hfixed : ∀ name ∈ value.occurrences, s name = .var name := fun name hname =>
      hs name (Value.mem_freeVariables.mpr hname)
    have hunified : (value.unify requirement).Fulfilled s := by
      rw [Value.unify_fulfilled_iff s hvalue hrequirement, Value.subst_eq_self hfixed]
      exact ((Value.agrees_iff _ _).mp hagrees).symm
    intro first hfirst second hsecond hname
    have hone := (Value.agrees_iff _ _).mp (hunified.2 first hfirst)
    have htwo := (Value.agrees_iff _ _).mp (hunified.2 second hsecond)
    rw [hpart s hfixed first hfirst] at hone
    rw [hpart s hfixed second hsecond, ← hname] at htwo
    exact (Value.agrees_iff _ _).mpr (hone.symm.trans htwo)
  · intro hconsistent
    let assigned : Table Value := ⟨(value.unify requirement).assumptions⟩
    have hfixed : ∀ name ∈ value.occurrences, assigned.assign name = .var name := by
      intro name hname
      have hnone : name ∉ assigned.keys := by
        intro hkey
        obtain ⟨assumed, hassumed, rfl⟩ := List.mem_map.mp hkey
        exact h.owned assumed hassumed hname
      rw [Table.assign, Table.get?_eq_none hnone]
      rfl
    have hunified : (value.unify requirement).Fulfilled assigned.assign := by
      refine ⟨h.silent, fun assumed hassumed => ?_⟩
      obtain ⟨found, hfound⟩ := Table.exists_get?_of_mem_keys (t := assigned)
        (List.mem_map_of_mem hassumed)
      rw [hpart _ hfixed assumed hassumed, Table.assign, hfound]
      exact hconsistent _ (Table.mem_toList_of_get? hfound) assumed hassumed rfl
    refine ⟨assigned.assign, fun name hname => hfixed name (Value.mem_freeVariables.mp hname), ?_⟩
    rw [Value.unify_fulfilled_iff _ hvalue hrequirement, Value.subst_eq_self hfixed] at hunified
    exact (Value.agrees_iff _ _).mpr hunified.symm

/-- A requirement that repeats no variable cannot ask for two parts at once. -/
theorem Accepted.consistent_of_nodup (h : Accepted value requirement) (hvalue : value.dualFree)
    (hrequirement : requirement.dualFree) (hnodup : requirement.occurrences.Nodup) :
    Consistent (value.unify requirement).assumptions := by
  intro first hfirst second hsecond hname
  have hnames := (assumed_sublist hvalue hrequirement h.silent h.owned).nodup hnodup
  obtain rfl := List.inj_on_of_nodup_map hnames hfirst hsecond hname
  exact (Value.agrees_iff _ _).mpr rfl

end Accepted

namespace Candidate

variable {options : Options} {scope : Scope} {value requirement : Value} {candidate : Candidate}

theorem rigid_of_builtinInstance {name : String} (h : requirement.builtinInstance? = some name) :
    requirement.Rigid := by
  have hrigid : ∀ a b : Literal, (Value.data (.literal a) [.literal b]).Rigid := by
    intro a b
    simp [Value.Rigid, Value.occurrences, Value.dualFree, Form.map, Form.children, Form.sides?]
  unfold Value.builtinInstance? at h
  split at h
  · exact hrigid _ _
  · exact hrigid _ _
  · cases h

theorem satisfies_iff :
    satisfies value requirement ↔ value.asVar? = none ∧ Accepted value requirement := by
  simp only [satisfies, Bool.and_eq_true, Option.isNone_iff_eq_none, List.isEmpty_iff,
    List.all_eq_true, Bool.not_eq_true', List.contains_eq_mem, decide_eq_false_iff_not,
    Value.mem_freeVariables]
  exact and_congr_right fun _ => ⟨fun h => ⟨h.1, h.2⟩, fun h => ⟨h.1, h.2⟩⟩

/-- A candidate is a value that the requirement was accepted for, and not a mere variable. -/
theorem accepted_of_mem (h : candidate ∈ forRequirement options scope requirement)
    (hrequirement : requirement.dualFree) :
    (∃ form, candidate.2 = .term form) ∧ Accepted candidate.2 requirement := by
  rcases forRequirement_cases options requirement with ⟨name, -, hbuiltin, hall⟩ | ⟨-, hall⟩
  · rw [hall, List.mem_singleton] at h
    subst h
    have hrigid : requirement.Rigid := rigid_of_builtinInstance hbuiltin
    have hsame : (requirement.unify requirement).Fulfilled Value.var :=
      (Value.unify_fulfilled_iff _ hrequirement hrequirement).mpr rfl
    exact ⟨hrigid.exists_form, hsame.1, fun _ _ hname => by simp [hrigid.1] at hname⟩
  · rw [hall, List.mem_filter, satisfies_iff] at h
    obtain ⟨-, hdefinite, haccepted⟩ := h
    refine ⟨?_, haccepted⟩
    cases hvalue : candidate.2 with
    | var name => simp [hvalue, Value.asVar?] at hdefinite
    | term form => exact ⟨form, rfl⟩

def stands (placeholder : String) (candidate : Candidate) : Constraint :=
  ⟨.equals, placeholder, candidate.2, candidate.1, .implicitSearch⟩

def wanted (placeholder : String) (candidate : Candidate) (requirement : Value) : Constraint :=
  ⟨.evaluatedFrom, placeholder, requirement, candidate.1, .implicitSearch⟩

def placeholder (k : Nat) : String := "implicit$" ++ toString k

def trial (row : (Value × Candidate) × Nat) : List Constraint :=
  [stands (placeholder row.2) row.1.2, wanted (placeholder row.2) row.1.2 row.1.1]

theorem facts_eq (requirements : List Value) (combination : List Candidate) :
    facts requirements combination = ((requirements.zip combination).zipIdx).flatMap trial := rfl

theorem placeholder_inj {i j : Nat} (h : placeholder i = placeholder j) : i = j := by
  have hlist := congrArg String.toList h
  rw [placeholder, placeholder, String.toList_append, String.toList_append,
    List.append_cancel_left_eq] at hlist
  exact Nat.repr_inj.mp (String.toList_inj.mp hlist)

section Trial

open Reduction

variable {r : Reduction} {limit rest k : Nat} {queue : List Constraint} {f g : Form Value}

/-- What is learned when a placeholder that stands for a candidate meets the requirement. -/
theorem learned_of_trial (hcandidate : candidate.2 = .term f) (hrequirement : requirement = .term g)
    (himplicit : requirement.implicitCount = 0) (hfresh : r.entries.get? (placeholder k) = none) :
    ((r.step (stands (placeholder k) candidate)).1.step
        (wanted (placeholder k) candidate requirement)).2 =
      (candidate.2.unify requirement).assumptions.map
        (Convergence.assumption { origin := candidate.1 }) := by
  have htrivial : ¬ (stands (placeholder k) candidate).isTrivial := by
    simp [stands, Constraint.isTrivial, hcandidate, Value.asVar?]
  have htrivial' : ¬ (wanted (placeholder k) candidate requirement).isTrivial := by
    simp [wanted, Constraint.isTrivial, hrequirement, Value.asVar?]
  have hopened : (r.step (stands (placeholder k) candidate)).1.entries.get? (placeholder k) =
      some (.ofConstraint (stands (placeholder k) candidate)) := by
    rw [step, if_neg htrivial, show (stands (placeholder k) candidate).var = placeholder k from rfl,
      hfresh]
    exact Table.get?_insert_self
  have hstrip : requirement.stripImplicits = .term g := by
    rw [Value.stripImplicits_eq_self himplicit, hrequirement]
  rw [step, if_neg htrivial',
    show (wanted (placeholder k) candidate requirement).var = placeholder k from rfl, hopened]
  simp only [wanted, stands, Entry.ofConstraint, List.any_cons, List.any_nil, Constraint.sameFact,
    Entry.merge, Convergence.meet, Convergence.evaluate, hstrip, Convergence.converge,
    List.nil_append]
  rw [hrequirement]
  rfl

/-- Whatever a unification with a requirement assumes is on record when the trial ends. -/
theorem run_notes_assumptions {pairs : List (Value × Candidate)} {pair : Value × Candidate}
    (hpair : pair ∈ pairs) (hcandidate : pair.2.2 = .term f) (hrequirement : pair.1 = .term g)
    (himplicit : pair.1.implicitCount = 0)
    (hfresh : ∀ i, k ≤ i → r.entries.get? (placeholder i) = none)
    (hdiagnostics :
      (run limit rest ((pairs.zipIdx k).flatMap trial ++ queue) r).1.diagnostics = []) :
    ∀ assumed ∈ (pair.2.2.unify pair.1).assumptions, ∀ form, assumed.2 = .term form →
      (run limit rest ((pairs.zipIdx k).flatMap trial ++ queue) r).1.Notes
        (Convergence.assumption { origin := pair.2.1 } assumed) := by
  induction pairs generalizing k r rest queue with
  | nil => exact absurd hpair List.not_mem_nil
  | cons head others ih =>
    obtain ⟨requirement, candidate⟩ := head
    rw [List.zipIdx_cons, List.flatMap_cons] at hdiagnostics ⊢
    obtain _ | _ | rest := rest
    · simp [trial, run, stop] at hdiagnostics
    · simp [trial, run, stop] at hdiagnostics
    generalize hfirst : stands (placeholder k) candidate = first
    generalize hsecond : wanted (placeholder k) candidate requirement = second
    have hrun : run limit (rest + 1 + 1)
        (trial ((requirement, candidate), k) ++ (others.zipIdx (k + 1)).flatMap trial ++ queue) r =
        run limit rest ((others.zipIdx (k + 1)).flatMap trial ++
          (queue ++ (r.step first).2 ++ ((r.step first).1.step second).2))
          ((r.step first).1.step second).1 := by
      rw [← hfirst, ← hsecond]
      simp only [← List.append_assoc]
      rfl
    rw [hrun] at hdiagnostics ⊢
    rcases List.mem_cons.mp hpair with rfl | hlater
    · intro assumed hassumed form hform
      have hlearned := learned_of_trial hcandidate hrequirement himplicit (hfresh k (Nat.le_refl k))
      rw [hfirst, hsecond] at hlearned
      have hnoted := run_notes hdiagnostics (Convergence.assumption { origin := candidate.1 } assumed)
        (by
          refine List.mem_append_right _ (List.mem_append_right _ ?_)
          rw [hlearned]
          exact List.mem_map_of_mem hassumed)
      apply hnoted.resolve_left
      simp [Constraint.isTrivial, Convergence.assumption, hform, Value.asVar?]
    · refine ih hlater (fun i hi => ?_) hdiagnostics
      have hne : placeholder i ≠ placeholder k := by
        intro heq
        have := placeholder_inj heq
        omega
      have hvar : first.var = placeholder k := by rw [← hfirst]; rfl
      have hvar' : second.var = placeholder k := by rw [← hsecond]; rfl
      rw [(step_taken _ second).frame (hvar' ▸ hne), (step_taken _ first).frame (hvar ▸ hne)]
      exact hfresh i (by omega)

/-- In a trial without a report, a candidate without variables is never two things at once. -/
theorem consistent_of_closed {requirements : List Value} {combination : List Candidate}
    (hdiagnostics : (reduce options (facts requirements combination)).diagnostics = [])
    (hpair : (requirement, candidate) ∈ requirements.zip combination)
    (hcandidate : candidate.2 = .term f) (haccepted : Accepted candidate.2 requirement)
    (hdual : candidate.2.dualFree) (hdual' : requirement.dualFree)
    (himplicit : requirement.implicitCount = 0) (hclosed : candidate.2.occurrences = []) :
    Consistent (candidate.2.unify requirement).assumptions := by
  intro first hfirst second hsecond hname
  cases hrequirement : requirement with
  | var name =>
    have hnodup : requirement.occurrences.Nodup := by simp [hrequirement]
    exact haccepted.consistent_of_nodup hdual hdual' hnodup first hfirst second hsecond hname
  | term g =>
    rw [facts_eq, ← List.append_nil (List.flatMap trial _)] at hdiagnostics
    have hnoted := run_notes_assumptions hpair hcandidate hrequirement himplicit
      (fun i _ => rfl) hdiagnostics
    have hpinned := run_pinned (r := {}) (fun name entry hentry => by cases hentry) hdiagnostics
    have hrigid : ∀ assumed ∈ (candidate.2.unify requirement).assumptions, assumed.2.Rigid := by
      intro assumed hassumed
      refine ⟨?_, (Value.dualFree_unify hdual hdual').2 assumed hassumed⟩
      apply List.eq_nil_iff_forall_not_mem.mpr
      intro name hmem
      have := (haccepted.part hdual hdual' hassumed).2 name hmem
      simp [hclosed] at this
    obtain ⟨form, hform⟩ := (hrigid first hfirst).exists_form
    obtain ⟨form', hform'⟩ := (hrigid second hsecond).exists_form
    rw [Value.agrees_iff]
    exact hpinned.agree (c := Convergence.assumption { origin := candidate.1 } first)
      (d := Convergence.assumption { origin := candidate.1 } second) hname rfl rfl
      (hrigid first hfirst) (hrigid second hsecond) (hnoted first hfirst form hform)
      (hnoted second hsecond form' hform')

end Trial

end Candidate

/-- A node that something was supplied to has as much supplied as its surroundings do not want, in the
order of its implicit parameters. What is supplied matches its parameter exactly if unifying the two
asks for no variable of the parameter to be two parts that differ, and that is so if what is
supplied has no variables or the parameter repeats none. -/
theorem supplied_matches_iff_consistent (options : Options) (tree : Node Scoped) (n : Node Resolved)
    (hn : n ∈ (resolveImplicits options tree).node.toList) (hsupplied : n.decoration.supplied ≠ []) :
    ∃ m ∈ tree.toList, n = (resolveImplicits options m).node ∧
      n.decoration.supplied.length = m.decoration.excess ∧
      ∀ pair ∈ n.decoration.supplied.zip m.decoration.type.implicitParameters,
        pair.1.2.dualFree → pair.2.dualFree → pair.2.implicitCount = 0 →
          (Matches pair.1.2 pair.2 ↔ Consistent (pair.1.2.unify pair.2).assumptions) ∧
          (pair.1.2.freeVariables = [] ∨ pair.2.occurrences.Nodup → Matches pair.1.2 pair.2) := by
  rw [(resolveImplicits_eq options tree).1] at hn
  obtain ⟨m, hm, hnm, hsupplies⟩ := exists_of_supplied hn hsupplied
  obtain ⟨hcandidates, hsilent⟩ := Scoped.mem_supplies_iff.mp hsupplies
  have hlength := hcandidates.length_eq.trans m.decoration.length_requirements
  refine ⟨m, hm, hnm.trans (resolveImplicits_eq options m).1.symm, hlength, ?_⟩
  have hzip : n.decoration.supplied.zip m.decoration.type.implicitParameters =
      n.decoration.supplied.zip m.decoration.requirements := by
    have hall : (n.decoration.supplied.zip m.decoration.type.implicitParameters).length ≤
        n.decoration.supplied.length := by
      rw [List.length_zip]
      exact Nat.min_le_left _ _
    rw [Scoped.requirements, ← hlength, ← List.take_of_length_le hall, List.zip,
      List.take_zipWith, List.take_length]
  rw [hzip]
  rintro ⟨candidate, requirement⟩ hpair hdual hdual' himplicit
  obtain ⟨⟨form, hform⟩, haccepted⟩ :=
    Candidate.accepted_of_mem (List.forall₂_zip hcandidates hpair) hdual'
  have hmatches := haccepted.matches_iff hdual hdual'
  refine ⟨hmatches, ?_⟩
  rintro (hclosed | hlinear)
  · rw [hmatches]
    have hnone : candidate.2.occurrences = [] := by
      apply List.eq_nil_iff_forall_not_mem.mpr
      intro name hname
      have := Value.mem_freeVariables.mpr hname
      simp [hclosed] at this
    have hswapped : (requirement, candidate) ∈ m.decoration.requirements.zip n.decoration.supplied := by
      rw [← List.zip_swap]
      exact List.mem_map_of_mem hpair
    exact Candidate.consistent_of_closed hsilent hswapped hform haccepted hdual hdual' himplicit hnone
  · exact hmatches.mpr (haccepted.consistent_of_nodup hdual hdual' hlinear)

def Value.pair (left right : Value) : Value := .data (.symbol "P") [left, right]

def pairUser (pairs : List (String × Value)) : Node Scoped :=
  ⟨.identifier "f", .ofBool true, .function .implicit (.pair (.var "t") (.var "t")) (.ofBool true),
    Scope.ofTypes pairs⟩

theorem pairUser_supplied_matches :
    ∃ n ∈ (resolveImplicits {} (pairUser [("p", .pair (.ofBool true) (.ofBool true)),
        ("q", .pair (.ofBool true) (.ofBool false))])).node.toList,
      n.decoration.supplied = [("p", .pair (.ofBool true) (.ofBool true))] ∧
        Matches (.pair (.ofBool true) (.ofBool true)) (.pair (.var "t") (.var "t")) := by
  generalize htree : pairUser _ = tree
  have hchosen : (resolveImplicits {} tree).node.decoration.supplied =
      [("p", .pair (.ofBool true) (.ofBool true))] := by
    rw [← htree]
    rfl
  refine ⟨_, Node.mem_toList_self _, hchosen, ?_⟩
  obtain ⟨m, hm, -, -, hpairs⟩ := supplied_matches_iff_consistent {} tree _
    (Node.mem_toList_self _) (by rw [hchosen]; exact List.cons_ne_nil _ _)
  have hroot : m.decoration.type = tree.decoration.type := by
    rw [← htree] at hm ⊢
    rcases Node.mem_toList_mk.mp hm with rfl | ⟨_, hnone, _⟩
    · rfl
    · simp [Expr.children] at hnone
  rw [hchosen, hroot, ← htree] at hpairs
  exact (hpairs _ List.mem_cons_self (by decide) (by decide) (by decide)).2 (.inl (by decide))

/-- A pair of two open records is supplied although no substitution makes the parameter that pair: the
trial takes the parts of the candidate to be the same. -/
theorem supplied_can_be_narrowed :
    (resolveImplicits {} (pairUser [("p", .pair (.record [("x", .var "a")])
        (.record [("x", .var "b")]))])).node.decoration.supplied.map Prod.fst = ["p"] ∧
      ¬ Matches (.pair (.record [("x", .var "a")]) (.record [("x", .var "b")]))
        (.pair (.var "t") (.var "t")) := by
  refine ⟨by decide +kernel, ?_⟩
  have haccepted : Accepted (.pair (.record [("x", .var "a")]) (.record [("x", .var "b")]))
      (.pair (.var "t") (.var "t")) := ⟨by decide, by decide⟩
  rw [haccepted.matches_iff (by decide) (by decide)]
  decide

end ImplicitInference
