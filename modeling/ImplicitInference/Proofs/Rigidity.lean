import ImplicitInference.Proofs.Expansion
import ImplicitInference.Proofs.Record

/-!
Values without variables. Such a value has nothing that a unification could narrow: on the left it
comes out as it went in, and on the right it is what comes out, if nothing is reported. Every other
value is changed by some unification. So once a variable was equal to a value without variables its
entry stays that value, whatever else is learned about it, and all values of this kind that were ever
noted for one variable agree.
-/

namespace ImplicitInference

namespace Form

variable {α : Type} (form : Form α)

@[simp] theorem sides?_normal : form.normal.sides? = form.sides? := by
  cases form <;> rfl

end Form

namespace Value

def Rigid (v : Value) : Prop := v.occurrences = [] ∧ v.dualFree

theorem occurrences_normal (v : Value) : v.normal.occurrences = v.occurrences := by
  induction v using Value.induction with
  | var name => rfl
  | term form ih =>
    rw [normal_term, occurrences_term, occurrences_term, Form.children_normal, Form.children_map,
      List.flatMap_map, List.flatMap_def, List.flatMap_def, List.map_congr_left ih]

theorem dualFree_normal (v : Value) : v.normal.dualFree ↔ v.dualFree := by
  induction v using Value.induction with
  | var name => rfl
  | term form ih =>
    rw [normal_term, dualFree_term, dualFree_term, Form.sides?_normal, Form.sides?_map,
      Form.children_normal, Form.children_map, List.forall_mem_map, Option.map_eq_none_iff]
    exact and_congr_right fun _ => forall₂_congr ih

variable {v w : Value} {form : Form Value}

theorem Rigid.congr (h : v.Rigid) (hvw : v.normal = w.normal) : w.Rigid := by
  rwa [Rigid, ← occurrences_normal, ← dualFree_normal, hvw, occurrences_normal,
    dualFree_normal] at h

theorem rigid_term : (term form).Rigid ↔ form.sides? = none ∧ ∀ v ∈ form.children, v.Rigid := by
  simp only [Rigid, occurrences_term, List.flatMap_eq_nil_iff, dualFree_term]
  constructor
  · rintro ⟨hvariables, hsides, hchildren⟩
    exact ⟨hsides, fun v hv => ⟨hvariables v hv, hchildren v hv⟩⟩
  · rintro ⟨hsides, hchildren⟩
    exact ⟨fun v hv => (hchildren v hv).1, hsides, fun v hv => (hchildren v hv).2⟩

theorem Rigid.child (h : (term form).Rigid) (hv : v ∈ form.children) : v.Rigid :=
  (rigid_term.mp h).2 v hv

theorem Rigid.exists_form (h : v.Rigid) : ∃ form, v = term form := by
  cases v with
  | var name => simp [Rigid] at h
  | term form => exact ⟨form, rfl⟩

theorem Rigid.stripImplicits (h : v.Rigid) : v.stripImplicits.Rigid := by
  fun_induction Value.stripImplicits v with
  | case1 parameter body ih => exact ih (h.child (by simp [Form.children]))
  | case2 v _ => exact h

/-- Nothing narrows a value without variables. -/
theorem unify_rigid_left {left right : Value} (h : left.Rigid) : (left.unify right).value = left := by
  revert h
  refine unify_induction (motive := fun left _ u => left.Rigid → u.value = left) ?_ left right
  intro left right pairs u hunifies ih hrigid
  cases hunifies with
  | same _ => rfl
  | varLeft _ =>
    obtain ⟨form, hform⟩ := hrigid.exists_form
    cases hform
  | varRight => rfl
  | dualLeft _ => cases (rigid_term.mp hrigid).1
  | dualRight _ _ => exact ih _ (List.mem_cons_of_mem _ List.mem_cons_self) hrigid
  | @joined f g _ _ _ =>
    have hparts : ∀ pair ∈ (f.join g).1.children, (Unified.ofPair unify pair).value = pair.1 := by
      apply Unified.forall_ofPair (P := fun a u => u.value = a)
      · intro a _
        rfl
      · intro call hcall
        exact ih call hcall (hrigid.child (Form.mem_children_of_mem_partners hcall).1)
    have hlayer : (f.join g).1.map (Unified.value ∘ Unified.ofPair unify) = f :=
      (Form.map_congr hparts).trans (Form.map_fst_join f g)
    rw [Unified.ofJoin, Unified.ofForm, Form.map_map, hlayer]

/-- A layer that meets its own image comes to what its children come to when they meet theirs. -/
theorem unify_map {φ : Value → Value} (hne : ¬(term form).equal (term (form.map φ)))
    (hsides : form.sides? = none) : ((term form).unify (term (form.map φ))).value =
      term (form.map fun v => (v.unify (φ v)).value) := by
  have hother : (form.map φ).sides? = none := by rw [Form.sides?_map, hsides]; rfl
  have hjoin := Form.join_pairs (form.map fun v => (v, φ v))
  simp only [Form.map_map, Function.comp_def] at hjoin
  have hid : (form.map fun v => v) = form := Form.map_id form
  rw [hid] at hjoin
  rw [(Unifies.joined hne hsides hother).unify_eq, Unified.ofJoin, hjoin, Unified.ofForm, Form.map_map,
    Form.map_map]
  rfl

/-- A dual is not kept, for what its sides come to is smaller. -/
theorem unify_dual_ne {a b : Value} {g : Form Value} (hne : ¬(dual a b).equal (term g))
    (hg : (term g).size = 1) : ((dual a b).unify (term g)).value ≠ dual a b := by
  intro hkept
  have hsides := size_unify_lt a b
  have hrest := size_unify_lt (a.unify b).value (term g)
  have hsize := congrArg size hkept
  rw [(Unifies.dualLeft hne).unify_eq, size_dual] at hsize
  have hvalue : ((a.unify b).value.unify (term g)).value.size = 1 + (a.size + b.size) := hsize
  omega

/-- A value that has a variable or a dual is not kept by every unification. -/
theorem exists_changed (h : ¬v.Rigid) :
    ∃ right, right.normal ≠ v.normal ∧ (v.unify right).value ≠ v := by
  induction v using Value.induction with
  | var name =>
    refine ⟨symbol "", by simp, ?_⟩
    rw [(Unifies.varLeft (by simp [equal, compare])).unify_eq]
    simp [Unified.assume]
  | term form ih =>
    cases hsides : form.sides? with
    | some sides =>
      obtain rfl := Form.eq_dual_of_sides? hsides
      refine ⟨symbol "", by simp [Form.map, Form.normal], unify_dual_ne ?_ ?_⟩
      · simp [equal, compare_term, Form.compare]
      · simp [size_term, Form.children]
    | none =>
      have hchoice : ∀ w, ∃ right, w ∈ form.children → ¬w.Rigid →
          right.normal ≠ w.normal ∧ (w.unify right).value ≠ w := by
        intro w
        by_cases hw : w ∈ form.children ∧ ¬w.Rigid
        · obtain ⟨right, hright⟩ := ih w hw.1 hw.2
          exact ⟨right, fun _ _ => hright⟩
        · exact ⟨w, fun hmem hrigid => absurd ⟨hmem, hrigid⟩ hw⟩
      choose φ hφ using hchoice
      obtain ⟨w, hw, hrigid⟩ : ∃ w ∈ form.children, ¬w.Rigid := by
        by_contra hall
        push Not at hall
        exact h (rigid_term.mpr ⟨hsides, hall⟩)
      obtain ⟨hdiffers, hchanged⟩ := hφ w hw hrigid
      have hnormal : (term (form.map φ)).normal ≠ (term form).normal := by
        intro heq
        rw [normal_term, normal_term] at heq
        have hchildren := congrArg Form.children (Value.term.inj heq)
        simp only [Form.children_normal, Form.children_map, List.map_map] at hchildren
        exact hdiffers (List.map_inj_left.mp hchildren w hw)
      have hne : ¬(term form).equal (term (form.map φ)) :=
        fun heq => hnormal (normal_eq_of_equal heq).symm
      refine ⟨term (form.map φ), hnormal, ?_⟩
      rw [unify_map hne hsides]
      intro hkept
      have hlayer : (form.map fun v => (v.unify (φ v)).value) = form.map id := by
        rw [Form.map_id]
        exact Value.term.inj hkept
      exact hchanged (Form.map_eq_map_iff.mp hlayer w hw)

/-- A value without variables on the right is what comes out. -/
theorem unify_rigid_right {left right : Value} (hright : right.Rigid)
    (h : (left.unify right).diagnostics = []) : (left.unify right).value.normal = right.normal := by
  revert hright h
  refine unify_induction
    (motive := fun _ right u => right.Rigid → u.diagnostics = [] → u.value.normal = right.normal)
    ?_ left right
  intro left right pairs u hunifies ih hright h
  cases hunifies with
  | same heq => exact normal_eq_of_equal heq
  | varLeft _ => rfl
  | varRight =>
    obtain ⟨form, hform⟩ := hright.exists_form
    cases hform
  | dualLeft _ =>
    exact ih _ (List.mem_cons_of_mem _ List.mem_cons_self) hright (List.append_eq_nil_iff.mp h).2
  | dualRight _ _ => cases (rigid_term.mp hright).1
  | @joined f g _ _ _ =>
    obtain ⟨a, b, rfl, rfl, hab, hkeep⟩ | ⟨q, rfl, rfl, hpairs, hsilent, hparts⟩ := ofJoin_silent h
    · rw [hkeep]
      show (term (.literal a)).normal = (term (.literal b)).normal
      rw [← agrees_iff, agrees, compare_term]
      exact hab
    · rw [hpairs] at ih
      have hpair : ∀ pair ∈ q.children, (pair.1.unify pair.2).value.normal = pair.2.normal := by
        intro pair hpair
        have hchild : pair.2 ∈ (q.map Prod.snd).children := Form.mem_children_map hpair
        exact ih pair hpair (hright.child hchild) (hsilent pair hpair)
      rw [hparts, Unified.ofForm, normal_term, normal_term, Form.map_map, Form.map_map,
        Form.map_map]
      exact congrArg (fun layer => term layer.normal) (Form.map_congr hpair)

end Value

namespace Convergence

variable {c : Convergence} {v w : Value}

theorem converge_rigid (h : v.Rigid) : (c.converge v w).1 = v :=
  Value.unify_rigid_left h

theorem evaluate_rigid_unevaluated (h : v.Rigid) : (c.evaluate v w .unevaluated).1 = v := by
  obtain ⟨form, hstrip⟩ := h.stripImplicits.exists_form
  have hform : (Value.term form).Rigid := hstrip ▸ h.stripImplicits
  simp only [evaluate, hstrip]
  rw [converge_rigid hform, ← hstrip, Value.wrapImplicits_stripImplicits]

theorem evaluate_rigid_evaluated (h : v.Rigid) : (c.evaluate w v .evaluated).1 = v := by
  cases hstrip : w.stripImplicits with
  | var name => simp only [evaluate, hstrip]
  | term form =>
    simp only [evaluate, hstrip]
    exact converge_rigid h

theorem meet_rigid_existing (incoming : Relation × Value) (h : v.Rigid) :
    (c.meet (.equals, v) incoming).1 = .equals ∧ (c.meet (.equals, v) incoming).2.1 = v := by
  obtain ⟨r, w⟩ := incoming
  cases r with
  | equals => exact ⟨rfl, converge_rigid h⟩
  | evaluatesTo => exact ⟨rfl, evaluate_rigid_unevaluated h⟩
  | evaluatedFrom => exact ⟨rfl, evaluate_rigid_evaluated h⟩

theorem meet_rigid_incoming {existing : Relation × Value} (h : w.Rigid)
    (hsilent : (c.meet existing (.equals, w)).2.2.diagnostics = []) :
    (c.meet existing (.equals, w)).1 = .equals ∧
      (c.meet existing (.equals, w)).2.1.normal = w.normal := by
  obtain ⟨r, v⟩ := existing
  cases r with
  | equals =>
    have hunified : (v.unify w).diagnostics = [] := (List.append_eq_nil_iff.mp hsilent).2
    exact ⟨rfl, Value.unify_rigid_right h hunified⟩
  | evaluatesTo => exact ⟨rfl, congrArg Value.normal (evaluate_rigid_unevaluated h)⟩
  | evaluatedFrom => exact ⟨rfl, congrArg Value.normal (evaluate_rigid_evaluated h)⟩

end Convergence

namespace Reduction

variable {r t : Reduction} {c d : Constraint} {limit rest : Nat} {queue learned : List Constraint}

/-- An entry is every value without variables that its variable was ever equal to. -/
def Pinned (r : Reduction) : Prop :=
  ∀ name entry, r.entries.get? name = some entry → ∀ source ∈ entry.sources,
    source.relation = .equals → source.value.Rigid →
      entry.relation = .equals ∧ entry.value.normal = source.value.normal

theorem Step.pinned (h : Step r c t learned) (hr : Pinned r) (hdiagnostics : t.diagnostics = []) :
    Pinned t := by
  intro name entry hentry source hsource hequals hrigid
  by_cases hname : name = c.var
  · subst hname
    cases h with
    | trivial _ => exact hr _ entry hentry source hsource hequals hrigid
    | repeated _ => exact hr _ entry hentry source hsource hequals hrigid
    | opened _ =>
      rw [Table.get?_insert_self] at hentry
      obtain rfl := Option.some.inj hentry
      obtain rfl := List.mem_singleton.mp hsource
      exact ⟨hequals, rfl⟩
    | @merged old _ hold =>
      rw [Table.get?_insert_self] at hentry
      obtain rfl := Option.some.inj hentry
      rcases List.mem_append.mp hsource with hearlier | hnew
      · obtain ⟨hrelation, hvalue⟩ := hr _ old hold source hearlier hequals hrigid
        have hkept := Convergence.meet_rigid_existing (c := { origin := c.origin })
          (c.relation, c.value) (hrigid.congr hvalue.symm)
        rw [← hrelation] at hkept
        exact ⟨hkept.1.trans hrelation, (congrArg Value.normal hkept.2).trans hvalue⟩
      · obtain rfl := List.mem_singleton.mp hnew
        have hsilent := (List.append_eq_nil_iff.mp hdiagnostics).2
        simp only [Entry.merge, hequals] at hsilent ⊢
        exact Convergence.meet_rigid_incoming hrigid hsilent
  · rw [h.frame hname] at hentry
    exact hr name entry hentry source hsource hequals hrigid

theorem run_pinned (hr : Pinned r) (hdiagnostics : (run limit rest queue r).1.diagnostics = []) :
    Pinned (run limit rest queue r).1 := by
  have hended := ended_of_silent hdiagnostics
  rw [run_eq_cut, State.cut_of_ended hended] at hdiagnostics ⊢
  revert hdiagnostics
  apply State.keeps (fun r _ => r.diagnostics = [] → Pinned r)
  · intro r c _ hpinned hsilent
    have hbefore := (step_taken r c).precedes.silent hsilent
    exact (step_taken r c).pinned (hpinned hbefore) hsilent
  · exact fun _ => hr

/-- Values without variables that were noted for one variable agree. -/
theorem Pinned.agree (h : Pinned r) (hvar : c.var = d.var) (hc : c.relation = .equals)
    (hd : d.relation = .equals) (hrigid : c.value.Rigid) (hrigid' : d.value.Rigid)
    (hnoted : r.Notes c) (hnoted' : r.Notes d) : c.value.normal = d.value.normal := by
  obtain ⟨entry, hentry, source, hsource, hrelation, hvalue⟩ := hnoted
  obtain ⟨other, hother, source', hsource', hrelation', hvalue'⟩ := hnoted'
  rw [← hvar, hentry] at hother
  obtain rfl := Option.some.inj hother
  have hfirst := h _ _ hentry source hsource (hrelation.trans hc) (hrigid.congr hvalue.symm)
  have hsecond := h _ _ hentry source' hsource' (hrelation'.trans hd) (hrigid'.congr hvalue'.symm)
  rw [← hvalue, ← hfirst.2, hsecond.2, hvalue']

end Reduction

/-- A value without variables and without duals comes out of every unification exactly as it went in on
the left, whatever it meets and whatever was or is reported. No other value does. -/
theorem always_kept_iff_closed (left : Value) :
    (∀ (c : Convergence) (right : Value), (c.converge left right).1 = left) ↔
      left.freeVariables = [] ∧ left.dualFree := by
  have hvariables : left.freeVariables = [] ↔ left.occurrences = [] := by
    simp only [List.eq_nil_iff_forall_not_mem, Value.mem_freeVariables]
  rw [hvariables]
  constructor
  · intro hkept
    by_contra hopen
    obtain ⟨right, -, hchanged⟩ := Value.exists_changed hopen
    exact hchanged (hkept { origin := "" } right)
  · intro hrigid c right
    exact Convergence.converge_rigid hrigid

def closedCouple : Value :=
  .record [("a", .number (.nan false)), ("b", .data (.symbol "List") [.literal (.boolean true)])]

def openChoice : Value :=
  .dual (.var "x") (.record [("a", .var "y"), ("b", .data (.symbol "Set") [.var "z", .var "z"])])

theorem closedCouple_is_kept :
    (Convergence.converge { origin := "node" } closedCouple openChoice).2.diagnostics =
        [.typeValuesAreDifferent (.symbol "List") (.symbol "Set"), .parameterCountsAreDifferent 1 2] ∧
      (Convergence.converge { origin := "node" } closedCouple openChoice).1 = closedCouple := by
  refine ⟨by rfl, ?_⟩
  exact (always_kept_iff_closed closedCouple).mpr ⟨by decide, by decide⟩ _ _

end ImplicitInference
