import ImplicitInference.Proofs.Entailment

/-!
A solution for every table of entries, recursive or not. A tree, finite or infinite, is given by its
approximations: the one at depth `n` shows the first `n` layers. Every variable has an unfolding, the
tree that comes out if variables are replaced by the values of their entries forever; a variable that
is only ever replaced by other variables stands for nothing. The unfoldings settle all entries, so
they solve every constraint that the entries stand for. Where simplification left no variable in a
value that has an entry of its own, the value is finite and the unfolding shows nothing else.
-/

namespace ImplicitInference

abbrev Tree := Nat → Value

def Tree.leaf (name : String) : Tree
  | 0 => .var ""
  | _ + 1 => .var name

def Tree.make (form : Form Tree) : Tree
  | 0 => .var ""
  | n + 1 => .term (form.map fun tree => tree n).normal

theorem Tree.make_eq_make_iff {x y : Form Tree} : make x = make y ↔ x.normal = y.normal := by
  constructor
  · intro h
    have hlayers : ∀ n, (x.map fun tree : Tree => tree n).normal =
        (y.map fun tree : Tree => tree n).normal := by
      intro n
      exact Value.term.inj (congrFun h (n + 1))
    have hpairs := fun n => (Form.normal_map_eq_iff_join _ x y).mp (hlayers n)
    have hid : (x.map id).normal = (y.map id).normal := by
      apply (Form.normal_map_eq_iff_join id x y).mpr
      refine ⟨(hpairs 0).1, fun pair hmem b hb => ?_⟩
      exact funext fun n => (hpairs n).2 pair hmem b hb
    rwa [Form.map_id, Form.map_id] at hid
  · intro h
    funext n
    cases n with
    | zero => rfl
    | succ n =>
      rw [make, make, ← Form.map_normal, h, Form.map_normal]

def Domain.trees : Domain Tree where
  make := Tree.make
  make_eq_make := Tree.make_eq_make_iff
  nothing := fun _ => .var ""
  nothing_ne parameter body h := by simpa [Tree.make] using congrFun h 1

section Exposure

variable (entries : Table Entry)

/-- What stands at the root of a value, when variables are replaced by the values of their entries.
The flag says that leading implicit parameters are removed on the way. -/
inductive Exposes : Bool → Value → Value → Prop
  | form {evaluated : Bool} {form : Form Value}
      (h : evaluated = true → ∀ p b, Value.term form ≠ .function .implicit p b) :
      Exposes evaluated (.term form) (.term form)
  | free {evaluated : Bool} {name : String} (h : entries.get? name = none) :
      Exposes evaluated (.var name) (.var name)
  | layer {parameter body root : Value} (h : Exposes true body root) :
      Exposes true (.function .implicit parameter body) root
  | entry {evaluated : Bool} {name : String} {entry : Entry} {root : Value}
      (h : entries.get? name = some entry)
      (hroot : Exposes (evaluated || decide (entry.relation = .evaluatedFrom)) entry.value root) :
      Exposes evaluated (.var name) root

variable {entries} {evaluated : Bool} {v root other : Value}

theorem Exposes.unique (h : Exposes entries evaluated v root) (h' : Exposes entries evaluated v other) :
    root = other := by
  induction h with
  | form hform =>
    cases h' with
    | form _ => rfl
    | layer _ => exact absurd rfl (hform rfl _ _)
  | free hnone =>
    cases h' with
    | free _ => rfl
    | entry hsome _ => rw [hnone] at hsome; cases hsome
  | layer _ ih =>
    cases h' with
    | form hform => exact absurd rfl (hform rfl _ _)
    | layer hrest => exact ih hrest
  | entry hsome _ ih =>
    cases h' with
    | free hnone => rw [hnone] at hsome; cases hsome
    | entry hsome' hrest =>
      rw [hsome] at hsome'
      obtain rfl := Option.some.inj hsome'
      exact ih hrest

open Classical in
noncomputable def exposed (entries : Table Entry) (evaluated : Bool) (v : Value) : Option Value :=
  if h : ∃ root, Exposes entries evaluated v root then some h.choose else none

theorem exposed_eq (h : Exposes entries evaluated v root) :
    exposed entries evaluated v = some root := by
  have hex : ∃ root, Exposes entries evaluated v root := ⟨root, h⟩
  rw [exposed, dif_pos hex]
  exact congrArg some (hex.choose_spec.unique h)

theorem exposed_congr {evaluated' : Bool} {w : Value}
    (h : ∀ root, Exposes entries evaluated v root ↔ Exposes entries evaluated' w root) :
    exposed entries evaluated v = exposed entries evaluated' w := by
  by_cases hex : ∃ root, Exposes entries evaluated v root
  · obtain ⟨root, hroot⟩ := hex
    rw [exposed_eq hroot, exposed_eq ((h root).mp hroot)]
  · have hnone : ¬ ∃ root, Exposes entries evaluated' w root := by simpa only [← h] using hex
    rw [exposed, exposed, dif_neg hex, dif_neg hnone]

noncomputable def unfoldWithin (entries : Table Entry) : Nat → Bool → Value → Value
  | 0, _, _ => .var ""
  | n + 1, evaluated, v =>
    match exposed entries evaluated v with
    | some (.term form) => .term (form.map (unfoldWithin entries n false)).normal
    | some (.var name) => .var name
    | none => .var ""

noncomputable def unfolded (entries : Table Entry) (evaluated : Bool) (v : Value) : Tree :=
  fun n => unfoldWithin entries n evaluated v

theorem unfolded_congr {evaluated' : Bool} {w : Value}
    (h : ∀ root, Exposes entries evaluated v root ↔ Exposes entries evaluated' w root) :
    unfolded entries evaluated v = unfolded entries evaluated' w := by
  funext n
  cases n with
  | zero => rfl
  | succ n => simp only [unfolded, unfoldWithin, exposed_congr h]

theorem unfolded_of_exposes {form : Form Value} (h : Exposes entries evaluated v (.term form)) :
    unfolded entries evaluated v = Domain.trees.make (form.map (unfolded entries false)) := by
  funext n
  cases n with
  | zero => rfl
  | succ n =>
    simp only [unfolded, unfoldWithin, exposed_eq h, Domain.trees, Tree.make, Form.map_map]
    rfl

theorem unfolded_term {form : Form Value}
    (h : evaluated = true → ∀ p b, Value.term form ≠ .function .implicit p b) :
    unfolded entries evaluated (.term form) = Domain.trees.make (form.map (unfolded entries false)) :=
  unfolded_of_exposes (.form h)

theorem unfolded_of_not_exposes (h : ¬ ∃ root, Exposes entries evaluated v root) :
    unfolded entries evaluated v = Domain.trees.nothing := by
  funext n
  cases n with
  | zero => rfl
  | succ n =>
    have hnone : exposed entries evaluated v = none := by rw [exposed, dif_neg h]
    simp only [unfolded, unfoldWithin, hnone]
    rfl

theorem unfolded_layer (parameter body : Value) :
    unfolded entries true (.function .implicit parameter body) = unfolded entries true body := by
  apply unfolded_congr
  intro root
  constructor
  · intro h
    cases h with
    | form hform => exact absurd rfl (hform rfl _ _)
    | layer hrest => exact hrest
  · exact .layer

theorem unfolded_free {name : String} (h : entries.get? name = none) :
    unfolded entries evaluated (.var name) = Tree.leaf name := by
  funext n
  cases n with
  | zero => rfl
  | succ n => simp only [unfolded, unfoldWithin, exposed_eq (.free h), Tree.leaf]

theorem unfolded_entry {name : String} {entry : Entry} (h : entries.get? name = some entry) :
    unfolded entries evaluated (.var name) =
      unfolded entries (evaluated || decide (entry.relation = .evaluatedFrom)) entry.value := by
  apply unfolded_congr
  intro root
  constructor
  · intro hroot
    cases hroot with
    | free hnone => rw [hnone] at h; cases h
    | entry hsome hrest =>
      rw [h] at hsome
      obtain rfl := Option.some.inj hsome
      exact hrest
  · exact .entry h

end Exposure

section Solution

variable {entries : Table Entry} {v w : Value}

noncomputable def unfolding (entries : Table Entry) (name : String) : Tree :=
  unfolded entries false (.var name)

theorem eval_unfolding (v : Value) :
    Domain.trees.eval (unfolding entries) v = unfolded entries false v := by
  induction v using Value.induction with
  | var name => rw [Domain.eval_var, unfolding]
  | term form ih =>
    rw [Domain.eval_term, unfolded_term (by simp), Form.map_congr ih]

theorem Exposes.evaluate {evaluated : Bool} {mid root : Value}
    (h : Exposes entries evaluated v mid) (hroot : Exposes entries true mid root) :
    Exposes entries true v root := by
  induction h with
  | form _ => exact hroot
  | free _ => exact hroot
  | layer _ ih => exact .layer (ih hroot)
  | entry hentry _ ih => exact .entry hentry (by simpa using ih hroot)

theorem Exposes.free_of_var {evaluated : Bool} {name : String}
    (h : Exposes entries evaluated v (.var name)) : entries.get? name = none := by
  generalize hroot : Value.var name = root at h
  induction h with
  | form _ => cases hroot
  | free hnone => cases hroot; exact hnone
  | layer _ ih => exact ih hroot
  | entry _ _ ih => exact ih hroot

theorem Exposes.exists_of_var {evaluated : Bool} {name : String}
    (h : Exposes entries evaluated v (.var name)) : ∃ root, Exposes entries true v root :=
  ⟨_, h.evaluate (.free h.free_of_var)⟩

theorem trees_make_ne_implicit {form : Form Value} (f : Value → Tree)
    (h : ∀ p b, Value.term form ≠ .function .implicit p b) (parameter body : Tree) :
    Domain.trees.make (form.map f) ≠ Domain.trees.make (.function .implicit parameter body) := by
  intro heq
  rw [Domain.trees.make_eq_make] at heq
  cases form with
  | function plicity p b =>
    simp only [Form.map, Form.normal, Form.function.injEq] at heq
    exact h p b (by rw [heq.1])
  | _ => simp [Form.map, Form.normal] at heq

theorem strips_unfolded {evaluated : Bool} {root : Value} (h : Exposes entries true v root) :
    Domain.trees.Strips (unfolded entries evaluated v) (unfolded entries true v) := by
  generalize htrue : true = flag at h
  induction h generalizing evaluated with
  | form hform =>
    have hne := hform htrue.symm
    rw [unfolded_term fun _ => hne, unfolded_term fun _ => hne]
    exact .bare (trees_make_ne_implicit _ hne)
  | free hnone =>
    rw [unfolded_free hnone, unfolded_free hnone]
    refine .bare fun parameter body heq => ?_
    simpa [Tree.leaf, Domain.trees, Tree.make] using congrFun heq 1
  | layer _ ih =>
    rw [unfolded_layer]
    cases evaluated with
    | true =>
      rw [unfolded_layer]
      exact ih rfl
    | false =>
      rw [unfolded_term (by simp)]
      exact .layer (ih rfl)
  | entry hentry _ ih =>
    rw [unfolded_entry hentry, unfolded_entry hentry]
    exact ih (by simp [← htrue])

/-- Layers without end leave nothing. -/
theorem strips_of_not_exposes {t u : Tree} (hstrips : Domain.trees.Strips t u) {evaluated : Bool}
    (ht : t = unfolded entries evaluated v) (h : ¬ ∃ root, Exposes entries true v root) :
    u = Domain.trees.nothing := by
  induction hstrips generalizing v evaluated with
  | @bare t hbare =>
    subst ht
    apply unfolded_of_not_exposes
    rintro ⟨root, hroot⟩
    cases root with
    | var name => exact h hroot.exists_of_var
    | term form =>
      have hne : ∀ p b, Value.term form ≠ .function .implicit p b := by
        rintro p b hform
        obtain rfl := Value.term.inj hform
        exact hbare _ _ (unfolded_of_exposes hroot)
      exact h ⟨_, hroot.evaluate (.form fun _ => hne)⟩
  | @layer parameter body u hrest ih =>
    have hex : ∃ root, Exposes entries evaluated v root := by
      by_contra hnone
      rw [unfolded_of_not_exposes hnone] at ht
      exact Domain.trees.nothing_ne _ _ ht.symm
    obtain ⟨root, hroot⟩ := hex
    cases root with
    | var name => exact absurd hroot.exists_of_var h
    | term form =>
      by_cases hform : ∃ p b, Value.term form = .function .implicit p b
      · obtain ⟨p, b, hform⟩ := hform
        obtain rfl := Value.term.inj hform
        rw [unfolded_of_exposes hroot] at ht
        have hb : ¬ ∃ root, Exposes entries true b root := by
          rintro ⟨root, hb⟩
          exact h ⟨root, hroot.evaluate (.layer hb)⟩
        exact ih (Domain.make_implicit_inj ht) hb
      · have hne : ∀ p b, Value.term form ≠ .function .implicit p b :=
          fun p b heq => hform ⟨p, b, heq⟩
        exact absurd ⟨_, hroot.evaluate (.form fun _ => hne)⟩ h

theorem strip_unfolded (evaluated : Bool) (v : Value) :
    Domain.trees.strip (unfolded entries evaluated v) = unfolded entries true v := by
  by_cases hex : ∃ root, Exposes entries true v root
  · obtain ⟨root, hroot⟩ := hex
    exact Domain.strip_eq (strips_unfolded hroot)
  · rw [unfolded_of_not_exposes hex]
    by_cases hstrips : ∃ u, Domain.trees.Strips (unfolded entries evaluated v) u
    · obtain ⟨u, hu⟩ := hstrips
      rw [Domain.strip_eq hu]
      exact strips_of_not_exposes hu rfl hex
    · rw [Domain.strip, dif_neg hstrips]

theorem shown_eval_unfolding (evaluated : Bool) (v : Value) :
    Domain.trees.shown evaluated (Domain.trees.eval (unfolding entries) v) =
      unfolded entries evaluated v := by
  rw [eval_unfolding]
  cases evaluated with
  | false => rfl
  | true => exact strip_unfolded false v

/-- The unfoldings settle every table of entries. -/
theorem unfolding_settles (entries : Table Entry) :
    Settles Domain.trees (unfolding entries) entries := by
  intro name entry hentry
  rw [shown_eval_unfolding, unfolding, unfolded_entry hentry, Bool.false_or]

end Solution

def Value.Final (entries : Table Entry) (v : Value) : Prop :=
  ∀ name ∈ v.occurrences, entries.get? name = none

section Finite

variable {entries : Table Entry} {v w : Value}

theorem Value.Final.child {form : Form Value} (h : (Value.term form).Final entries)
    (hv : v ∈ form.children) : v.Final entries := by
  intro name hname
  exact h name (Value.mem_occurrences_term.mpr ⟨v, hv, hname⟩)

theorem unfolded_final {n : Nat} (h : v.Final entries) (hn : v.size ≤ n) :
    unfolded entries false v n = v.normal := by
  induction v using Value.induction generalizing n with
  | var name =>
    rw [unfolded_free (h name (by simp))]
    cases n with
    | zero => exact absurd (Value.size_pos (.var name)) (by omega)
    | succ n => rfl
  | term form ih =>
    cases n with
    | zero => exact absurd (Value.size_pos (.term form)) (by omega)
    | succ n =>
      have hchildren : ∀ u ∈ form.children, unfolded entries false u n = u.normal := by
        intro u hu
        have hsize := Value.size_lt_of_mem_children hu
        exact ih u hu (h.child hu) (by omega)
      rw [unfolded_term (by simp), Value.normal_term, ← Form.map_congr hchildren]
      show Value.term ((form.map (unfolded entries false)).map fun tree => tree n).normal = _
      rw [Form.map_map]
      rfl

/-- Finite values with one unfolding agree. -/
theorem normal_eq_of_unfolded (hv : v.Final entries) (hw : w.Final entries)
    (h : unfolded entries false v = unfolded entries false w) : v.normal = w.normal := by
  have hdepth := congrFun h (v.size + w.size)
  rwa [unfolded_final hv (by omega), unfolded_final hw (by omega)] at hdepth

theorem unfolded_stripImplicits (v : Value) :
    unfolded entries true v.stripImplicits = unfolded entries true v := by
  fun_induction Value.stripImplicits v with
  | case1 parameter body ih => rw [ih, unfolded_layer]
  | case2 v _ => rfl

theorem unfolded_stripImplicits_final (evaluated : Bool) (h : v.stripImplicits.Final entries) :
    unfolded entries evaluated v.stripImplicits = unfolded entries true v := by
  rw [← unfolded_stripImplicits]
  cases hstrip : v.stripImplicits with
  | var name =>
    have hnone := h name (by simp [hstrip])
    rw [unfolded_free hnone, unfolded_free hnone]
  | term form =>
    have hne : ∀ p b, Value.term form ≠ .function .implicit p b := by
      intro p b heq
      exact Value.stripImplicits_ne_implicit v p b (hstrip.trans heq)
    rw [unfolded_term fun _ => hne, unfolded_term fun _ => hne]

end Finite

section Expansion

variable {entries : Table Entry} {v w : Value} {evaluated : Bool}

def Value.shown (evaluated : Bool) (v : Value) : Value :=
  if evaluated then v.stripImplicits else v

theorem Value.Final.child_of_shown {form : Form Value}
    (h : ((Value.term form).shown evaluated).Final entries)
    (hne : evaluated = true → ∀ p b, Value.term form ≠ .function .implicit p b)
    (hv : v ∈ form.children) : v.Final entries := by
  have hshown : (Value.term form).shown evaluated = .term form := by
    cases evaluated with
    | false => rfl
    | true => simpa [Value.shown] using Value.stripImplicits_term_map id (hne rfl)
  rw [hshown] at h
  exact h.child hv

theorem unfolded_subst {s : String → Value}
    (hs : ∀ evaluated, ∀ name ∈ v.occurrences, ((s name).shown evaluated).Final entries →
      unfolded entries evaluated (s name) = unfolded entries evaluated (.var name))
    (h : ((v.subst s).shown evaluated).Final entries) :
    unfolded entries evaluated (v.subst s) = unfolded entries evaluated v := by
  induction v using Value.induction generalizing evaluated with
  | var name =>
    rw [Value.subst_var] at h ⊢
    exact hs evaluated name (by simp) h
  | term form ih =>
    have hchild : ∀ u ∈ form.children, ∀ evaluated, ((u.subst s).shown evaluated).Final entries →
        unfolded entries evaluated (u.subst s) = unfolded entries evaluated u := by
      intro u hu evaluated hfinal
      refine ih u hu (fun evaluated name hname => ?_) hfinal
      exact hs evaluated name (Value.mem_occurrences_term.mpr ⟨u, hu, hname⟩)
    rw [Value.subst_term] at h ⊢
    by_cases himplicit : evaluated = true ∧ ∃ p b, Value.term form = .function .implicit p b
    · obtain ⟨rfl, p, b, heq⟩ := himplicit
      obtain rfl := Value.term.inj heq
      have hbody : ((b.subst s).shown true).Final entries := by
        simpa [Value.shown, Form.map] using h
      rw [unfolded_layer, Form.map, unfolded_layer]
      exact hchild b (by simp [Form.children]) true hbody
    · have hne : evaluated = true → ∀ p b, Value.term form ≠ .function .implicit p b := by
        intro hevaluated p b heq
        exact himplicit ⟨hevaluated, p, b, heq⟩
      have hne' : evaluated = true →
          ∀ p b, Value.term (form.map (Value.subst s)) ≠ .function .implicit p b := by
        intro hevaluated p b heq
        have hstrip := Value.stripImplicits_term_map (Value.subst s) (hne hevaluated)
        exact Value.stripImplicits_ne_implicit _ p b (hstrip.trans heq)
      rw [unfolded_term hne, unfolded_term hne', Form.map_map]
      congr 1
      apply Form.map_congr
      intro u hu
      exact hchild u hu false (h.child_of_shown hne' (Form.mem_children_map hu))

/-- What simplification makes of a variable unfolds as the variable does, if it is finite. -/
theorem unfolded_expand {outer : List String} {name : String}
    (h : ((expand entries outer name).shown evaluated).Final entries) :
    unfolded entries evaluated (expand entries outer name) =
      unfolded entries evaluated (.var name) := by
  fun_induction expand entries outer name generalizing evaluated with
  | case1 outer name hnone => rfl
  | case2 outer name entry hentry hmem => rfl
  | case3 outer name entry hentry hmem ih =>
    have hsubst : ∀ evaluated,
        ((entry.value.subst (expand entries (name :: outer))).shown evaluated).Final entries →
        unfolded entries evaluated (entry.value.subst (expand entries (name :: outer))) =
          unfolded entries evaluated entry.value := by
      intro evaluated hfinal
      exact unfolded_subst (fun evaluated other _ hother => ih other hother) hfinal
    rw [unfolded_entry hentry]
    by_cases hrelation : entry.relation = .evaluatedFrom
    · rw [Entry.settle, if_pos hrelation] at h ⊢
      have hshown : (entry.value.subst (expand entries (name :: outer))).stripImplicits.Final
          entries := by
        cases evaluated with
        | false => exact h
        | true => simpa [Value.shown] using h
      rw [unfolded_stripImplicits_final evaluated hshown, hsubst true hshown]
      simp [hrelation]
    · rw [Entry.settle, if_neg hrelation] at h ⊢
      rw [hsubst evaluated h]
      simp [hrelation]

theorem unfolded_substitute
    (h : ((v.substitute (simplify entries).values).shown evaluated).Final entries) :
    unfolded entries evaluated (v.substitute (simplify entries).values) =
      unfolded entries evaluated v := by
  have hassign : v.substitute (simplify entries).values = v.subst (expand entries []) :=
    Value.subst_congr fun name _ => Simplification.assign_simplify entries name
  rw [hassign] at h ⊢
  exact unfolded_subst (fun _ _ _ hexpand => unfolded_expand hexpand) h

theorem unfolded_shown (h : (v.shown evaluated).Final entries) :
    unfolded entries false (v.shown evaluated) = unfolded entries evaluated v := by
  cases evaluated with
  | false => rfl
  | true => exact unfolded_stripImplicits_final false h

/-- Values with one unfolding agree once they are simplified, if they are finite. -/
theorem agrees_of_unfolded (h : unfolded entries evaluated v = unfolded entries evaluated w)
    (hv : ((v.substitute (simplify entries).values).shown evaluated).Final entries)
    (hw : ((w.substitute (simplify entries).values).shown evaluated).Final entries) :
    ((v.substitute (simplify entries).values).shown evaluated).agrees
      ((w.substitute (simplify entries).values).shown evaluated) := by
  rw [Value.agrees_iff]
  apply normal_eq_of_unfolded hv hw
  rw [unfolded_shown hv, unfolded_shown hw, unfolded_substitute hv, unfolded_substitute hw, h]

end Expansion

section Reduce

variable {options : Options} {constraints : List Constraint}

def Constraint.Unfolds (entries : Table Entry) (c : Constraint) : Prop :=
  (Reading.loosely Domain.trees (unfolding entries)).Says c

/-- What a reduction skipped holds of the entries that it ended with. -/
def KeepsSkipped (options : Options) (constraints : List Constraint) : Prop :=
  ∀ fact ∈ skippedFacts options constraints, fact.Unfolds (reduce options constraints).entries

def Entry.states (e : Entry) (c : Constraint) : Bool :=
  e.relation == c.relation && e.var == c.var && e.value.equal c.value

/-- A fact that an entry states holds of the unfoldings. -/
theorem Constraint.unfolds_of_states {entries : Table Entry} {c : Constraint}
    (h : (entries.get? c.var).any fun entry => entry.states c) : c.Unfolds entries := by
  cases hentry : entries.get? c.var with
  | none => simp [hentry] at h
  | some entry =>
    simp only [hentry, Option.any_some, Entry.states, Bool.and_eq_true, beq_iff_eq] at h
    obtain ⟨⟨hrelation, hvar⟩, hvalue⟩ := h
    rw [← hvar] at hentry
    have hkeeps := (unfolding_settles entries).keeps hentry
    rw [Reading.Keeps, hrelation, hvar] at hkeeps
    exact Reading.congr _ (Value.normal_eq_of_equal hvalue) hkeeps

theorem solution_unfolding (h : KeepsSkipped options constraints) :
    Solution Domain.trees (unfolding (reduce options constraints).entries) options constraints :=
  ⟨unfolding_settles _, h⟩

/-- What the constraints make one agrees after simplification, if nothing that has an entry is left in
it. -/
theorem Equates.agrees {evaluated : Bool} {v w : Value} (h : Equates constraints evaluated v w)
    (hdual : ∀ c ∈ constraints, c.value.dualFree)
    (hdiagnostics : (reduce options constraints).diagnostics = [])
    (hskipped : KeepsSkipped options constraints)
    (hv : ((v.substitute (simplify (reduce options constraints).entries).values).shown
      evaluated).Final (reduce options constraints).entries)
    (hw : ((w.substitute (simplify (reduce options constraints).entries).values).shown
      evaluated).Final (reduce options constraints).entries) :
    ((v.substitute (simplify (reduce options constraints).entries).values).shown evaluated).agrees
      ((w.substitute (simplify (reduce options constraints).entries).values).shown evaluated) := by
  refine agrees_of_unfolded ?_ hv hw
  rw [← shown_eval_unfolding, ← shown_eval_unfolding]
  exact h _ _ _ ((solution_unfolding hskipped).solves hdual hdiagnostics)

end Reduce

end ImplicitInference
