import ImplicitInference.Proofs.Expansion
import ImplicitInference.Proofs.Reduction

/-!
When two types are the same. A reading of the variables in some domain solves a reduction if it takes
every variable for what simplification makes of its entry, and if the skipped facts hold. It then
solves all constraints. Two types are the same if every solution reads them as one, whatever names
are left in them: a recursive type may be cut at any of its variables, and variables that only stand
for each other are the same without standing for anything else.
-/

namespace ImplicitInference

section Settling

variable {M : Type} {d : Domain M} {s : String → M} {entries : Table Entry} {name : String}
  {entry : Entry}

/-- Every variable is the value of its entry, which is evaluated if the entry says so. -/
def Settles (d : Domain M) (s : String → M) (entries : Table Entry) : Prop :=
  ∀ name entry, entries.get? name = some entry →
    s name = d.shown (entry.relation = .evaluatedFrom) (d.eval s entry.value)

theorem Settles.eq_eval (h : Settles d s entries) (hentry : entries.get? name = some entry)
    (hrelation : entry.relation ≠ .evaluatedFrom) : s name = d.eval s entry.value := by
  rw [h name entry hentry, Domain.shown, decide_eq_false hrelation]
  rfl

theorem Settles.eq_strip (h : Settles d s entries) (hentry : entries.get? name = some entry)
    (hrelation : entry.relation = .evaluatedFrom) :
    s name = d.strip (d.eval s entry.value) := by
  rw [h name entry hentry, Domain.shown, decide_eq_true hrelation]
  rfl

theorem Settles.keeps (h : Settles d s entries) (hentry : entries.get? entry.var = some entry) :
    (Reading.loosely d s).Keeps entry := by
  show entry.relation.Loosely d s entry.var entry.value
  cases hrelation : entry.relation with
  | equals => exact h.eq_eval hentry (by simp [hrelation])
  | evaluatesTo => exact congrArg d.strip (h.eq_eval hentry (by simp [hrelation]))
  | evaluatedFrom =>
    show d.strip (s entry.var) = _
    rw [h.eq_strip hentry hrelation, Domain.strip_strip]

/-- Expansion does not change what is read, unless something is left to be evaluated. -/
theorem Settles.eval_expand (h : Settles d s entries)
    (hnever : ∀ entry ∈ entries.values, entry.relation ≠ .evaluatedFrom) (outer : List String)
    (name : String) : d.eval s (expand entries outer name) = s name := by
  fun_induction expand entries outer name with
  | case1 outer name hnone => rw [d.eval_var]
  | case2 outer name entry hentry hmem => rw [d.eval_var]
  | case3 outer name entry hentry hmem ih =>
    have hrelation := hnever entry (Table.mem_values_of_get? hentry)
    rw [Entry.settle, if_neg hrelation, d.eval_subst, funext ih, h.eq_eval hentry hrelation]

theorem Settles.eval_substitute (h : Settles d s entries)
    (hnever : ∀ entry ∈ entries.values, entry.relation ≠ .evaluatedFrom) (v : Value) :
    d.eval s (v.substitute (simplify entries).values) = d.eval s v := by
  have hassign : v.substitute (simplify entries).values = v.subst (expand entries []) :=
    Value.subst_congr fun name _ => Simplification.assign_simplify entries name
  rw [hassign, d.eval_subst, funext (h.eval_expand hnever [])]

end Settling

section Reduce

variable {M : Type} {d : Domain M} {s : String → M} {options : Options}
  {constraints : List Constraint}

structure Solution (d : Domain M) (s : String → M) (options : Options)
    (constraints : List Constraint) : Prop where
  settles : Settles d s (reduce options constraints).entries
  skipped : ∀ fact ∈ skippedFacts options constraints, (Reading.loosely d s).Says fact

theorem Solution.solves (h : Solution d s options constraints)
    (hdual : ∀ c ∈ constraints, c.value.dualFree)
    (hdiagnostics : (reduce options constraints).diagnostics = []) :
    ∀ c ∈ constraints, (Reading.loosely d s).Says c := by
  have hentries := wellFormed_reduce options hdual
  apply says_of_reduce hdual hdiagnostics h.skipped
  intro name entry hentry
  obtain ⟨rfl, -⟩ := hentries name entry hentry
  exact h.settles.keeps hentry

def Equates (constraints : List Constraint) (evaluated : Bool) (v w : Value) : Prop :=
  ∀ (M : Type) (d : Domain M) (s : String → M),
    (∀ c ∈ constraints, (Reading.loosely d s).Says c) →
      d.shown evaluated (d.eval s v) = d.shown evaluated (d.eval s w)

/-- Every solution of a reduction reads both values as one. -/
def SameType (options : Options) (constraints : List Constraint) (evaluated : Bool)
    (v w : Value) : Prop :=
  ∀ (M : Type) (d : Domain M) (s : String → M), Solution d s options constraints →
    d.shown evaluated (d.eval s v) = d.shown evaluated (d.eval s w)

def twoPairs : List Constraint :=
  [.learned .equals "x" (.var "y"), .learned .equals "y" (.var "x"),
    .learned .equals "u" (.var "w"), .learned .equals "w" (.var "u")]

example : SameType {} twoPairs false (.var "x") (.var "y") ∧
    ¬ SameType {} twoPairs false (.var "x") (.var "u") := by
  constructor
  · intro M d s hs
    exact hs.settles "x" _ rfl
  · intro h
    let s : String → Value := fun name => .ofBool (name == "x" || name == "y")
    have hrows : (reduce {} twoPairs).entries.toList =
        twoPairs.map fun c => (c.var, Entry.ofConstraint c) := rfl
    have hs : Solution Domain.values s {} twoPairs := by
      refine ⟨fun name entry hentry => ?_, List.forall_mem_nil _⟩
      have hrow := Table.mem_toList_of_get? hentry
      rw [hrows] at hrow
      simp only [twoPairs, List.map, List.mem_cons, Prod.mk.injEq, List.not_mem_nil, or_false]
        at hrow
      rcases hrow with ⟨rfl, rfl⟩ | ⟨rfl, rfl⟩ | ⟨rfl, rfl⟩ | ⟨rfl, rfl⟩ <;> rfl
    have hsame := h _ _ s hs
    simp [Domain.shown, s, Value.ofBool] at hsame

variable {evaluated : Bool} {u v w : Value}

theorem Equates.symm (h : Equates constraints evaluated v w) : Equates constraints evaluated w v :=
  fun M d s hs => (h M d s hs).symm

theorem Equates.trans (h : Equates constraints evaluated u v)
    (h' : Equates constraints evaluated v w) : Equates constraints evaluated u w :=
  fun M d s hs => (h M d s hs).trans (h' M d s hs)

theorem Equates.sameType (h : Equates constraints evaluated v w)
    (hdual : ∀ c ∈ constraints, c.value.dualFree)
    (hdiagnostics : (reduce options constraints).diagnostics = [])
    (hnever : ∀ entry ∈ (reduce options constraints).entries.values,
      entry.relation ≠ .evaluatedFrom) :
    SameType options constraints evaluated
      (v.substitute (simplify (reduce options constraints).entries).values)
      (w.substitute (simplify (reduce options constraints).entries).values) := by
  intro M d s hs
  rw [hs.settles.eval_substitute hnever, hs.settles.eval_substitute hnever]
  exact h M d s (hs.solves hdual hdiagnostics)

theorem SameType.strip (h : SameType options constraints true v w) :
    SameType options constraints true v.stripImplicits w.stripImplicits := by
  intro M d s hs
  show d.strip _ = d.strip _
  rw [Domain.strip_eval, Domain.strip_eval]
  exact h M d s hs

end Reduce

end ImplicitInference
