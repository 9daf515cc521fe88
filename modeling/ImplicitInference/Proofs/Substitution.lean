import ImplicitInference.Proofs.Agreement
import ImplicitInference.Proofs.Table
import Mathlib.Data.List.Basic

/-!
Variables and what substitution does to them. A substitution acts on a value at the occurrences of its
variables and nowhere else, so what it makes of the value says what it is at these variables, and the
variables of the outcome are those of what takes their places. Substituting from a table is the rewriting
of the variables that the table knows.
-/

namespace ImplicitInference

theorem nodup_eraseDups (names : List String) : names.eraseDups.Nodup := by
  match names with
  | [] => exact List.nodup_nil
  | first :: rest =>
    rw [List.eraseDups_cons, List.nodup_cons, List.mem_eraseDups]
    exact ⟨by simp, nodup_eraseDups _⟩
termination_by names.length
decreasing_by exact Nat.lt_succ_of_le (List.length_filter_le _ _)

/-- A table as a substitution: variables that it does not know stay. -/
def Table.assign (values : Table Value) (name : String) : Value := (values.get? name).getD (.var name)

namespace Value

variable {s t : String → Value} {v : Value} {name : String}

theorem mem_occurrences_term {form : Form Value} :
    name ∈ (term form).occurrences ↔ ∃ v ∈ form.children, name ∈ v.occurrences := by
  simp [occurrences]

theorem mem_freeVariables : name ∈ v.freeVariables ↔ name ∈ v.occurrences := List.mem_eraseDups

theorem nodup_freeVariables (v : Value) : v.freeVariables.Nodup := nodup_eraseDups v.occurrences

section Substitute

/-- Two substitutions make the same of a value exactly if they are the same at its variables. -/
theorem subst_eq_subst_iff : v.subst s = v.subst t ↔ ∀ name ∈ v.occurrences, s name = t name := by
  induction v using Value.induction with
  | var name => simp
  | term form ih =>
    rw [subst_term, subst_term, term.injEq, Form.map_eq_map_iff]
    constructor
    · intro h name hname
      obtain ⟨v, hv, hmem⟩ := mem_occurrences_term.mp hname
      exact (ih v hv).mp (h v hv) name hmem
    · intro h v hv
      exact (ih v hv).mpr fun name hname => h name (mem_occurrences_term.mpr ⟨v, hv, hname⟩)

theorem subst_congr (h : ∀ name ∈ v.occurrences, s name = t name) : v.subst s = v.subst t :=
  subst_eq_subst_iff.mpr h

theorem subst_subst (s t : String → Value) (v : Value) :
    (v.subst s).subst t = v.subst fun name => (s name).subst t := by
  induction v using Value.induction with
  | var name => simp
  | term form ih =>
    rw [subst_term, subst_term, subst_term, Form.map_map]
    exact congrArg term (Form.map_congr ih)

@[simp] theorem subst_vars (v : Value) : v.subst var = v := by
  induction v using Value.induction with
  | var name => simp
  | term form ih =>
    rw [subst_term, Form.map_congr ih]
    exact congrArg term form.map_id

theorem subst_eq_self (h : ∀ name ∈ v.occurrences, s name = var name) : v.subst s = v :=
  (subst_congr h).trans v.subst_vars

theorem occurrences_subst (s : String → Value) (v : Value) :
    (v.subst s).occurrences = v.occurrences.flatMap fun name => (s name).occurrences := by
  induction v using Value.induction with
  | var name => simp
  | term form ih =>
    rw [subst_term, occurrences_term, occurrences_term, Form.children_map, List.flatMap_map,
      List.flatMap_assoc]
    exact List.flatMap_congr ih

theorem mem_occurrences_subst :
    name ∈ (v.subst s).occurrences ↔ ∃ other ∈ v.occurrences, name ∈ (s other).occurrences := by
  rw [occurrences_subst, List.mem_flatMap]

end Substitute

section Tables

variable {values other : Table Value}

theorem substitute_eq_subst (v : Value) (values : Table Value) :
    v.substitute values = v.subst values.assign := rfl

/-- Substituting from a table is rewriting the variables that the table knows. -/
theorem substitute_eq_rewrite (v : Value) (values : Table Value) :
    v.substitute values = v.rewrite fun part => part.asVar?.bind values.get? := by
  induction v using Value.induction with
  | var name => simp [substitute, rewrite, asVar?]
  | term form ih =>
    rw [substitute_eq_subst, subst_term, rewrite, para_term]
    simp only [asVar?, Option.bind_none, Option.getD_none, Form.map_map]
    exact congrArg term (Form.map_congr ih)

theorem substitute_empty (v : Value) : v.substitute {} = v := v.subst_vars

/-- Of two tables only the answers for the variables of a value matter to it. -/
theorem substitute_congr (h : ∀ name ∈ v.freeVariables, values.get? name = other.get? name) :
    v.substitute values = v.substitute other := by
  refine subst_congr fun name hname => ?_
  rw [h name (mem_freeVariables.mpr hname)]

/-- The variables of a value are the names for which a table can change it. -/
theorem mem_freeVariables_iff_changes :
    name ∈ v.freeVariables ↔ ∃ values : Table Value, values.keys = [name] ∧ v.substitute values ≠ v := by
  constructor
  · intro hname
    refine ⟨⟨[(name, symbol "")]⟩, rfl, fun hsame => ?_⟩
    have hkept := hsame.trans v.substitute_empty.symm
    have hat := subst_eq_subst_iff.mp hkept name (mem_freeVariables.mp hname)
    simp [Table.get?] at hat
  · rintro ⟨values, hkeys, hchanged⟩
    by_contra hname
    refine hchanged ((substitute_congr fun other hother => ?_).trans v.substitute_empty)
    rw [Table.get?_eq_none]
    · rfl
    · rw [hkeys, List.mem_singleton]
      rintro rfl
      exact hname hother

theorem mem_freeVariables_substitute :
    name ∈ (v.substitute values).freeVariables ↔
      (name ∈ v.freeVariables ∧ values.get? name = none) ∨
        ∃ known ∈ v.freeVariables, ∃ w, values.get? known = some w ∧ name ∈ w.freeVariables := by
  rw [mem_freeVariables, substitute_eq_subst, mem_occurrences_subst]
  constructor
  · rintro ⟨known, hknown, hname⟩
    rw [Table.assign] at hname
    cases hget : values.get? known with
    | none =>
      rw [hget, Option.getD_none, occurrences_var, List.mem_singleton] at hname
      exact .inl ⟨mem_freeVariables.mpr (hname ▸ hknown), hname ▸ hget⟩
    | some w =>
      rw [hget, Option.getD_some] at hname
      exact .inr ⟨known, mem_freeVariables.mpr hknown, w, hget, mem_freeVariables.mpr hname⟩
  · rintro (⟨hname, hget⟩ | ⟨known, hknown, w, hget, hname⟩)
    · refine ⟨name, mem_freeVariables.mp hname, ?_⟩
      rw [Table.assign, hget, Option.getD_none, occurrences_var]
      exact List.mem_singleton.mpr rfl
    · refine ⟨known, mem_freeVariables.mp hknown, ?_⟩
      rw [Table.assign, hget]
      exact mem_freeVariables.mp hname

end Tables

end Value

/-- The free variables of a value, which come without repetition, are where substitution acts. Tables that
answer alike for them make the same of the value, and a table for one name alone can change the value
exactly if that name is one of them. Afterwards the free variables are those that the table did not know
and those of the values that it had for the others. Substitution itself is the rewriting, from the top
down, of the variables that the table knows. -/
theorem substitution_acts_at_free_variables (v : Value) :
    v.freeVariables.Nodup ∧
      (∀ values other : Table Value,
        (∀ name ∈ v.freeVariables, values.get? name = other.get? name) →
          v.substitute values = v.substitute other) ∧
      (∀ name, name ∈ v.freeVariables ↔
        ∃ values : Table Value, values.keys = [name] ∧ v.substitute values ≠ v) ∧
      (∀ (values : Table Value) (name : String), name ∈ (v.substitute values).freeVariables ↔
        (name ∈ v.freeVariables ∧ values.get? name = none) ∨
          ∃ known ∈ v.freeVariables, ∃ w, values.get? known = some w ∧ name ∈ w.freeVariables) ∧
      ∀ values : Table Value,
        v.substitute values = v.rewrite fun part => part.asVar?.bind values.get? :=
  ⟨v.nodup_freeVariables, fun _ _ => Value.substitute_congr,
    fun _ => Value.mem_freeVariables_iff_changes, fun _ _ => Value.mem_freeVariables_substitute,
    v.substitute_eq_rewrite⟩

def variousForms : Value :=
  .record [("a", .function .implicit (.var "x") (.data (.var "n") [.var "y", .var "x"])),
    ("b", .term (.choice (.var "z") [(.var "y", .term (.read (.var "r") (.position 0)))])),
    ("c", .dual (.term (.application (.var "f") (.var "x"))) (.var "d"))]

def openAnswers : Table Value :=
  ⟨[("x", .function .explicit (.var "u") (.var "y")), ("w", .symbol "W")]⟩

theorem variousForms_substitution :
    variousForms.freeVariables = ["x", "n", "y", "z", "r", "f", "d"] ∧
      variousForms.substitute openAnswers = variousForms.substitute (openAnswers.erase "w") ∧
      (∃ values : Table Value, values.keys = ["r"] ∧
        variousForms.substitute values ≠ variousForms) ∧
      "u" ∈ (variousForms.substitute openAnswers).freeVariables ∧
      "x" ∉ (variousForms.substitute openAnswers).freeVariables := by
  obtain ⟨-, hcongr, hchanges, hvariables, -⟩ := substitution_acts_at_free_variables variousForms
  have hfree : variousForms.freeVariables = ["x", "n", "y", "z", "r", "f", "d"] := by decide +kernel
  refine ⟨hfree, hcongr _ _ ?_, (hchanges "r").mp ?_, (hvariables _ "u").mpr ?_, ?_⟩
  · simp [hfree, openAnswers, Table.erase, Table.get?]
  · rw [hfree]
    decide
  · refine .inr ⟨"x", ?_, _, rfl, ?_⟩
    · rw [hfree]
      decide
    · decide +kernel
  · decide +kernel

end ImplicitInference
