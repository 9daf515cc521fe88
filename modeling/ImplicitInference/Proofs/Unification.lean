import ImplicitInference.Proofs.Interpretation
import ImplicitInference.Proofs.Recursion

/-!
What unification says in a domain, for values without duals: nothing is reported and all assumptions
hold under a reading of the variables exactly if the two values are read as equal, and then what
they come to is read as they are. So the assumptions of a successful unification are as general as
possible. For finite values this is what unification says about substitutions.
-/

namespace ImplicitInference

namespace Unified

/-- Nothing was reported, and every assumption holds under a reading of the variables. -/
def Fulfils {M : Type} (d : Domain M) (s : String → M) (u : Unified) : Prop :=
  u.diagnostics = [] ∧ ∀ assumed ∈ u.assumptions, s assumed.1 = d.eval s assumed.2

section Fulfils

variable {M : Type} {d : Domain M} {s : String → M}

theorem fulfils_keep (v : Value) : (keep v).Fulfils d s :=
  ⟨rfl, fun _ h => absurd h List.not_mem_nil⟩

theorem fulfils_assume_iff {name : String} {v : Value} :
    (assume name v).Fulfils d s ↔ s name = d.eval s v := by
  simp [Fulfils, assume]

theorem fulfils_ofForm_iff {parts : Form Unified} {clash : Option Diagnostic} :
    (ofForm parts clash).Fulfils d s ↔ clash = none ∧ ∀ part ∈ parts.children, part.Fulfils d s := by
  simp only [Fulfils, ofForm, List.append_eq_nil_iff, List.flatMap_eq_nil_iff,
    Option.toList_eq_nil_iff, List.forall_mem_flatMap]
  constructor
  · rintro ⟨⟨hdiagnostics, hclash⟩, hassumptions⟩
    exact ⟨hclash, fun part hpart => ⟨hdiagnostics part hpart, hassumptions part hpart⟩⟩
  · rintro ⟨hclash, hparts⟩
    exact ⟨⟨fun part hpart => (hparts part hpart).1, hclash⟩, fun part hpart => (hparts part hpart).2⟩

end Fulfils

def Fulfilled (s : String → Value) (u : Unified) : Prop :=
  u.diagnostics = [] ∧ ∀ assumed ∈ u.assumptions, (s assumed.1).agrees (assumed.2.subst s)

theorem fulfilled_iff_fulfils {s : String → Value} {u : Unified} :
    u.Fulfilled s ↔ u.Fulfils .values fun name => (s name).normal := by
  simp only [Fulfilled, Fulfils, Value.agrees_iff, Domain.eval_values]

end Unified

namespace Value

section Exact

variable {M : Type} {d : Domain M} {s : String → M} {left right : Value}

theorem unify_fulfils_iff (hleft : left.dualFree) (hright : right.dualFree) :
    (left.unify right).Fulfils d s ↔ d.eval s left = d.eval s right := by
  revert hleft hright
  refine unify_induction (motive := fun left right u => left.dualFree → right.dualFree →
    (u.Fulfils d s ↔ d.eval s left = d.eval s right)) ?_ left right
  intro left right pairs u h ih hleft hright
  cases h with
  | same heq =>
    rw [d.eval_congr s (normal_eq_of_equal heq)]
    exact iff_of_true (Unified.fulfils_keep left) rfl
  | varLeft _ => rw [Unified.fulfils_assume_iff, d.eval_var]
  | varRight => rw [Unified.fulfils_assume_iff, d.eval_var, eq_comm]
  | dualLeft _ => cases ((dualFree_term _).mp hleft).1
  | dualRight _ _ => cases ((dualFree_term _).mp hright).1
  | @joined f g _ _ _ =>
    obtain ⟨-, hfs⟩ := (dualFree_term f).mp hleft
    obtain ⟨-, hgs⟩ := (dualFree_term g).mp hright
    rw [Unified.ofJoin, Unified.fulfils_ofForm_iff, d.eval_term, d.eval_term, d.make_eq_make,
      Form.normal_map_eq_iff_join, Option.map_eq_none_iff, Form.children_map, List.forall_mem_map]
    refine and_congr_right fun hjoin => forall₂_congr ?_
    rintro ⟨a, partner⟩ hmem
    obtain ⟨b, rfl⟩ := Form.exists_partner hjoin (a, partner) hmem
    obtain ⟨ha, hb⟩ := Form.mem_children_of_mem_join hmem
    have hpair : (a.unify b).Fulfils d s ↔ d.eval s a = d.eval s b :=
      ih (a, b) (Form.mem_partners.mpr hmem) (hfs a ha) (hgs b hb)
    simpa [Unified.ofPair] using hpair

/-- What two values come to is read, if the unification is fulfilled, as the left one. -/
theorem eval_unify (hleft : left.dualFree) (hright : right.dualFree)
    (h : (left.unify right).Fulfils d s) :
    d.eval s (left.unify right).value = d.eval s left := by
  revert hleft hright h
  refine unify_induction (motive := fun left right u => left.dualFree → right.dualFree →
    u.Fulfils d s → d.eval s u.value = d.eval s left) ?_ left right
  intro left right pairs u hunifies ih hleft hright h
  cases hunifies with
  | same _ => rfl
  | varLeft _ =>
    rw [d.eval_var]
    exact (Unified.fulfils_assume_iff.mp h).symm
  | varRight => rfl
  | dualLeft _ => cases ((dualFree_term _).mp hleft).1
  | dualRight _ _ => cases ((dualFree_term _).mp hright).1
  | @joined f g _ _ _ =>
    obtain ⟨-, hfs⟩ := (dualFree_term f).mp hleft
    obtain ⟨-, hgs⟩ := (dualFree_term g).mp hright
    have hparts := (Unified.fulfils_ofForm_iff.mp h).2
    rw [Form.children_map, List.forall_mem_map] at hparts
    have hpair : ∀ pair ∈ (f.join g).1.children,
        d.eval s (Unified.ofPair unify pair).value = d.eval s pair.1 := by
      rintro ⟨a, partner⟩ hmem
      cases partner with
      | none => rfl
      | some b =>
        obtain ⟨ha, hb⟩ := Form.mem_children_of_mem_join hmem
        exact ih (a, b) (Form.mem_partners.mpr hmem) (hfs a ha) (hgs b hb) (hparts _ hmem)
    calc d.eval s (term (((f.join g).1.map (Unified.ofPair unify)).map Unified.value))
        = d.eval s (term ((f.join g).1.map Prod.fst)) := by
          simp only [d.eval_term, Form.map_map]
          exact congrArg d.make (Form.map_congr hpair)
      _ = d.eval s (term f) := by rw [Form.map_fst_join]

end Exact

theorem unify_fulfilled_iff (s : String → Value) {left right : Value} (hleft : left.dualFree)
    (hright : right.dualFree) :
    (left.unify right).Fulfilled s ↔ (left.subst s).normal = (right.subst s).normal := by
  rw [Unified.fulfilled_iff_fulfils, unify_fulfils_iff hleft hright, Domain.eval_values,
    Domain.eval_values]

/-- What two values come to is, under a substitution that fulfils the unification, the left one. -/
theorem normal_subst_unify {s : String → Value} {left right : Value} (hleft : left.dualFree)
    (hright : right.dualFree) (h : (left.unify right).Fulfilled s) :
    ((left.unify right).value.subst s).normal = (left.subst s).normal := by
  rw [Unified.fulfilled_iff_fulfils] at h
  rw [← Domain.eval_values, ← Domain.eval_values]
  exact eval_unify hleft hright h

end Value

end ImplicitInference
