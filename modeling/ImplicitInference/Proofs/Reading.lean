import ImplicitInference.Proofs.Satisfaction

/-!
Readings of constraints. A reading says what a relation between a variable and a value means; merging
has to respect it, that is, what a merge learned and its result must give back both constraints.
Under a substitution this was proved in full strength. Read loosely, in any domain, a relation that
evaluates only says that both sides are the same without their implicit parameters. That is less,
but it is met by every table of entries, also by one that is recursive.
-/

namespace ImplicitInference

structure Reading where
  Holds : Relation → String → Value → Prop
  congr {r : Relation} {name : String} {v w : Value} (h : v.normal = w.normal) :
    Holds r name v → Holds r name w
  of_meet {c : Convergence} {existing incoming : Relation × Value} {name : String}
    (he : existing.2.dualFree) (hi : incoming.2.dualFree)
    (hsilent : (c.meet existing incoming).2.2.diagnostics = [])
    (hfacts : ∀ fact ∈ (c.meet existing incoming).2.2.facts,
      Holds fact.relation fact.var fact.value)
    (h : Holds (c.meet existing incoming).1 name (c.meet existing incoming).2.1) :
    Holds existing.1 name existing.2 ∧ Holds incoming.1 name incoming.2

namespace Reading

def under (s : String → Value) : Reading where
  Holds r name v := r.Holds s name v
  congr := by
    intro r name v w h hv
    apply Relation.Holds.congr hv
    rw [Value.normal_subst, Value.normal_subst, h]
  of_meet he hi hsilent hfacts h := Convergence.holds_of_meet he hi ⟨hsilent, hfacts⟩ h

def Says (R : Reading) (c : Constraint) : Prop := R.Holds c.relation c.var c.value

def Keeps (R : Reading) (e : Entry) : Prop := R.Holds e.relation e.var e.value

theorem says_of_sameFact (R : Reading) {c d : Constraint} (h : c.sameFact d) (hc : R.Says c) :
    R.Says d := by
  simp only [Constraint.sameFact, Bool.and_eq_true, beq_iff_eq] at h
  obtain ⟨⟨hrelation, hvar⟩, hvalue⟩ := h
  rw [Says, ← hrelation, ← hvar]
  exact R.congr (Value.normal_eq_of_equal hvalue) hc

end Reading

section Loose

variable {M : Type} {d : Domain M} {s : String → M} {c : Convergence} {left right pre post : Value}

/-- What a relation says of the sides without their implicit parameters, unless it is equality. -/
def Relation.Loosely (d : Domain M) (s : String → M) (name : String) (v : Value) : Relation → Prop
  | .equals => s name = d.eval s v
  | .evaluatesTo | .evaluatedFrom => d.strip (s name) = d.strip (d.eval s v)

theorem Relation.Loosely.strip_eq {r : Relation} {name : String} {v : Value}
    (h : r.Loosely d s name v) : d.strip (s name) = d.strip (d.eval s v) := by
  cases r with
  | equals => exact congrArg d.strip h
  | evaluatesTo => exact h
  | evaluatedFrom => exact h

theorem Relation.Loosely.congr {r : Relation} {name : String} {v w : Value}
    (h : r.Loosely d s name v) (hvw : d.eval s v = d.eval s w) : r.Loosely d s name w := by
  cases r with
  | equals => exact h.trans hvw
  | evaluatesTo => exact h.trans (congrArg d.strip hvw)
  | evaluatedFrom => exact h.trans (congrArg d.strip hvw)

namespace Convergence

def Loosely (d : Domain M) (s : String → M) (c : Convergence) : Prop :=
  c.diagnostics = [] ∧ ∀ fact ∈ c.facts, fact.relation.Loosely d s fact.var fact.value

theorem eval_of_converge (hleft : left.dualFree) (hright : right.dualFree)
    (h : (c.converge left right).2.Loosely d s) :
    d.eval s left = d.eval s right ∧ d.eval s (c.converge left right).1 = d.eval s left := by
  have hfulfils : (left.unify right).Fulfils d s := by
    obtain ⟨hsilent, hfacts⟩ := h
    refine ⟨(List.append_eq_nil_iff.mp hsilent).2, fun assumed hmem => ?_⟩
    exact hfacts (c.assumption assumed) (List.mem_append_right _ (List.mem_map_of_mem hmem))
  exact ⟨(Value.unify_fulfils_iff hleft hright).mp hfulfils,
    Value.eval_unify hleft hright hfulfils⟩

theorem eval_of_evaluate (kept : Kept) (hpre : pre.dualFree) (hpost : post.dualFree)
    (h : (c.evaluate pre post kept).2.Loosely d s) :
    d.strip (d.eval s pre) = d.strip (d.eval s post) ∧
      d.eval s (c.evaluate pre post kept).1 =
        d.eval s (match kept with | .unevaluated => pre | .evaluated => post) := by
  rw [← Domain.strip_eval s pre]
  cases hstrip : pre.stripImplicits with
  | var name =>
    have hdeferred : ∀ c' : Convergence, (c'.defer name post).Loosely d s →
        d.strip (s name) = d.strip (d.eval s post) := by
      intro c' hc'
      exact hc'.2 _ (List.mem_append_right _ List.mem_cons_self)
    rw [d.eval_var]
    cases kept with
    | unevaluated =>
      simp only [evaluate, hstrip] at h ⊢
      exact ⟨hdeferred c h, trivial⟩
    | evaluated =>
      simp only [evaluate, hstrip] at h ⊢
      exact ⟨hdeferred c h, trivial⟩
  | term form =>
    have hform := Value.dualFree_stripImplicits hpre
    rw [hstrip] at hform
    cases kept with
    | unevaluated =>
      simp only [evaluate, hstrip] at h ⊢
      obtain ⟨heq, hvalue⟩ := eval_of_converge hform hpost h
      refine ⟨congrArg d.strip heq, ?_⟩
      rw [d.eval_wrapImplicits s _ hvalue, ← hstrip, Value.wrapImplicits_stripImplicits]
    | evaluated =>
      simp only [evaluate, hstrip] at h ⊢
      obtain ⟨heq, hvalue⟩ := eval_of_converge hpost hform h
      exact ⟨congrArg d.strip heq.symm, hvalue⟩

theorem loosely_of_meet {existing incoming : Relation × Value} {name : String}
    (he : existing.2.dualFree) (hi : incoming.2.dualFree)
    (hc : (c.meet existing incoming).2.2.Loosely d s)
    (h : (c.meet existing incoming).1.Loosely d s name (c.meet existing incoming).2.1) :
    existing.1.Loosely d s name existing.2 ∧ incoming.1.Loosely d s name incoming.2 := by
  obtain ⟨r, v⟩ := existing
  obtain ⟨q, w⟩ := incoming
  cases r <;> cases q <;> simp only [meet] at he hi hc h ⊢
  case equals.equals | evaluatesTo.evaluatesTo | evaluatedFrom.evaluatedFrom =>
    obtain ⟨heq, hvalue⟩ := eval_of_converge he hi hc
    have hv := h.congr hvalue
    exact ⟨hv, hv.congr heq⟩
  case equals.evaluatesTo =>
    obtain ⟨heq, hvalue⟩ := eval_of_evaluate .unevaluated he hi hc
    have hv := h.congr hvalue
    exact ⟨hv, hv.strip_eq.trans heq⟩
  case evaluatesTo.equals =>
    obtain ⟨heq, hvalue⟩ := eval_of_evaluate .unevaluated hi he hc
    have hw := h.congr hvalue
    exact ⟨hw.strip_eq.trans heq, hw⟩
  case equals.evaluatedFrom =>
    obtain ⟨heq, hvalue⟩ := eval_of_evaluate .evaluated hi he hc
    have hv := h.congr hvalue
    exact ⟨hv, hv.strip_eq.trans heq.symm⟩
  case evaluatedFrom.equals =>
    obtain ⟨heq, hvalue⟩ := eval_of_evaluate .evaluated he hi hc
    have hw := h.congr hvalue
    exact ⟨hw.strip_eq.trans heq.symm, hw⟩
  case evaluatesTo.evaluatedFrom =>
    obtain ⟨heq, hvalue⟩ := eval_of_evaluate .unevaluated hi he hc
    have hw := h.congr hvalue
    exact ⟨hw.strip_eq.trans heq, hw⟩
  case evaluatedFrom.evaluatesTo =>
    obtain ⟨heq, hvalue⟩ := eval_of_evaluate .unevaluated he hi hc
    have hv := h.congr hvalue
    exact ⟨hv, hv.strip_eq.trans heq⟩

end Convergence

def Reading.loosely (d : Domain M) (s : String → M) : Reading where
  Holds r name v := r.Loosely d s name v
  congr h hv := hv.congr (d.eval_congr s h)
  of_meet he hi hsilent hfacts h := Convergence.loosely_of_meet he hi ⟨hsilent, hfacts⟩ h

end Loose

end ImplicitInference
