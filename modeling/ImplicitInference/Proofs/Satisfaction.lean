import ImplicitInference.Reduction
import ImplicitInference.Proofs.Signature
import ImplicitInference.Proofs.Unification

/-!
What a constraint says under a substitution, and that merging two constraints on a variable says
what both of them say. Each of the nine pairs of relations is merged by one unification at most, so
a merge is exact: its facts and its result together are equivalent to the two constraints. The one
exception is a pair of constraints that both evaluate to the variable: their values are unified
with their implicit parameters, which is more than the constraints ask for.
-/

namespace ImplicitInference

/-- What a relation between a variable and a value says under a substitution. -/
def Relation.Holds (s : String → Value) (name : String) (v : Value) : Relation → Prop
  | .equals => (s name).agrees (v.subst s)
  | .evaluatesTo => (s name).stripImplicits.agrees (v.subst s)
  | .evaluatedFrom => (s name).agrees (v.subst s).stripImplicits

instance (s : String → Value) (name : String) (v : Value) (r : Relation) :
    Decidable (r.Holds s name v) :=
  match r with
  | .equals => inferInstanceAs (Decidable (_ = true))
  | .evaluatesTo => inferInstanceAs (Decidable (_ = true))
  | .evaluatedFrom => inferInstanceAs (Decidable (_ = true))

def Constraint.Holds (s : String → Value) (c : Constraint) : Prop := c.relation.Holds s c.var c.value

instance (s : String → Value) (c : Constraint) : Decidable (c.Holds s) :=
  inferInstanceAs (Decidable (c.relation.Holds s c.var c.value))

def Entry.Holds (s : String → Value) (e : Entry) : Prop := e.relation.Holds s e.var e.value

instance (s : String → Value) (e : Entry) : Decidable (e.Holds s) :=
  inferInstanceAs (Decidable (e.relation.Holds s e.var e.value))

section Relation

variable {s : String → Value} {name : String} {v w : Value}

theorem holds_equals_iff :
    Relation.equals.Holds s name v ↔ (s name).normal = (v.subst s).normal :=
  Value.agrees_iff _ _

theorem holds_evaluatesTo_iff :
    Relation.evaluatesTo.Holds s name v ↔ (s name).normal.stripImplicits = (v.subst s).normal := by
  rw [← Value.normal_stripImplicits]
  exact Value.agrees_iff _ _

theorem holds_evaluatedFrom_iff :
    Relation.evaluatedFrom.Holds s name v ↔ (s name).normal = (v.subst s).normal.stripImplicits := by
  rw [← Value.normal_stripImplicits]
  exact Value.agrees_iff _ _

/-- A relation only sees the normal form of a value. -/
theorem Relation.Holds.congr {r : Relation} (h : r.Holds s name v)
    (hvw : (v.subst s).normal = (w.subst s).normal) : r.Holds s name w := by
  cases r with
  | equals => rw [holds_equals_iff] at h ⊢; exact h.trans hvw
  | evaluatesTo => rw [holds_evaluatesTo_iff] at h ⊢; exact h.trans hvw
  | evaluatedFrom => rw [holds_evaluatedFrom_iff] at h ⊢; exact h.trans (by rw [hvw])

end Relation

namespace Convergence

variable {s : String → Value} {c : Convergence}

def Holds (s : String → Value) (c : Convergence) : Prop :=
  c.diagnostics = [] ∧ ∀ fact ∈ c.facts, fact.Holds s

theorem holds_defer_iff {name : String} {v : Value} :
    (c.defer name v).Holds s ↔
      c.Holds s ∧ (s name).normal.stripImplicits = (v.subst s).normal := by
  rw [← holds_evaluatesTo_iff]
  simp only [Holds, defer, List.forall_mem_append, List.forall_mem_singleton, and_assoc]
  rfl

theorem holds_converge_iff {left right : Value} (hleft : left.dualFree) (hright : right.dualFree) :
    (c.converge left right).2.Holds s ↔
      c.Holds s ∧ (left.subst s).normal = (right.subst s).normal := by
  rw [← Value.unify_fulfilled_iff s hleft hright]
  simp only [Holds, converge, List.append_eq_nil_iff, List.forall_mem_append, List.forall_mem_map,
    Unified.Fulfilled]
  exact and_and_and_comm

theorem normal_subst_converge {left right : Value} (hleft : left.dualFree) (hright : right.dualFree)
    (h : (c.converge left right).2.Holds s) :
    ((c.converge left right).1.subst s).normal = (left.subst s).normal := by
  apply Value.normal_subst_unify hleft hright
  exact (Value.unify_fulfilled_iff s hleft hright).mpr ((holds_converge_iff hleft hright).mp h).2

section Evaluate

variable {pre post : Value}

theorem holds_evaluate_iff (kept : Kept) (hpre : pre.dualFree) (hpost : post.dualFree) :
    (c.evaluate pre post kept).2.Holds s ↔
      c.Holds s ∧ (pre.subst s).normal.stripImplicits = (post.subst s).normal := by
  rw [← Value.normal_stripImplicits]
  cases hstrip : pre.stripImplicits with
  | var name =>
    rw [Value.stripImplicits_subst, hstrip, Value.subst_var, Value.normal_stripImplicits]
    cases kept <;> simp only [evaluate, hstrip, holds_defer_iff]
  | term form =>
    have hform := Value.dualFree_stripImplicits hpre
    rw [hstrip] at hform
    rw [Value.stripImplicits_subst_term hstrip]
    cases kept with
    | unevaluated => simp only [evaluate, hstrip, holds_converge_iff hform hpost]
    | evaluated => simp only [evaluate, hstrip, holds_converge_iff hpost hform, eq_comm]

theorem normal_subst_evaluate_unevaluated (hpre : pre.dualFree) (hpost : post.dualFree)
    (h : (c.evaluate pre post .unevaluated).2.Holds s) :
    ((c.evaluate pre post .unevaluated).1.subst s).normal = (pre.subst s).normal := by
  cases hstrip : pre.stripImplicits with
  | var name => simp only [evaluate, hstrip]
  | term form =>
    have hform := Value.dualFree_stripImplicits hpre
    rw [hstrip] at hform
    simp only [evaluate, hstrip] at h ⊢
    calc (((c.converge (.term form) post).1.wrapImplicits pre.implicitParameters).subst s).normal
        = (((Value.term form).wrapImplicits pre.implicitParameters).subst s).normal :=
          Value.normal_subst_wrapImplicits _ (normal_subst_converge hform hpost h)
      _ = (pre.subst s).normal := by rw [← hstrip, Value.wrapImplicits_stripImplicits]

theorem normal_subst_evaluate_evaluated (hpre : pre.dualFree) (hpost : post.dualFree)
    (h : (c.evaluate pre post .evaluated).2.Holds s) :
    ((c.evaluate pre post .evaluated).1.subst s).normal = (post.subst s).normal := by
  cases hstrip : pre.stripImplicits with
  | var name => simp only [evaluate, hstrip]
  | term form =>
    have hform := Value.dualFree_stripImplicits hpre
    rw [hstrip] at hform
    simp only [evaluate, hstrip] at h ⊢
    exact normal_subst_converge hpost hform h

end Evaluate

section Meet

variable {name : String} {pre post left right : Value}

theorem equals_meets_evaluatesTo (hpre : pre.dualFree) (hpost : post.dualFree) :
    ((c.evaluate pre post .unevaluated).2.Holds s ∧
        Relation.equals.Holds s name (c.evaluate pre post .unevaluated).1) ↔
      c.Holds s ∧ Relation.equals.Holds s name pre ∧ Relation.evaluatesTo.Holds s name post := by
  simp only [holds_equals_iff, holds_evaluatesTo_iff]
  constructor
  · rintro ⟨h, hx⟩
    obtain ⟨hc, hstrip⟩ := (holds_evaluate_iff _ hpre hpost).mp h
    rw [normal_subst_evaluate_unevaluated hpre hpost h] at hx
    exact ⟨hc, hx, by rw [hx, hstrip]⟩
  · rintro ⟨hc, hx, hy⟩
    have h := (holds_evaluate_iff .unevaluated hpre hpost).mpr ⟨hc, hx ▸ hy⟩
    exact ⟨h, by rw [normal_subst_evaluate_unevaluated hpre hpost h, hx]⟩

theorem equals_meets_evaluatedFrom (hpre : pre.dualFree) (hpost : post.dualFree) :
    ((c.evaluate pre post .evaluated).2.Holds s ∧
        Relation.equals.Holds s name (c.evaluate pre post .evaluated).1) ↔
      c.Holds s ∧ Relation.equals.Holds s name post ∧ Relation.evaluatedFrom.Holds s name pre := by
  simp only [holds_equals_iff, holds_evaluatedFrom_iff]
  constructor
  · rintro ⟨h, hx⟩
    obtain ⟨hc, hstrip⟩ := (holds_evaluate_iff _ hpre hpost).mp h
    rw [normal_subst_evaluate_evaluated hpre hpost h] at hx
    exact ⟨hc, hx, by rw [hx, hstrip]⟩
  · rintro ⟨hc, hx, hy⟩
    have h := (holds_evaluate_iff .evaluated hpre hpost).mpr ⟨hc, hy.symm.trans hx⟩
    exact ⟨h, by rw [normal_subst_evaluate_evaluated hpre hpost h, hx]⟩

/-- A value without its implicit parameters has none left, so evaluating twice is evaluating
once. -/
theorem evaluatesTo_meets_evaluatedFrom (hpre : pre.dualFree) (hpost : post.dualFree) :
    ((c.evaluate pre post .unevaluated).2.Holds s ∧
        Relation.evaluatedFrom.Holds s name (c.evaluate pre post .unevaluated).1) ↔
      c.Holds s ∧ Relation.evaluatesTo.Holds s name post ∧
        Relation.evaluatedFrom.Holds s name pre := by
  simp only [holds_evaluatesTo_iff, holds_evaluatedFrom_iff]
  constructor
  · rintro ⟨h, hx⟩
    obtain ⟨hc, hstrip⟩ := (holds_evaluate_iff _ hpre hpost).mp h
    rw [normal_subst_evaluate_unevaluated hpre hpost h] at hx
    exact ⟨hc, by rw [hx, Value.stripImplicits_stripImplicits, hstrip], hx⟩
  · rintro ⟨hc, hx, hy⟩
    rw [hy, Value.stripImplicits_stripImplicits] at hx
    have h := (holds_evaluate_iff .unevaluated hpre hpost).mpr ⟨hc, hx⟩
    exact ⟨h, by rw [normal_subst_evaluate_unevaluated hpre hpost h, hy]⟩

/-- Values of one relation are unified as they are. -/
theorem relation_meets_itself {r : Relation} (hleft : left.dualFree) (hright : right.dualFree)
    (h : (c.converge left right).2.Holds s) (hr : r.Holds s name (c.converge left right).1) :
    r.Holds s name left ∧ r.Holds s name right := by
  obtain ⟨-, hagree⟩ := (holds_converge_iff hleft hright).mp h
  have hl := hr.congr (normal_subst_converge hleft hright h)
  exact ⟨hl, hl.congr hagree⟩

theorem holds_converge_of_both {r : Relation} (hr : r ≠ .evaluatedFrom) (hleft : left.dualFree)
    (hright : right.dualFree) (hc : c.Holds s) (hl : r.Holds s name left)
    (hrr : r.Holds s name right) :
    (c.converge left right).2.Holds s ∧ r.Holds s name (c.converge left right).1 := by
  have hagree : (left.subst s).normal = (right.subst s).normal := by
    cases r with
    | equals => exact (holds_equals_iff.mp hl).symm.trans (holds_equals_iff.mp hrr)
    | evaluatesTo => exact (holds_evaluatesTo_iff.mp hl).symm.trans (holds_evaluatesTo_iff.mp hrr)
    | evaluatedFrom => exact absurd rfl hr
  have h := (holds_converge_iff hleft hright).mpr ⟨hc, hagree⟩
  exact ⟨h, hl.congr (normal_subst_converge hleft hright h).symm⟩

variable {existing incoming : Relation × Value}

/-- Merging loses nothing: what was learned and the result give back both constraints. -/
theorem holds_of_meet (he : existing.2.dualFree) (hi : incoming.2.dualFree)
    (hc : (c.meet existing incoming).2.2.Holds s)
    (h : (c.meet existing incoming).1.Holds s name (c.meet existing incoming).2.1) :
    existing.1.Holds s name existing.2 ∧ incoming.1.Holds s name incoming.2 := by
  obtain ⟨r, v⟩ := existing
  obtain ⟨q, w⟩ := incoming
  cases r <;> cases q <;> simp only [meet] at he hi hc h ⊢
  case equals.equals | evaluatesTo.evaluatesTo | evaluatedFrom.evaluatedFrom =>
    exact relation_meets_itself he hi hc h
  case equals.evaluatesTo => exact ((equals_meets_evaluatesTo he hi).mp ⟨hc, h⟩).2
  case evaluatesTo.equals => exact ((equals_meets_evaluatesTo hi he).mp ⟨hc, h⟩).2.symm
  case equals.evaluatedFrom => exact ((equals_meets_evaluatedFrom hi he).mp ⟨hc, h⟩).2
  case evaluatedFrom.equals => exact ((equals_meets_evaluatedFrom he hi).mp ⟨hc, h⟩).2.symm
  case evaluatesTo.evaluatedFrom =>
    exact ((evaluatesTo_meets_evaluatedFrom hi he).mp ⟨hc, h⟩).2
  case evaluatedFrom.evaluatesTo =>
    exact ((evaluatesTo_meets_evaluatedFrom he hi).mp ⟨hc, h⟩).2.symm

/-- Merging asks for nothing new, unless both values evaluate to the variable. -/
theorem meet_holds (he : existing.2.dualFree) (hi : incoming.2.dualFree)
    (hne : existing.1 = .evaluatedFrom → incoming.1 ≠ .evaluatedFrom) (hc : c.Holds s)
    (hexisting : existing.1.Holds s name existing.2)
    (hincoming : incoming.1.Holds s name incoming.2) :
    (c.meet existing incoming).2.2.Holds s ∧
      (c.meet existing incoming).1.Holds s name (c.meet existing incoming).2.1 := by
  obtain ⟨r, v⟩ := existing
  obtain ⟨q, w⟩ := incoming
  cases r <;> cases q <;> simp only [meet] at he hi hexisting hincoming ⊢
  case equals.equals | evaluatesTo.evaluatesTo =>
    exact holds_converge_of_both (by decide) he hi hc hexisting hincoming
  case evaluatedFrom.evaluatedFrom => exact absurd rfl (hne rfl)
  case equals.evaluatesTo =>
    exact (equals_meets_evaluatesTo he hi).mpr ⟨hc, hexisting, hincoming⟩
  case evaluatesTo.equals =>
    exact (equals_meets_evaluatesTo hi he).mpr ⟨hc, hincoming, hexisting⟩
  case equals.evaluatedFrom =>
    exact (equals_meets_evaluatedFrom hi he).mpr ⟨hc, hexisting, hincoming⟩
  case evaluatedFrom.equals =>
    exact (equals_meets_evaluatedFrom he hi).mpr ⟨hc, hincoming, hexisting⟩
  case evaluatesTo.evaluatedFrom =>
    exact (evaluatesTo_meets_evaluatedFrom hi he).mpr ⟨hc, hexisting, hincoming⟩
  case evaluatedFrom.evaluatesTo =>
    exact (evaluatesTo_meets_evaluatedFrom he hi).mpr ⟨hc, hincoming, hexisting⟩

theorem evaluatedFrom_of_meet (h : (c.meet existing incoming).1 = .evaluatedFrom) :
    existing.1 = .evaluatedFrom ∨ incoming.1 = .evaluatedFrom := by
  obtain ⟨r, v⟩ := existing
  obtain ⟨q, w⟩ := incoming
  cases r <;> cases q <;> simp_all [meet]

end Meet

section Learned

def Within (sig : Signature) (c : Convergence) : Prop :=
  ∀ fact ∈ c.facts, (sig.names fact.var ∧ fact.value.Within sig) ∧ fact.relation ≠ .evaluatedFrom

variable {sig : Signature} {left right pre post : Value}

theorem Within.converge (hc : c.Within sig) (hleft : left.Within sig) (hright : right.Within sig) :
    (c.converge left right).1.Within sig ∧ (c.converge left right).2.Within sig := by
  obtain ⟨hvalue, hassumed⟩ := Value.within_unify hleft hright
  refine ⟨hvalue, fun fact hmem => ?_⟩
  rcases List.mem_append.mp hmem with hold | hnew
  · exact hc fact hold
  · obtain ⟨assumed, hmade, rfl⟩ := List.mem_map.mp hnew
    exact ⟨hassumed assumed hmade, by simp [assumption]⟩

theorem Within.defer {name : String} (hc : c.Within sig) (hname : sig.names name)
    (hpost : post.Within sig) : (c.defer name post).Within sig := by
  intro fact hmem
  rcases List.mem_append.mp hmem with hold | hnew
  · exact hc fact hold
  · rw [List.mem_singleton.mp hnew]
    exact ⟨⟨hname, hpost⟩, by simp⟩

theorem Within.evaluate (kept : Kept) (hc : c.Within sig) (hpre : pre.Within sig)
    (hpost : post.Within sig) :
    (c.evaluate pre post kept).1.Within sig ∧ (c.evaluate pre post kept).2.Within sig := by
  have hstripped := hpre.stripImplicits
  cases hstrip : pre.stripImplicits with
  | var name =>
    rw [hstrip, Value.within_var] at hstripped
    have hdeferred := hc.defer hstripped hpost
    cases kept with
    | unevaluated => simpa only [Convergence.evaluate, hstrip] using ⟨hpre, hdeferred⟩
    | evaluated => simpa only [Convergence.evaluate, hstrip] using ⟨hpost, hdeferred⟩
  | term form =>
    rw [hstrip] at hstripped
    cases kept with
    | unevaluated =>
      obtain ⟨hvalue, hlearned⟩ := hc.converge hstripped hpost
      simp only [Convergence.evaluate, hstrip]
      exact ⟨hpre.wrapImplicits hvalue, hlearned⟩
    | evaluated => simpa only [Convergence.evaluate, hstrip] using hc.converge hpost hstripped

theorem evaluate_learns (c : Convergence) (pre post : Value) (kept : Kept) :
    (∃ name v, (c.evaluate pre post kept).2 = c.defer name v) ∨
      ∃ left right, (c.evaluate pre post kept).2 = (c.converge left right).2 := by
  cases hstrip : pre.stripImplicits with
  | var name => cases kept <;> exact .inl ⟨name, post, by simp only [evaluate, hstrip]⟩
  | term form =>
    cases kept with
    | unevaluated => exact .inr ⟨.term form, post, by simp only [evaluate, hstrip]⟩
    | evaluated => exact .inr ⟨post, .term form, by simp only [evaluate, hstrip]⟩

/-- A merge passes one requirement on or unifies two values, and learns nothing else. -/
theorem meet_learns (c : Convergence) (existing incoming : Relation × Value) :
    (∃ name v, (c.meet existing incoming).2.2 = c.defer name v) ∨
      ∃ left right, (c.meet existing incoming).2.2 = (c.converge left right).2 := by
  obtain ⟨r, v⟩ := existing
  obtain ⟨q, u⟩ := incoming
  cases r <;> cases q <;> simp only [meet]
  case equals.equals | evaluatesTo.evaluatesTo | evaluatedFrom.evaluatedFrom =>
    exact .inr ⟨v, u, rfl⟩
  all_goals exact evaluate_learns c _ _ _

/-- A merge stays within the signature of what it merges. -/
theorem Within.meet {existing incoming : Relation × Value} (hc : c.Within sig)
    (he : existing.2.Within sig) (hi : incoming.2.Within sig) :
    (c.meet existing incoming).2.1.Within sig ∧ (c.meet existing incoming).2.2.Within sig := by
  obtain ⟨r, v⟩ := existing
  obtain ⟨q, u⟩ := incoming
  cases r <;> cases q <;> simp only [Convergence.meet]
  case equals.equals | evaluatesTo.evaluatesTo | evaluatedFrom.evaluatedFrom =>
    exact hc.converge he hi
  case equals.evaluatesTo | evaluatedFrom.equals | evaluatedFrom.evaluatesTo =>
    exact hc.evaluate _ he hi
  case evaluatesTo.equals | equals.evaluatedFrom | evaluatesTo.evaluatedFrom =>
    exact hc.evaluate _ hi he

end Learned

end Convergence

section MostGeneral

/-- Values that a substitution makes agree converge without a report, and it solves every equation that
is recorded: no more is assumed than what makes them agree. What they come to agrees with the left
one. -/
theorem agreeing_values_converge (origin : String) (left right : Value) (s : String → Value)
    (hleft : left.dualFree) (hright : right.dualFree)
    (hagree : (left.subst s).agrees (right.subst s)) :
    (Convergence.converge { origin } left right).2.diagnostics = [] ∧
      (∀ fact ∈ (Convergence.converge { origin } left right).2.facts,
        fact.relation = .equals ∧ (s fact.var).agrees (fact.value.subst s)) ∧
      ((Convergence.converge { origin } left right).1.subst s).agrees (left.subst s) := by
  have hstart : Convergence.Holds s { origin } := ⟨rfl, List.forall_mem_nil _⟩
  have hholds : (Convergence.converge { origin } left right).2.Holds s :=
    (Convergence.holds_converge_iff hleft hright).mpr ⟨hstart, (Value.agrees_iff _ _).mp hagree⟩
  refine ⟨hholds.1, ?_, ?_⟩
  · intro fact hfact
    have hfactHolds := hholds.2 fact hfact
    obtain ⟨assumed, -, rfl⟩ := List.mem_map.mp hfact
    exact ⟨rfl, hfactHolds⟩
  · rw [Value.agrees_iff]
    exact Convergence.normal_subst_converge hleft hright hholds

def openCouple : Value :=
  .record [("a", .var "x"), ("b", .data (.symbol "couple") [.var "x", .var "y"]),
    ("c", .number (.nan false))]

def zeroCouple : Value :=
  .record [("a", .number (.zero true)),
    ("b", .data (.var "n") [.number (.zero false), .function .implicit (.var "z") (.var "z")]),
    ("c", .number (.nan false))]

def coupleTypes : String → Value
  | "x" => .number (.zero false)
  | "y" => .function .implicit (.string "s") (.string "s")
  | "z" => .string "s"
  | name => if name = "n" then .symbol "couple" else .var name

theorem openCouple_converges :
    (openCouple.subst coupleTypes).agrees (zeroCouple.subst coupleTypes) ∧
      (Convergence.converge { origin := "o" } openCouple zeroCouple).2.diagnostics = [] ∧
      (∀ fact ∈ (Convergence.converge { origin := "o" } openCouple zeroCouple).2.facts,
        fact.relation = .equals ∧ (coupleTypes fact.var).agrees (fact.value.subst coupleTypes)) ∧
      ((Convergence.converge { origin := "o" } openCouple zeroCouple).1.subst coupleTypes).agrees
        (openCouple.subst coupleTypes) ∧
      (Convergence.converge { origin := "o" } openCouple zeroCouple).2.facts.length = 4 := by
  have hagree : (openCouple.subst coupleTypes).agrees (zeroCouple.subst coupleTypes) := by decide
  obtain ⟨hsilent, hfacts, hvalue⟩ :=
    agreeing_values_converge "o" openCouple zeroCouple coupleTypes (by decide) (by decide) hagree
  exact ⟨hagree, hsilent, hfacts, hvalue, by decide⟩

end MostGeneral

end ImplicitInference
