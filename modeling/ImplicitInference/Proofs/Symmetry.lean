import ImplicitInference.Proofs.Recursion
import ImplicitInference.Proofs.Renaming
import Mathlib.Data.List.Forall2

/-!
What changes when two constraints meet in the other order. Unification asks the left side first and
keeps it where the sides do not go together, but it takes the same pairs apart in the same order: for
values without duals the reports are the same with left and right exchanged, and so are the
assumptions, except that of two variables the left one is assumed to be the right one. Where the
relations of the constraints differ, the relations and not the order decide what is evaluated, and the
order makes no difference at all.
-/

namespace ImplicitInference

section Comparison

variable {α β : Type}

theorem Form.allPairs_comm {p : α → β → Bool} {q : β → α → Bool} {as : List α} {bs : List β}
    (h : ∀ a ∈ as, ∀ b, p a b = q b a) : allPairs p as bs = allPairs q bs as := by
  induction as generalizing bs with
  | nil => cases bs <;> rfl
  | cons a as ih =>
    obtain ⟨ha, has⟩ := List.forall_mem_cons.mp h
    cases bs with
    | nil => rfl
    | cons b bs => rw [allPairs, allPairs, ha b, ih has]

/-- Layers are compared in either direction if literals and children are. -/
theorem Form.compare_comm {literals : Literal → Literal → Bool} {p : α → α → Bool} {x y : Form α}
    (hliterals : ∀ a b, literals a b = literals b a) (h : ∀ a ∈ x.children, ∀ b, p a b = p b a) :
    x.compare literals p y = y.compare literals p x := by
  cases x with
  | literal a =>
    cases y with
    | literal b => exact hliterals a b
    | _ => rfl
  | record fs =>
    cases y with
    | record gs =>
      refine allPairs_comm fun f hf g => ?_
      rw [h f.2 (List.mem_map_of_mem hf), Bool.beq_comm]
    | _ => rfl
  | function i a b =>
    cases y with
    | function j c d =>
      simp only [compare, h a (by simp [children]), h b (by simp [children]),
        Bool.beq_comm (a := i)]
    | _ => rfl
  | application a b =>
    cases y with
    | application c d =>
      simp only [compare, h a (by simp [children]), h b (by simp [children])]
    | _ => rfl
  | data a as =>
    cases y with
    | data b bs =>
      rw [compare, compare, h a (by simp [children]),
        allPairs_comm fun c hc => h c (List.mem_cons_of_mem _ hc)]
    | _ => rfl
  | dual a b =>
    cases y with
    | dual c d =>
      simp only [compare, h a (by simp [children]), h b (by simp [children])]
    | _ => rfl
  | read a i =>
    cases y with
    | read b j =>
      simp only [compare, h a (by simp [children]), Bool.beq_comm (a := i)]
    | _ => rfl
  | choice a as =>
    cases y with
    | choice b bs =>
      rw [compare, compare, h a (by simp [children])]
      refine congrArg _ (allPairs_comm fun arm harm other => ?_)
      have hparts : ∀ part ∈ [arm.1, arm.2], ∀ b, p part b = p b part := fun part hpart =>
        h part (List.mem_cons_of_mem _ (List.mem_flatMap.mpr ⟨arm, harm, hpart⟩))
      rw [hparts arm.1 (by simp), hparts arm.2 (by simp)]
    | _ => rfl

theorem Number.equal_comm (x y : Number) : x.equal y = y.equal x := by
  simp only [equal, Bool.beq_comm (a := x), Bool.and_comm (!x.isNaN), Bool.and_comm x.isZero]

theorem Literal.equal_comm (a b : Literal) : a.equal b = b.equal a := by
  cases a <;> cases b <;> simp [equal, Number.equal_comm, eq_comm, beq_eq_decide]

theorem Literal.agrees_comm (a b : Literal) : a.agrees b = b.agrees a := by
  rw [Bool.eq_iff_iff, agrees_iff, agrees_iff, eq_comm]

theorem Literal.sameKind_comm (a b : Literal) : a.sameKind b = b.sameKind a := by
  cases a <;> cases b <;> rfl

theorem Value.equal_comm (v w : Value) : v.equal w = w.equal v := by
  induction v using Value.induction generalizing w with
  | var name =>
    cases w with
    | var name' => simp [equal, compare, eq_comm, beq_eq_decide]
    | term form => simp [equal, compare]
  | term form ih =>
    cases w with
    | var name => simp [equal, compare]
    | term form' =>
      simp only [equal, compare_term]
      exact Form.compare_comm Literal.equal_comm ih

end Comparison

namespace Form

variable {α : Type}

def Clash.mirrored : Clash → Clash
  | fieldNames left right => fieldNames right left
  | parameterCounts left right => parameterCounts right left
  | armCounts left right => armCounts right left
  | clash => clash

theorem partners_alone (x : Form α) : partners x.alone.children = [] := by
  simp [partners, alone, List.filterMap_map]

structure Mirrored (x y : Form α) : Prop where
  partners : partners (y.join x).1.children = (partners (x.join y).1.children).map Prod.swap
  clash : (y.join x).2 = (x.join y).2.map Clash.mirrored

theorem Mirrored.of_alone {x y : Form α} (clash : Clash) (h : x.join y = (x.alone, some clash))
    (h' : y.join x = (y.alone, some clash.mirrored)) : Mirrored x y where
  partners := by rw [h, h', partners_alone, partners_alone]; rfl
  clash := by rw [h, h']; rfl

theorem Mirrored.of_pairs (q : Form (α × α)) : Mirrored (q.map Prod.fst) (q.map Prod.snd) := by
  have hswap : (q.map Prod.snd).join (q.map Prod.fst) =
      ((q.map Prod.swap).map fun pair => (pair.1, some pair.2), none) := by
    rw [← join_pairs, map_map, map_map]
    rfl
  constructor
  · rw [hswap, join_pairs, partners_pairs, partners_pairs, children_map]
  · rw [hswap, join_pairs]
    rfl

theorem Clashes.mirrored {x y : Form α} (h : Clashes x y) : Mirrored x y := by
  have hclash := h.clash
  cases x with
  | literal a =>
    cases y with
    | literal b =>
      refine ⟨rfl, ?_⟩
      simp only [join, Literal.agrees_comm b, Literal.sameKind_comm b]
      split
      · rfl
      · split <;> rfl
    | _ => exact .of_alone .kinds rfl rfl
  | record fs =>
    cases y with
    | record gs =>
      have hnames : fs.map Prod.fst ≠ gs.map Prod.fst := fun heq => hclash (by simp [join, heq])
      exact .of_alone _ (if_neg hnames) (if_neg hnames.symm)
    | _ => exact .of_alone .kinds rfl rfl
  | function i a b =>
    cases y with
    | function j c d =>
      have hplicity : i ≠ j := fun heq => hclash (by simp [join, heq])
      exact .of_alone .kinds (if_neg hplicity) (if_neg hplicity.symm)
    | _ => exact .of_alone .kinds rfl rfl
  | application a b =>
    cases y with
    | application c d => exact absurd rfl hclash
    | _ => exact .of_alone .kinds rfl rfl
  | data a as =>
    cases y with
    | data b bs =>
      have hlength : as.length ≠ bs.length := fun heq => hclash (by simp [join, heq])
      constructor
      · simp [join, hlength, hlength.symm, children, Form.partners, List.filterMap_map]
      · simp [join, hlength, hlength.symm, Clash.mirrored]
    | _ => exact .of_alone .kinds rfl rfl
  | dual a b =>
    cases y with
    | dual c d => exact absurd rfl hclash
    | _ => exact .of_alone .kinds rfl rfl
  | read a i =>
    cases y with
    | read b j =>
      have haccessor : i ≠ j := fun heq => hclash (by simp [join, heq])
      have hkind : j.sameKind i = i.sameKind j := by cases i <;> cases j <;> rfl
      constructor
      · simp [join, haccessor, haccessor.symm, partners_alone]
      · simp only [join, if_neg haccessor, if_neg haccessor.symm, hkind]
        split <;> rfl
    | _ => exact .of_alone .kinds rfl rfl
  | choice a as =>
    cases y with
    | choice b bs =>
      have hlength : as.length ≠ bs.length := fun heq => hclash (by simp [join, heq])
      exact .of_alone _ (if_neg hlength) (if_neg hlength.symm)
    | _ => exact .of_alone .kinds rfl rfl

theorem join_mirrored (x y : Form α) : Mirrored x y := by
  obtain ⟨a, b, rfl, rfl, hagree, h⟩ | ⟨q, rfl, rfl, -, -⟩ | h := join_cases x y
  · have h' : (literal b : Form α).join (literal a) = (literal b, none) := by
      rw [Literal.agrees_comm] at hagree
      simp [join, hagree]
    exact ⟨by rw [h, h']; rfl, by rw [h, h']; rfl⟩
  · exact .of_pairs q
  · exact h.mirrored

end Form

def Diagnostic.mirrored : Diagnostic → Diagnostic
  | typesAreDifferent left right => typesAreDifferent right left
  | typeValuesAreDifferent left right => typeValuesAreDifferent right left
  | unevenProperties left right => unevenProperties right left
  | parameterCountsAreDifferent left right => parameterCountsAreDifferent right left
  | patternCountsAreDifferent left right => patternCountsAreDifferent right left
  | diagnostic => diagnostic

theorem Diagnostic.ofClash_mirrored (left right : Value) (clash : Form.Clash) :
    ofClash right left clash.mirrored = (ofClash left right clash).mirrored := by
  cases clash <;> rfl

def Assumes (assumed other : String × Value) : Prop :=
  other = assumed ∨ ∃ x y, assumed = (x, .var y) ∧ other = (y, .var x)

namespace Unified

/-- What unification comes to from the other side, apart from the value. -/
structure Mirrors (u w : Unified) : Prop where
  assumptions : List.Forall₂ Assumes u.assumptions w.assumptions
  diagnostics : w.diagnostics = u.diagnostics.map Diagnostic.mirrored

theorem mirrors_keep (v w : Value) : (keep v).Mirrors (keep w) := ⟨.nil, rfl⟩

theorem mirrors_assume {name other : String} {v w : Value} (h : Assumes (name, v) (other, w)) :
    (assume name v).Mirrors (assume other w) := ⟨.cons h .nil, rfl⟩

end Unified

/-- Only children with a partner add to the result for a layer. -/
theorem Unified.flatMap_ofPair {β : Type} {view : Unified → List β} (hview : ∀ v, view (.keep v) = [])
    (recurse : Value → Value → Unified) (pairs : List (Value × Option Value)) :
    (pairs.map (ofPair recurse)).flatMap view =
      (Form.partners pairs).flatMap fun pair => view (recurse pair.1 pair.2) := by
  induction pairs with
  | nil => rfl
  | cons pair pairs ih =>
    obtain ⟨a, b⟩ := pair
    rw [List.map_cons, List.flatMap_cons, ih]
    cases b with
    | none => exact congrArg (· ++ _) (hview a)
    | some b => rfl

theorem Unified.mirrors_ofJoin {recurse : Value → Value → Unified} {f g : Form Value}
    (h : ∀ pair ∈ Form.partners (f.join g).1.children,
      (recurse pair.1 pair.2).Mirrors (recurse pair.2 pair.1)) :
    (ofJoin recurse f g).Mirrors (ofJoin recurse g f) := by
  have hmirrored := Form.join_mirrored f g
  constructor
  · simp only [ofJoin, ofForm, Form.children_map]
    rw [flatMap_ofPair fun _ => rfl, flatMap_ofPair fun _ => rfl, hmirrored.partners,
      List.flatMap_map]
    generalize Form.partners (f.join g).1.children = pairs at h
    induction pairs with
    | nil => exact .nil
    | cons pair pairs ih =>
      obtain ⟨hpair, hpairs⟩ := List.forall_mem_cons.mp h
      exact List.rel_append hpair.assumptions (ih hpairs)
  · simp only [ofJoin, ofForm, Form.children_map]
    rw [flatMap_ofPair fun _ => rfl, flatMap_ofPair fun _ => rfl, hmirrored.partners,
      hmirrored.clash, List.flatMap_map, List.map_append, List.map_flatMap]
    congr 1
    · exact List.flatMap_congr fun pair hpair => (h pair hpair).diagnostics
    · cases (f.join g).2 with
      | none => rfl
      | some clash => exact congrArg (fun diagnostic => [diagnostic]) (Diagnostic.ofClash_mirrored _ _ _)

namespace Value

theorem unify_mirrors {left right : Value} (hleft : left.dualFree) (hright : right.dualFree) :
    (left.unify right).Mirrors (right.unify left) := by
  revert hleft hright
  refine unify_induction (motive := fun left right u => left.dualFree → right.dualFree →
    u.Mirrors (right.unify left)) ?_ left right
  intro left right pairs u h ih hleft hright
  cases h with
  | same heq =>
    rw [(Unifies.same (by rwa [equal_comm])).unify_eq]
    exact Unified.mirrors_keep left right
  | @varLeft x _ hne =>
    cases right with
    | var y =>
      rw [(Unifies.varLeft (by rwa [equal_comm])).unify_eq]
      exact Unified.mirrors_assume (.inr ⟨x, y, rfl, rfl⟩)
    | term g =>
      rw [Unifies.varRight.unify_eq]
      exact Unified.mirrors_assume (.inl rfl)
  | varRight =>
    rw [(Unifies.varLeft (by simp [equal, compare])).unify_eq]
    exact Unified.mirrors_assume (.inl rfl)
  | dualLeft _ => cases ((dualFree_term _).mp hleft).1
  | dualRight _ _ => cases ((dualFree_term _).mp hright).1
  | joined hne hf hg =>
    rw [(Unifies.joined (by rwa [equal_comm]) hg hf).unify_eq]
    apply Unified.mirrors_ofJoin
    intro pair hpair
    obtain ⟨ha, hb⟩ := Form.mem_children_of_mem_partners hpair
    exact ih pair hpair (((dualFree_term _).mp hleft).2 _ ha) (((dualFree_term _).mp hright).2 _ hb)

theorem rename_refl : rename (Equiv.refl String) = id := by
  funext v
  induction v using Value.induction with
  | var name => exact rename_var _ name
  | term form ih =>
    rw [rename_term, Form.map_congr ih, Form.map_id]
    rfl

end Value

def Constraint.content (c : Constraint) : Relation × String × Value × Provenance :=
  (c.relation, c.var, c.value, c.provenance)

/-- The same but for the origin; an equation of two variables may be turned round. -/
def Constraint.Turned (c d : Constraint) : Prop :=
  d.content = c.content ∨ ∃ x y provenance,
    c.content = (.equals, x, .var y, provenance) ∧ d.content = (.equals, y, .var x, provenance)

namespace Convergence

/-- Of constraints in different relations it does not matter which was there. -/
theorem meet_comm (c : Convergence) {existing incoming : Relation × Value}
    (h : existing.1 ≠ incoming.1) : c.meet existing incoming = c.meet incoming existing := by
  obtain ⟨relation, value⟩ := existing
  obtain ⟨relation', value'⟩ := incoming
  cases relation <;> cases relation' <;> first | rfl | exact absurd rfl h

theorem meet_self (c : Convergence) (relation : Relation) (left right : Value) :
    c.meet (relation, left) (relation, right) = (relation, c.converge left right) := by
  cases relation <;> rfl

def attributed (origin : String) (c : Convergence) : Convergence :=
  { c with origin, facts := c.facts.map fun fact => { fact with origin } }

theorem rename_refl (origin : String) :
    rename (Equiv.refl String) (fun _ => origin) = attributed origin := by
  have hdiagnostic : Diagnostic.rename (Equiv.refl String) = id := by
    funext diagnostic
    cases diagnostic <;> simp [Diagnostic.rename, Value.rename_refl]
  have hconstraint : Constraint.rename (Equiv.refl String) (fun _ => origin) =
      fun fact => { fact with origin } := by
    funext fact
    simp [Constraint.rename, Value.rename_refl]
  funext c
  simp [rename, attributed, hconstraint, hdiagnostic]

/-- What two constraints come to does not depend on the node on whose behalf they meet. -/
theorem meet_attributed (origin other : String) (existing incoming : Relation × Value) :
    meet { origin := other } existing incoming =
      Prod.map id (Prod.map id (attributed other)) (meet { origin } existing incoming) := by
  have hmeet := meet_rename (Equiv.refl String) (fun _ => other) { origin } existing incoming
  rwa [Value.rename_refl, rename_refl] at hmeet

theorem turned_facts {left right : Value} (hleft : left.dualFree) (hright : right.dualFree)
    (origin other : String) :
    List.Forall₂ Constraint.Turned (converge { origin } left right).2.facts
      (converge { origin := other } right left).2.facts := by
  have hassumptions := (Value.unify_mirrors hleft hright).assumptions
  simp only [converge, List.nil_append, List.forall₂_map_left_iff, List.forall₂_map_right_iff]
  refine hassumptions.imp fun assumed assumed' h => ?_
  obtain rfl | ⟨x, y, rfl, rfl⟩ := h
  · exact .inl rfl
  · exact .inr ⟨x, y, .convergence, rfl, rfl⟩

end Convergence

def Constraint.mergedWith (c d : Constraint) : Entry × Convergence :=
  (Entry.ofConstraint c).merge d { origin := d.origin }

theorem Constraint.mergedWith_of_ne {c d : Constraint} (h : c.relation ≠ d.relation) :
    (d.mergedWith c).1.relation = (c.mergedWith d).1.relation ∧
      (d.mergedWith c).1.value = (c.mergedWith d).1.value ∧
      (d.mergedWith c).2.diagnostics = (c.mergedWith d).2.diagnostics ∧
      (d.mergedWith c).2.facts.map content = (c.mergedWith d).2.facts.map content := by
  have hmeet := Convergence.meet_attributed d.origin c.origin (c.relation, c.value)
    (d.relation, d.value)
  rw [Convergence.meet_comm { origin := c.origin } h] at hmeet
  simp only [mergedWith, Entry.merge, Entry.ofConstraint, hmeet]
  exact ⟨rfl, rfl, rfl, List.map_map⟩

theorem Constraint.mergedWith_of_eq {c d : Constraint} (h : c.relation = d.relation)
    (hc : c.value.dualFree) (hd : d.value.dualFree) :
    (d.mergedWith c).1.relation = (c.mergedWith d).1.relation ∧
      (d.mergedWith c).2.diagnostics = (c.mergedWith d).2.diagnostics.map Diagnostic.mirrored ∧
      List.Forall₂ Turned (c.mergedWith d).2.facts (d.mergedWith c).2.facts := by
  simp only [mergedWith, Entry.merge, Entry.ofConstraint, h, Convergence.meet_self]
  exact ⟨trivial, (Value.unify_mirrors hc hd).diagnostics, Convergence.turned_facts hc hd _ _⟩

/-- Merging is symmetric. Two constraints without duals come to an entry in the same relation
whichever is merged into an entry for the other, with as many reports and facts. If their relations
differ, they come to the same value, reports and facts. If their relations are the same, each report is
mirrored, and each fact is the same or an equation of two variables that is turned round. -/
theorem merging_is_symmetric (c d : Constraint) (hc : c.value.dualFree) (hd : d.value.dualFree) :
    (d.mergedWith c).1.relation = (c.mergedWith d).1.relation ∧
    (d.mergedWith c).2.diagnostics.length = (c.mergedWith d).2.diagnostics.length ∧
    (d.mergedWith c).2.facts.length = (c.mergedWith d).2.facts.length ∧
    (c.relation ≠ d.relation →
      (d.mergedWith c).1.value = (c.mergedWith d).1.value ∧
      (d.mergedWith c).2.diagnostics = (c.mergedWith d).2.diagnostics ∧
      (d.mergedWith c).2.facts.map Constraint.content =
        (c.mergedWith d).2.facts.map Constraint.content) ∧
    (c.relation = d.relation →
      (d.mergedWith c).2.diagnostics = (c.mergedWith d).2.diagnostics.map Diagnostic.mirrored ∧
      List.Forall₂ Constraint.Turned (c.mergedWith d).2.facts (d.mergedWith c).2.facts) := by
  by_cases h : c.relation = d.relation
  · obtain ⟨hrelation, hdiagnostics, hfacts⟩ := Constraint.mergedWith_of_eq h hc hd
    refine ⟨hrelation, ?_, hfacts.length_eq.symm, fun hne => absurd h hne,
      fun _ => ⟨hdiagnostics, hfacts⟩⟩
    rw [hdiagnostics, List.length_map]
  · obtain ⟨hrelation, hvalue, hdiagnostics, hfacts⟩ := Constraint.mergedWith_of_ne h
    refine ⟨hrelation, by rw [hdiagnostics], ?_, fun _ => ⟨hvalue, hdiagnostics, hfacts⟩,
      fun heq => absurd heq h⟩
    have hlength := congrArg List.length hfacts
    rwa [List.length_map, List.length_map] at hlength

def openField : Constraint :=
  ⟨.equals, "x", .record [("a", .var "y"), ("b", .number ⟨0x3ff0000000000000⟩)], "first",
    .convergence⟩

def otherField : Constraint :=
  ⟨.equals, "x", .record [("a", .var "z"), ("b", .literal (.boolean true))], "second", .deferral⟩

theorem openField_merging_is_symmetric :
    openField.value.dualFree ∧ otherField.value.dualFree ∧
    (openField.mergedWith otherField).2.diagnostics =
      [.typesAreDifferent (.number ⟨0x3ff0000000000000⟩) (.literal (.boolean true))] ∧
    (otherField.mergedWith openField).2.diagnostics =
      [.typesAreDifferent (.literal (.boolean true)) (.number ⟨0x3ff0000000000000⟩)] ∧
    List.Forall₂ Constraint.Turned [⟨.equals, "y", .var "z", "second", .convergence⟩]
      (otherField.mergedWith openField).2.facts := by
  obtain ⟨-, -, -, -, hsame⟩ := merging_is_symmetric openField otherField rfl rfl
  obtain ⟨hdiagnostics, hfacts⟩ := hsame rfl
  exact ⟨rfl, rfl, rfl, hdiagnostics, hfacts⟩

end ImplicitInference
