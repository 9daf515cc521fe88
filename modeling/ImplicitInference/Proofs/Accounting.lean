import ImplicitInference.Proofs.Resolution
import Mathlib.Algebra.BigOperators.Group.List.Basic

/-!
How resolution accounts for the implicit parameters that nodes need. What is supplied to a node is
the only combination that it could be applied to, and nothing if it needs nothing, if there is no
such combination or if there are several. The node is then wrapped in as many applications, each of
which takes one implicit parameter off the type, until as many are left as the surroundings want. A
node that needs something is either marked with what was supplied or reported, and never both; the
reports come in the order in which a walk meets the nodes that visits children before their parents.
-/

namespace ImplicitInference

namespace Scoped

def chosen (options : Options) (here : Scoped) : List Candidate :=
  if 0 < here.excess then
    match here.supplies options with
    | [combination] => combination
    | _ => []
  else []

variable {options : Options} {here : Scoped} {combination : List Candidate}

theorem requirements_isEmpty (here : Scoped) : here.requirements.isEmpty ↔ here.excess = 0 := by
  rw [List.isEmpty_iff, ← List.length_eq_zero_iff, length_requirements]

theorem length_of_supplies (h : here.supplies options = [combination]) :
    combination.length = here.excess := by
  have hmem : combination ∈ here.supplies options := h ▸ List.mem_singleton_self combination
  rw [← length_requirements]
  exact (mem_supplies_iff.mp hmem).1.length_eq

theorem chosen_of_supplies (hneeded : 0 < here.excess)
    (h : here.supplies options = [combination]) : here.chosen options = combination := by
  rw [chosen, if_pos hneeded, h]

theorem chosen_ne_nil_iff : here.chosen options ≠ [] ↔
    0 < here.excess ∧ ∃ combination, here.supplies options = [combination] := by
  constructor
  · intro hchosen
    unfold chosen at hchosen
    split at hchosen
    · rename_i hneeded
      split at hchosen
      · rename_i combination hsupplies
        exact ⟨hneeded, combination, hsupplies⟩
      · exact absurd rfl hchosen
    · exact absurd rfl hchosen
  · rintro ⟨hneeded, combination, hsupplies⟩ hnone
    rw [chosen_of_supplies hneeded hsupplies] at hnone
    have hlength := length_of_supplies hsupplies
    rw [hnone, List.length_nil] at hlength
    omega

/-- Nothing is supplied beyond what a node needs. -/
theorem length_chosen_le : (here.chosen options).length ≤ here.excess := by
  by_cases hnone : here.chosen options = []
  · rw [hnone]
    exact Nat.zero_le _
  · obtain ⟨hneeded, combination, hsupplies⟩ := chosen_ne_nil_iff.mp hnone
    rw [chosen_of_supplies hneeded hsupplies]
    exact Nat.le_of_eq (length_of_supplies hsupplies)

end Scoped

namespace Resolved

variable (options : Options)

theorem supplyAll_nil {node : Node Resolved} (h : node.decoration.supplied = []) :
    supplyAll node [] = node := by
  obtain ⟨e, type, scope, supplied⟩ := node
  subst h
  rfl

theorem settle_eq_supplyAll (e : Expr (Node Resolved)) (here : Scoped) :
    settle options e here = supplyAll (bare e here) (here.chosen options) := by
  unfold settle Scoped.chosen
  by_cases hneeded : 0 < here.excess
  · have hsome : ¬ here.requirements.isEmpty := by
      rw [Scoped.requirements_isEmpty]
      omega
    rw [if_neg hsome, if_pos hneeded]
    cases here.supplies options with
    | nil => rfl
    | cons combination others => cases others <;> rfl
  · have hnone : here.requirements.isEmpty := by
      rw [Scoped.requirements_isEmpty]
      omega
    rw [if_pos hnone, if_neg hneeded]
    exact (supplyAll_nil rfl).symm

/-- A node that needs something is reported once, unless something is supplied to it. -/
theorem length_report (here : Scoped) :
    (report options here).length + (if (here.chosen options).isEmpty then 0 else 1) =
      if 0 < here.excess then 1 else 0 := by
  unfold report
  by_cases hneeded : 0 < here.excess
  · have hsome : ¬ here.requirements.isEmpty := by
      rw [Scoped.requirements_isEmpty]
      omega
    rw [if_neg hsome, if_pos hneeded]
    cases hsupplies : here.supplies options with
    | nil => simp [Scoped.chosen, hneeded, hsupplies]
    | cons combination others =>
      cases others with
      | nil =>
        have hchosen := Scoped.chosen_ne_nil_iff.mpr ⟨hneeded, combination, hsupplies⟩
        simp [hchosen]
      | cons _ _ => simp [Scoped.chosen, hneeded, hsupplies]
  · have hnone : here.requirements.isEmpty := by
      rw [Scoped.requirements_isEmpty]
      omega
    simp [hnone, hneeded, Scoped.chosen]

end Resolved

theorem resolved_eq_supplyAll (options : Options) (n : Node Scoped) :
    resolved options n =
      Resolved.supplyAll (ofNode options n) (n.decoration.chosen options) := by
  obtain ⟨e, here⟩ := n
  rw [resolved_mk, Resolved.settle_eq_supplyAll]
  rfl

section Wraps

open Resolved

/-- A node is another one in nested applications to candidates, the first candidate outermost. Every
application takes one implicit parameter off the type, and below the outermost one no node is
marked. -/
inductive Wraps (core : Node Resolved) : List Candidate → Node Resolved → Prop
  | core : Wraps core [] core
  | application {candidate : Candidate} {rest : List Candidate} {callee argument n : Node Resolved}
      (inner : Wraps core rest callee)
      (expression : n.expression = .form (.application callee argument))
      (name : argument.expression = .identifier candidate.1)
      (value : argument.decoration.type = candidate.2)
      (layer : callee.decoration.type.stripLayer? = some n.decoration.type)
      (unmarked : callee.decoration.supplied = [] ∧ argument.decoration.supplied = []) :
      Wraps core (candidate :: rest) n

variable {core n : Node Resolved} {combination : List Candidate}

/-- There is an application for every candidate. -/
theorem Wraps.length_le_size (h : Wraps core combination n) :
    core.size + combination.length ≤ n.size := by
  induction h with
  | core => exact Nat.le_refl _
  | @application _ _ callee _ n _ hexpression _ _ _ _ ih =>
    obtain ⟨e, d⟩ := n
    have he : e = .form (.application callee _) := hexpression
    rw [he, Node.size_mk, Expr.children, Form.children, List.map_cons, List.sum_cons,
      List.length_cons]
    omega

theorem Wraps.mem_toList (h : Wraps core combination n) : core ∈ n.toList := by
  induction h with
  | core => exact Node.mem_toList_self _
  | application _ hexpression _ _ _ _ ih =>
    refine Node.mem_toList_of_child ?_ ih
    rw [hexpression]
    exact List.mem_cons_self

theorem unmarked_supplied (combination : List Candidate) (hcore : core.decoration.supplied = []) :
    (combination.foldr (fun candidate node => supply node candidate) core).decoration.supplied =
      [] := by
  cases combination with
  | nil => exact hcore
  | cons candidate rest => rfl

theorem wraps_supplied (hcore : core.decoration.supplied = [])
    (hlength : combination.length ≤ core.decoration.type.implicitCount) :
    Wraps core combination
      (combination.foldr (fun candidate node => supply node candidate) core) := by
  induction combination with
  | nil => exact .core
  | cons candidate rest ih =>
    rw [List.length_cons] at hlength
    refine .application (ih (by omega)) rfl rfl rfl ?_ ⟨unmarked_supplied rest hcore, rfl⟩
    apply Value.stripLayer?_of_pos
    rw [type_supplied, Value.implicitCount_iterate_peel]
    omega

theorem wraps_supplyAll (hcore : core.decoration.supplied = [])
    (hlength : combination.length ≤ core.decoration.type.implicitCount) :
    Wraps core combination (supplyAll core combination) := by
  cases wraps_supplied hcore hlength with
  | core =>
    rw [supplyAll_nil hcore]
    exact .core
  | application inner hexpression hname hvalue hlayer hunmarked =>
    exact .application inner hexpression hname hvalue hlayer hunmarked

theorem wraps_resolved (options : Options) (n : Node Scoped) :
    Wraps (ofNode options n) (n.decoration.chosen options) (resolved options n) := by
  rw [resolved_eq_supplyAll]
  refine wraps_supplyAll rfl (Nat.le_trans Scoped.length_chosen_le ?_)
  exact Nat.sub_le _ _

/-- What becomes of a node is part of what becomes of the tree. -/
theorem resolved_mem_toList {options : Options} {tree m : Node Scoped} (hm : m ∈ tree.toList) :
    resolved options m ∈ (resolved options tree).toList := by
  induction tree using Node.induction with
  | mk e here ih =>
    rcases Node.mem_toList_mk.mp hm with rfl | ⟨child, hchild, hm⟩
    · exact Node.mem_toList_self _
    · refine Node.mem_toList_trans ?_ (wraps_resolved options ⟨e, here⟩).mem_toList
      exact Node.mem_toList_of_child (Expr.mem_children_map hchild) (ih child hchild hm)

end Wraps

section Tally

open Resolved

def Node.tally (weight : List Candidate → Nat) (n : Node Resolved) : Nat :=
  (n.toList.map fun m => weight m.decoration.supplied).sum

variable (weight : List Candidate → Nat)

theorem tally_mk (e : Expr (Node Resolved)) (d : Resolved) :
    Node.tally weight ⟨e, d⟩ = weight d.supplied + (e.children.map (Node.tally weight)).sum := by
  rw [Node.tally, Node.toList_mk, List.map_cons, List.sum_cons, List.map_flatMap, List.flatMap_def,
    List.sum_flatten, List.map_map]
  rfl

/-- The applications inside and the arguments are not marked. -/
theorem tally_supplied (hnone : weight [] = 0) (combination : List Candidate)
    (node : Node Resolved) :
    (combination.foldr (fun candidate node => supply node candidate) node).tally weight =
      node.tally weight := by
  induction combination with
  | nil => rfl
  | cons candidate rest ih =>
    rw [List.foldr_cons, supply, tally_mk]
    simp [Expr.children, Form.children, tally_mk, hnone, ih]

theorem tally_supplyAll (hnone : weight [] = 0) (combination : List Candidate)
    (e : Expr (Node Resolved)) (here : Scoped) :
    (supplyAll (bare e here) combination).tally weight =
      weight combination + (e.children.map (Node.tally weight)).sum := by
  have hinside := tally_supplied weight hnone combination (bare e here)
  have hbare : (bare e here).decoration.supplied = [] := rfl
  have hunmarked := unmarked_supplied combination hbare
  rw [supplyAll, tally_mk]
  generalize combination.foldr (fun candidate node => supply node candidate) (bare e here) = inside
    at hinside hunmarked
  obtain ⟨e', d⟩ := inside
  rw [bare, tally_mk, tally_mk, show d.supplied = [] from hunmarked, hnone] at hinside
  rw [show (e'.children.map (Node.tally weight)).sum = (e.children.map (Node.tally weight)).sum by
    simpa [hnone] using hinside]

def mark (supplied : List Candidate) : Nat := if supplied.isEmpty then 0 else 1

theorem tally_mark (n : Node Resolved) :
    n.tally mark = n.toList.countP fun m => !m.decoration.supplied.isEmpty := by
  rw [Node.tally]
  induction n.toList with
  | nil => rfl
  | cons m rest ih =>
    rw [List.map_cons, List.sum_cons, ih, List.countP_cons, mark]
    cases m.decoration.supplied.isEmpty <;> simp [Nat.add_comm]

/-- Every node that needs something is either marked or reported. -/
theorem length_reports_add_tally (options : Options) (tree : Node Scoped) :
    (reports options tree).length + (resolved options tree).tally mark =
      tree.toList.countP fun n => 0 < n.decoration.excess := by
  induction tree using Node.induction with
  | mk e here ih =>
    have hchildren : (e.children.map fun child => (reports options child).length).sum +
        (e.children.map fun child => (resolved options child).tally mark).sum =
          (e.children.map fun child =>
            child.toList.countP fun n => 0 < n.decoration.excess).sum := by
      rw [← List.map_congr_left ih, List.sum_map_add]
    have hhere := length_report options here
    rw [reports_mk, List.length_append, List.length_flatMap, resolved_eq_supplyAll, ofNode,
      tally_supplyAll mark rfl, Expr.children_map, List.map_map, Node.toList_mk, List.countP_cons,
      List.countP_flatMap]
    simp only [Function.comp_def, decide_eq_true_eq, mark] at hchildren ⊢
    omega

end Tally

section Order

variable {D : Type}

def Node.upward : Node D → List (Node D) :=
  para fun e d => e.children.flatMap Prod.snd ++ [⟨e.map Prod.fst, d⟩]

theorem Node.upward_mk (e : Expr (Node D)) (d : D) :
    upward ⟨e, d⟩ = e.children.flatMap upward ++ [⟨e, d⟩] := by
  have hfst : (Prod.fst ∘ fun n : Node D => (n, n.upward)) = id := rfl
  rw [upward, para_mk, ← upward, Expr.map_map, hfst, Expr.map_id, Expr.children_map,
    List.flatMap_map]

theorem reports_eq_upward (options : Options) (tree : Node Scoped) :
    reports options tree = tree.upward.flatMap fun n => Resolved.report options n.decoration := by
  induction tree using Node.induction with
  | mk e here ih =>
    rw [reports_mk, Node.upward_mk, List.flatMap_append, List.flatMap_assoc, List.flatMap_singleton]
    rw [List.flatMap_def, List.flatMap_def, List.map_congr_left ih]

end Order

section Outcome

variable (options : Options)

def unsupplied (n : Node Scoped) : Node Resolved :=
  ⟨n.expression.map fun child => (resolveImplicits options child).node,
    { type := n.decoration.type, scope := n.decoration.scope }⟩

theorem ofNode_eq_unsupplied (n : Node Scoped) : ofNode options n = unsupplied options n := by
  have hchildren : n.expression.map (resolved options) =
      n.expression.map fun child => (resolveImplicits options child).node :=
    Expr.map_congr fun child _ => (resolveImplicits_eq options child).1.symm
  rw [ofNode, Resolved.bare, hchildren, unsupplied]

/-- What becomes of a node that a combination is supplied to. -/
structure SuppliedWith (n : Node Scoped) (combination : List Candidate) : Prop where
  order : List.Forall₂ (fun candidate requirement =>
      candidate ∈ Candidate.forRequirement options n.decoration.scope requirement)
    combination n.decoration.requirements
  count : combination.length = n.decoration.excess
  wraps : Wraps (unsupplied options n) combination (resolveImplicits options n).node
  marked : (resolveImplicits options n).node.decoration.supplied = combination
  /-- The type has lost the parameters that were needed and nothing else. -/
  type : (resolveImplicits options n).node.decoration.type.wrapImplicits n.decoration.requirements =
    n.decoration.type
  left : (resolveImplicits options n).node.decoration.type.implicitCount =
    min n.decoration.type.implicitCount n.decoration.shape.implicitCount

variable {options} {n : Node Scoped} {combination : List Candidate}

theorem suppliedWith_of_supplies (hneeded : 0 < n.decoration.excess)
    (hsupplies : n.decoration.supplies options = [combination]) :
    SuppliedWith options n combination := by
  have hchosen := Scoped.chosen_of_supplies hneeded hsupplies
  have hmem : combination ∈ n.decoration.supplies options := by simp [hsupplies]
  have hcount := Scoped.length_of_supplies hsupplies
  have hwraps := wraps_resolved options n
  have hmarked := resolved_eq_supplyAll options n
  rw [hchosen] at hwraps hmarked
  have htype : (resolved options n).decoration.type =
      Value.peel^[n.decoration.excess] n.decoration.type := by
    rw [hmarked, ← hcount]
    exact type_supplied combination (ofNode options n)
  rw [ofNode_eq_unsupplied] at hwraps
  rw [← (resolveImplicits_eq options n).1] at hwraps hmarked htype
  refine ⟨(Scoped.mem_supplies_iff.mp hmem).1, hcount, hwraps, by rw [hmarked]; rfl, ?_, ?_⟩
  · rw [htype]
    exact Value.wrapImplicits_iterate_peel _ _
  · rw [htype, Value.implicitCount_iterate_peel, Scoped.excess]
    omega

theorem eq_unsupplied_of_chosen (hnone : n.decoration.chosen options = []) :
    (resolveImplicits options n).node = unsupplied options n := by
  rw [(resolveImplicits_eq options n).1, resolved_eq_supplyAll, hnone, ← ofNode_eq_unsupplied]
  exact Resolved.supplyAll_nil rfl

/-- A node is wrapped exactly if it needs something and one combination is valid. -/
theorem wrapped_iff :
    (∃ combination, combination ≠ [] ∧
        Wraps (unsupplied options n) combination (resolveImplicits options n).node) ↔
      0 < n.decoration.excess ∧ ∃ combination, n.decoration.supplies options = [combination] := by
  rw [← Scoped.chosen_ne_nil_iff]
  constructor
  · rintro ⟨combination, hsome, hwraps⟩ hnone
    rw [eq_unsupplied_of_chosen hnone] at hwraps
    have hsize := hwraps.length_le_size
    have hpos := List.length_pos_iff.mpr hsome
    omega
  · intro hchosen
    have hwraps := wraps_resolved options n
    rw [ofNode_eq_unsupplied, ← (resolveImplicits_eq options n).1] at hwraps
    exact ⟨_, hchosen, hwraps⟩

end Outcome

/-- Every node of a tree is wrapped in what it needs exactly if one combination is valid for that,
and is left as it is otherwise; every node that needs something is marked or reported, children
before their parents. -/
theorem resolution_accounts_for_implicits (options : Options) (tree : Node Scoped) :
    (∀ n ∈ tree.toList,
      (resolveImplicits options n).node ∈ (resolveImplicits options tree).node.toList ∧
      ((∃ combination, combination ≠ [] ∧
          Wraps (unsupplied options n) combination (resolveImplicits options n).node) ↔
        0 < n.decoration.excess ∧ ∃ combination, n.decoration.supplies options = [combination]) ∧
      (∀ combination, 0 < n.decoration.excess → n.decoration.supplies options = [combination] →
        SuppliedWith options n combination) ∧
      ((¬ ∃ combination, combination ≠ [] ∧
          Wraps (unsupplied options n) combination (resolveImplicits options n).node) →
        (resolveImplicits options n).node = unsupplied options n)) ∧
    (resolveImplicits options tree).diagnostics.length +
        ((resolveImplicits options tree).node.toList.countP
          fun n => !n.decoration.supplied.isEmpty) =
      (tree.toList.countP fun n => 0 < n.decoration.excess) ∧
    (resolveImplicits options tree).diagnostics =
      tree.upward.flatMap fun n => Resolved.report options n.decoration := by
  obtain ⟨hnode, hreports⟩ := resolveImplicits_eq options tree
  refine ⟨?_, ?_, ?_⟩
  · intro n hn
    refine ⟨?_, wrapped_iff, fun combination => suppliedWith_of_supplies, ?_⟩
    · rw [hnode, (resolveImplicits_eq options n).1]
      exact resolved_mem_toList hn
    · intro hwrapped
      rw [wrapped_iff, ← Scoped.chosen_ne_nil_iff, not_not] at hwrapped
      exact eq_unsupplied_of_chosen hwrapped
  · rw [hnode, hreports, ← tally_mark]
    exact length_reports_add_tally options tree
  · rw [hreports]
    exact reports_eq_upward options tree

def needy (name : String) (parameters : List Value) : Node Scoped :=
  ⟨.identifier name, .symbol "R", (Value.symbol "R").wrapImplicits parameters,
    Scope.ofTypes [("a", .symbol "A"), ("b", .symbol "B")]⟩

def needyCall : Node Scoped :=
  ⟨.form (.application (needy "f" [.symbol "A", .symbol "B"]) (needy "g" [.symbol "C"])),
    .symbol "R", .symbol "R", Scope.ofTypes []⟩

theorem needyCall_accounts_for_implicits :
    SuppliedWith {} (needy "f" [.symbol "A", .symbol "B"])
      [("a", .symbol "A"), ("b", .symbol "B")] ∧
    (resolveImplicits {} (needy "g" [.symbol "C"])).node = unsupplied {} (needy "g" [.symbol "C"]) ∧
    (resolveImplicits {} needyCall).diagnostics.length = 1 ∧
    ((resolveImplicits {} needyCall).node.toList.countP
      fun n => !n.decoration.supplied.isEmpty) = 1 := by
  obtain ⟨hnodes, hcount, hreports⟩ := resolution_accounts_for_implicits {} needyCall
  have hf : needy "f" [.symbol "A", .symbol "B"] ∈ needyCall.toList :=
    Node.mem_toList_of_child List.mem_cons_self (Node.mem_toList_self _)
  have hg : needy "g" [.symbol "C"] ∈ needyCall.toList :=
    Node.mem_toList_of_child (List.mem_cons_of_mem _ List.mem_cons_self) (Node.mem_toList_self _)
  have hone : (resolveImplicits {} needyCall).diagnostics.length = 1 := by
    rw [hreports]
    decide +kernel
  have hneeded : (needyCall.toList.countP fun n => 0 < n.decoration.excess) = 2 := by decide +kernel
  refine ⟨(hnodes _ hf).2.2.1 _ (by decide) rfl, ?_, hone, by omega⟩
  apply (hnodes _ hg).2.2.2
  rw [(hnodes _ hg).2.1]
  rintro ⟨-, combination, hsupplies⟩
  have hnone : ((needy "g" [.symbol "C"]).decoration.supplies {}).length = 0 := by decide +kernel
  rw [hsupplies] at hnone
  cases hnone

end ImplicitInference
