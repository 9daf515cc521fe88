import ImplicitInference.Resolved
import ImplicitInference.Proofs.Implicits
import ImplicitInference.Proofs.Traversal
import Mathlib.Data.List.Forall2

/-!
What resolution makes of a tree. The state that resolution threads only collects reports, so what
becomes of a node depends on the node alone: `settle` says how, and `report` says what is reported.
Every node of the outcome is then what became of a node of the tree, the node itself over its
resolved children, or part of an application to what was supplied. If nothing is reported, every
node got what it needs, and its type has lost as many implicit parameters as its surroundings do not
want.
-/

namespace ImplicitInference

def Scope.types (scope : Scope) : List Candidate :=
  scope.toList.map fun binding => (binding.1, binding.2.type)

namespace Candidate

/-- Whatever is in scope, a built-in instance is the only candidate for what it meets; otherwise the
candidates are found among the bindings. -/
theorem forRequirement_cases (options : Options) (requirement : Value) :
    (∃ name, options.builtinInstances ∧ requirement.builtinInstance? = some name ∧
      ∀ scope, forRequirement options scope requirement = [(name, requirement)]) ∨
    (options.builtinInstances → requirement.builtinInstance? = none) ∧
      ∀ scope, forRequirement options scope requirement =
        scope.types.filter fun candidate => satisfies candidate.2 requirement := by
  have hbound : (if options.builtinInstances then requirement.builtinInstance? else none) = none →
      ∀ scope, forRequirement options scope requirement =
        scope.types.filter fun candidate => satisfies candidate.2 requirement := by
    intro hnone scope
    rw [forRequirement, hnone, Scope.types, List.filter_map]
    rfl
  by_cases henabled : options.builtinInstances
  · cases hinstance : requirement.builtinInstance? with
    | some name =>
      refine .inl ⟨name, henabled, rfl, fun scope => ?_⟩
      rw [forRequirement, if_pos henabled, hinstance]
    | none => exact .inr ⟨fun _ => rfl, hbound (by rw [if_pos henabled, hinstance])⟩
  · exact .inr ⟨fun h => absurd h henabled, hbound (if_neg henabled)⟩

theorem mem_combinations_iff {α : Type} {choices : List (List α)} {combination : List α} :
    combination ∈ combinations choices ↔
      List.Forall₂ (fun a list => a ∈ list) combination choices := by
  induction choices generalizing combination with
  | nil => rw [combinations, List.mem_singleton, List.forall₂_nil_right_iff]
  | cons list rest ih =>
    rw [combinations, List.mem_flatMap, List.forall₂_cons_right_iff]
    constructor
    · rintro ⟨a, ha, hrest⟩
      obtain ⟨others, hothers, rfl⟩ := List.mem_map.mp hrest
      exact ⟨a, others, ha, ih.mp hothers, rfl⟩
    · rintro ⟨a, others, ha, hothers, rfl⟩
      exact ⟨a, ha, List.mem_map_of_mem (ih.mpr hothers)⟩

/-- The valid combinations are those whose facts are reduced without a report. -/
theorem valid_trials (options : Options) (scope : Scope) (requirements : List Value) :
    valid (trials options scope requirements) =
      (combinations (requirements.map (forRequirement options scope))).filter fun combination =>
        (reduce options (facts requirements combination)).diagnostics.isEmpty := by
  rw [valid, trials, List.filter_map, List.map_map]
  exact List.map_id _

end Candidate

namespace Scoped

def supplies (options : Options) (here : Scoped) : List (List Candidate) :=
  Candidate.valid (Candidate.trials options here.scope here.requirements)

theorem length_requirements (here : Scoped) : here.requirements.length = here.excess := by
  rw [requirements, List.length_take]
  exact Nat.min_eq_left (Nat.sub_le _ _)

variable {options : Options} {here : Scoped} {combination : List Candidate}

/-- A combination has a candidate for each requirement, and its trial reports nothing. -/
theorem mem_supplies_iff : combination ∈ here.supplies options ↔
    List.Forall₂ (fun candidate requirement =>
        candidate ∈ Candidate.forRequirement options here.scope requirement)
      combination here.requirements ∧
    (reduce options (Candidate.facts here.requirements combination)).diagnostics = [] := by
  rw [supplies, Candidate.valid_trials, List.mem_filter, Candidate.mem_combinations_iff,
    List.forall₂_map_right_iff, List.isEmpty_iff]

end Scoped

namespace Resolved

def bare (e : Expr (Node Resolved)) (here : Scoped) : Node Resolved :=
  ⟨e, { type := here.type, scope := here.scope }⟩

def settle (options : Options) (e : Expr (Node Resolved)) (here : Scoped) : Node Resolved :=
  if here.requirements.isEmpty then bare e here
  else match here.supplies options with
    | [combination] => supplyAll (bare e here) combination
    | _ => bare e here

def report (options : Options) (here : Scoped) : List Diagnostic :=
  if here.requirements.isEmpty then []
  else match here.supplies options with
    | [] => [.unresolvedImplicits here.requirements]
    | [_] => []
    | valid => [.ambiguousImplicits valid.length here.requirements.length]

theorem attach_eq (options : Options) (e : Expr (Node Resolved)) (here : Scoped)
    (findings : Findings) :
    (attach options e here findings).1 = settle options e here ∧
      (attach options e here findings).2.diagnostics =
        findings.diagnostics ++ report options here := by
  unfold attach settle report
  by_cases hnone : here.requirements.isEmpty
  · simp [hnone, bare]
  · simp only [hnone, Scoped.supplies]
    rcases Candidate.valid (Candidate.trials options here.scope here.requirements) with
      _ | ⟨first, _ | ⟨second, rest⟩⟩
    · exact ⟨rfl, rfl⟩
    · exact ⟨rfl, by simp⟩
    · exact ⟨rfl, rfl⟩

end Resolved

section Tree

open Resolved

variable (options : Options)

def resolved : Node Scoped → Node Resolved := Node.fold (settle options)

def reports : Node Scoped → List Diagnostic :=
  Node.fold fun e here => e.children.flatten ++ report options here

theorem resolved_mk (e : Expr (Node Scoped)) (here : Scoped) :
    resolved options ⟨e, here⟩ = settle options (e.map (resolved options)) here := by
  rw [resolved, Node.fold_mk]

theorem reports_mk (e : Expr (Node Scoped)) (here : Scoped) :
    reports options ⟨e, here⟩ = e.children.flatMap (reports options) ++ report options here := by
  rw [reports, Node.fold_mk, Expr.children_map, List.flatMap_def]

theorem yields_resolution (tree : Node Scoped) {findings after : Findings} {m : Node Resolved}
    (h : (Execution.state Findings).Yields (tree.rebuildM (attach options)) findings m after) :
    m = resolved options tree ∧
      after.diagnostics = findings.diagnostics ++ reports options tree := by
  refine Node.rebuildM_induction (Execution.state Findings) (P := fun tree m findings after =>
    m = resolved options tree ∧
      after.diagnostics = findings.diagnostics ++ reports options tree) ?_ h
  intro pairs here m findings between after hvisits hattach
  have hnodes : ∀ pair ∈ pairs.children, pair.2 = resolved options pair.1 :=
    hvisits.forall_mem fun _ _ _ _ hstep => hstep.1
  have hreports : between.diagnostics =
      findings.diagnostics ++ (pairs.children.map Prod.fst).flatMap (reports options) :=
    hvisits.collects Findings.diagnostics fun _ _ _ _ hstep => hstep.2
  have hattached := attach_eq options (pairs.map Prod.snd) here between
  rw [show attach options (pairs.map Prod.snd) here between = (m, after) from hattach] at hattached
  obtain ⟨hm, hafter⟩ := hattached
  have hexpression : pairs.map Prod.snd = (pairs.map Prod.fst).map (resolved options) := by
    rw [Expr.map_map]
    exact Expr.map_congr hnodes
  constructor
  · rw [resolved_mk, ← hexpression]
    exact hm
  · rw [hafter, hreports, reports_mk, Expr.children_map, List.append_assoc]

theorem resolveImplicits_eq (tree : Node Scoped) :
    (resolveImplicits options tree).node = resolved options tree ∧
      (resolveImplicits options tree).diagnostics = reports options tree := by
  have hyields : (Execution.state Findings).Yields (tree.rebuildM (attach options)) {} _ _ := rfl
  have h := yields_resolution options tree hyields
  exact ⟨h.1, h.2⟩

/-- Something is reported of a node itself, after all that is reported of its children. -/
def Reported (n : Node Scoped) (d : Diagnostic) : Prop :=
  (resolveImplicits options n).diagnostics =
    (n.children.flatMap fun child => (resolveImplicits options child).diagnostics) ++ [d]

variable {options} {tree : Node Scoped}

theorem reported_iff {d : Diagnostic} :
    Reported options tree d ↔ report options tree.decoration = [d] := by
  obtain ⟨e, here⟩ := tree
  have hchildren : (fun child => (resolveImplicits options child).diagnostics) = reports options :=
    funext fun child => (resolveImplicits_eq options child).2
  rw [Reported, (resolveImplicits_eq options _).2, hchildren, reports_mk]
  exact List.append_right_inj _

/-- What is reported of a node is reported of the whole tree. -/
theorem mem_reports {m : Node Scoped} (hm : m ∈ tree.toList) {d : Diagnostic}
    (hd : d ∈ report options m.decoration) : d ∈ reports options tree := by
  induction tree using Node.induction with
  | mk e here ih =>
    rw [reports_mk]
    rcases Node.mem_toList_mk.mp hm with rfl | ⟨child, hchild, hm⟩
    · exact List.mem_append_right _ hd
    · exact List.mem_append_left _ (List.mem_flatMap.mpr ⟨child, hchild, ih child hchild hm⟩)

theorem report_of_reports (h : reports options tree = []) {m : Node Scoped}
    (hm : m ∈ tree.toList) : report options m.decoration = [] := by
  apply List.eq_nil_iff_forall_not_mem.mpr
  intro d hd
  have hmem := mem_reports hm hd
  rw [h] at hmem
  exact List.not_mem_nil hmem

end Tree

section Members

open Resolved

/-- A node that is neither what became of a node nor the node itself: an application to a candidate
or the candidate. -/
def Inserted (n : Node Resolved) : Prop :=
  n.decoration.supplied = [] ∧
    ((∃ callee argument, n.expression = .form (.application callee argument)) ∨
      ∃ name, n.expression = .identifier name)

variable {options : Options} {node n : Node Resolved}

theorem mem_toList_supplied {combination : List Candidate}
    (h : n ∈ (combination.foldr (fun candidate node => supply node candidate) node).toList) :
    n ∈ node.toList ∨ Inserted n := by
  induction combination with
  | nil => exact .inl h
  | cons candidate rest ih =>
    rcases Node.mem_toList_mk.mp h with rfl | ⟨child, hchild, hn⟩
    · exact .inr ⟨rfl, .inl ⟨_, _, rfl⟩⟩
    · simp only [Expr.children, Form.children, List.mem_cons, List.not_mem_nil, or_false] at hchild
      rcases hchild with rfl | rfl
      · exact ih hn
      · rcases Node.mem_toList_mk.mp hn with rfl | ⟨_, hnone, _⟩
        · exact .inr ⟨rfl, .inr ⟨_, rfl⟩⟩
        · simp [Expr.children] at hnone

theorem mem_toList_supplyAll {combination : List Candidate}
    (h : n ∈ (supplyAll node combination).toList) :
    n = supplyAll node combination ∨ n ∈ node.toList ∨ Inserted n := by
  rcases Node.mem_toList_mk.mp h with rfl | ⟨child, hchild, hn⟩
  · exact .inl rfl
  · right
    exact mem_toList_supplied (Node.mem_toList_of_child hchild hn)

def ofNode (options : Options) (m : Node Scoped) : Node Resolved :=
  bare (m.expression.map (resolved options)) m.decoration

theorem resolved_eq (options : Options) (m : Node Scoped) :
    resolved options m = ofNode options m ∨
      m.decoration.requirements ≠ [] ∧ ∃ combination,
        m.decoration.supplies options = [combination] ∧
          resolved options m = supplyAll (ofNode options m) combination := by
  obtain ⟨e, here⟩ := m
  rw [resolved_mk, settle]
  split
  · exact .inl rfl
  · rename_i hrequirements
    split
    · rename_i combination hsupplies
      exact .inr ⟨by simpa using hrequirements, combination, hsupplies, rfl⟩
    · exact .inl rfl

/-- Where the nodes of a resolved tree come from. -/
theorem mem_toList_resolved {tree : Node Scoped} (h : n ∈ (resolved options tree).toList) :
    (∃ m ∈ tree.toList, n = resolved options m ∨ n = ofNode options m) ∨ Inserted n := by
  induction tree using Node.induction with
  | mk e here ih =>
    have hnode : n ∈ (ofNode options ⟨e, here⟩).toList →
        (∃ m ∈ Node.toList ⟨e, here⟩, n = resolved options m ∨ n = ofNode options m) ∨
          Inserted n := by
      intro hn
      rcases Node.mem_toList_mk.mp hn with rfl | ⟨child, hchild, hn⟩
      · exact .inl ⟨_, Node.mem_toList_self _, .inr rfl⟩
      · rw [Expr.children_map] at hchild
        obtain ⟨part, hpart, rfl⟩ := List.mem_map.mp hchild
        rcases ih part hpart hn with ⟨m, hm, hmn⟩ | hinserted
        · exact .inl ⟨m, Node.mem_toList_of_child hpart hm, hmn⟩
        · exact .inr hinserted
    rcases resolved_eq options ⟨e, here⟩ with hbare | ⟨-, combination, -, hsupplied⟩
    · rw [hbare] at h
      exact hnode h
    · rw [hsupplied] at h
      rcases mem_toList_supplyAll h with rfl | hn | hinserted
      · exact .inl ⟨_, Node.mem_toList_self _, .inl hsupplied.symm⟩
      · exact hnode hn
      · exact .inr hinserted

/-- A node that something was supplied to is what became of a node. -/
theorem exists_of_supplied {tree : Node Scoped} (h : n ∈ (resolved options tree).toList)
    (hsupplied : n.decoration.supplied ≠ []) :
    ∃ m ∈ tree.toList, n = resolved options m ∧
      n.decoration.supplied ∈ m.decoration.supplies options := by
  rcases mem_toList_resolved h with ⟨m, hm, rfl | rfl⟩ | hinserted
  · rcases resolved_eq options m with hbare | ⟨-, combination, hvalid, hall⟩
    · rw [hbare] at hsupplied
      exact absurd rfl hsupplied
    · refine ⟨m, hm, rfl, ?_⟩
      rw [hvalid, hall]
      exact List.mem_singleton.mpr rfl
  · exact absurd rfl hsupplied
  · exact absurd hinserted.1 hsupplied

/-- A node that is neither an application nor an identifier stands for a node of its own kind. -/
theorem exists_of_kind {tree : Node Scoped} (h : n ∈ (resolved options tree).toList)
    (happlication : n.kind ≠ .application) (hidentifier : n.kind ≠ .identifier) :
    ∃ m ∈ tree.toList, n.expression = m.expression.map (resolved options) ∧
      n.decoration.type = m.decoration.type := by
  rcases mem_toList_resolved h with ⟨m, hm, rfl | rfl⟩ | ⟨-, ⟨_, _, he⟩ | ⟨_, he⟩⟩
  · rcases resolved_eq options m with hbare | ⟨-, combination, -, hall⟩
    · rw [hbare]
      exact ⟨m, hm, rfl, rfl⟩
    · rw [hall] at happlication ⊢
      cases combination with
      | nil => exact ⟨m, hm, rfl, rfl⟩
      | cons candidate rest => exact absurd rfl happlication
  · exact ⟨m, hm, rfl, rfl⟩
  · exact absurd (by rw [Node.kind, he]; rfl) happlication
  · exact absurd (by rw [Node.kind, he]; rfl) hidentifier

end Members

section Types

open Resolved

variable {options : Options}

theorem type_supplied (combination : List Candidate) (node : Node Resolved) :
    (combination.foldr (fun candidate node => supply node candidate) node).decoration.type =
      Value.peel^[combination.length] node.decoration.type := by
  induction combination with
  | nil => rfl
  | cons candidate rest ih =>
    rw [List.length_cons, Function.iterate_succ_apply', ← ih]
    rfl

/-- What a node loses of its implicit parameters is what was not wanted. -/
theorem type_resolved {m : Node Scoped} (h : report options m.decoration = []) :
    (resolved options m).decoration.type =
      Value.peel^[m.decoration.excess] m.decoration.type := by
  have hlength := m.decoration.length_requirements
  obtain ⟨e, here⟩ := m
  rw [resolved_mk, settle]
  by_cases hnone : here.requirements.isEmpty
  · rw [if_pos hnone]
    rw [List.isEmpty_iff.mp hnone] at hlength
    rw [← hlength]
    rfl
  · rw [if_neg hnone]
    rw [report, if_neg hnone] at h
    cases hsupplies : here.supplies options with
    | nil => simp [hsupplies] at h
    | cons combination others =>
      cases others with
      | cons _ _ => simp [hsupplies] at h
      | nil =>
        have hmem : combination ∈ here.supplies options := by simp [hsupplies]
        have hcount := (Scoped.mem_supplies_iff.mp hmem).1.length_eq
        rw [← hlength, ← hcount]
        exact type_supplied combination _

theorem type_resolved_of_consumed {m : Node Scoped} (h : report options m.decoration = [])
    (hshape : m.decoration.shape.implicitCount = 0) :
    (resolved options m).decoration.type = m.decoration.type.stripImplicits := by
  rw [type_resolved h, Scoped.excess, hshape, Nat.sub_zero, Value.iterate_peel]

end Types

end ImplicitInference
