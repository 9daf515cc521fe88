import ImplicitInference.Proofs.Accounting
import ImplicitInference.Proofs.Checking
import Mathlib.Algebra.BigOperators.Ring.List
import Mathlib.Algebra.Ring.Nat

/-!
What is left of a resolved tree when the applications to supplied parameters are passed over. A node
that had `k` parameters supplied stands under `k` applications, the outermost of which keeps the list
of what was supplied. Following that many callees leads to the node itself, so a recursion that starts
again there sees the tree as it was before resolution. None of the other passes adds, drops or moves a
node, and every supplied parameter accounts for two nodes more.
-/

namespace ImplicitInference

def Execution.option : Execution Option Unit where
  Yields x _ b _ := x = some b
  yields_pure := by
    intro β b c s t
    exact ⟨fun h => ⟨(Option.some.inj h).symm, rfl⟩, fun h => by rw [h.1]; rfl⟩
  yields_bind := by
    intro α β x f s t b
    constructor
    · intro h
      obtain ⟨a, ha, hb⟩ := Option.bind_eq_some_iff.mp h
      exact ⟨a, (), ha, hb⟩
    · rintro ⟨a, _, ha, hb⟩
      exact Option.bind_eq_some_iff.mpr ⟨a, ha, hb⟩

section Original

variable {β : Type} (step : Expr (Node Resolved × β) → Resolved → β)

namespace Node

def foldUnder? : Node Resolved → Nat → Option β :=
  para fun e d depth =>
    match depth, e with
    | 0, e =>
      (e.mapM fun (child : Node Resolved × (Nat → Option β)) =>
        (child.2 child.1.decoration.supplied.length).map (child.1, ·)).map (step · d)
    | depth + 1, .form (.application callee _) => callee.2 depth
    | _ + 1, _ => none

/-- Recursion on a resolved tree that passes over the applications to supplied parameters: from a
node with `k` of them it goes on to the node that is reached through `k` callees. -/
def foldOriginal? (n : Node Resolved) : Option β :=
  foldUnder? step n n.decoration.supplied.length

theorem foldUnder?_zero (e : Expr (Node Resolved)) (d : Resolved) :
    foldUnder? step ⟨e, d⟩ 0 =
      (e.mapM fun child => (foldOriginal? step child).map (child, ·)).map (step · d) := by
  rw [foldUnder?, para_mk, ← foldUnder?]
  exact congrArg (Option.map (step · d)) (Expr.mapM_map _ e)

theorem foldUnder?_succ (callee argument : Node Resolved) (d : Resolved) (depth : Nat) :
    foldUnder? step ⟨.form (.application callee argument), d⟩ (depth + 1) =
      foldUnder? step callee depth := by
  rw [foldUnder?, para_mk]
  rfl

def erased? : Node Resolved → Option (Node Unit) :=
  foldOriginal? fun e _ => ⟨e.map Prod.snd, ()⟩

/-- The nodes of a resolved tree, less the applications to supplied parameters and their arguments. -/
def originals? : Node Resolved → Option (List (Node Resolved)) :=
  foldOriginal? fun e d => ⟨e.map Prod.fst, d⟩ :: e.children.flatMap Prod.snd

end Node

open Node Resolved

theorem foldUnder?_supplied (combination : List Candidate) (node : Node Resolved) :
    foldUnder? step (combination.foldr (fun candidate node => supply node candidate) node)
      combination.length = foldUnder? step node 0 := by
  induction combination with
  | nil => rfl
  | cons candidate rest ih =>
    rw [← ih]
    exact foldUnder?_succ step _ _ _ _

theorem foldOriginal?_supplyAll (e : Expr (Node Resolved)) (here : Scoped)
    (combination : List Candidate) :
    foldOriginal? step (supplyAll (bare e here) combination) = foldUnder? step (bare e here) 0 := by
  cases combination with
  | nil => rfl
  | cons candidate rest =>
    rw [← foldUnder?_supplied step rest]
    exact foldUnder?_succ step _ _ _ _

variable (options : Options)

def foldScoped : Node Scoped → β :=
  Node.para fun e here =>
    step (e.map fun child => (resolved options child.1, child.2))
      { type := here.type, scope := here.scope }

theorem foldScoped_mk (e : Expr (Node Scoped)) (here : Scoped) :
    foldScoped step options ⟨e, here⟩ =
      step (e.map fun child => (resolved options child, foldScoped step options child))
        { type := here.type, scope := here.scope } := by
  rw [foldScoped, para_mk, Expr.map_map]
  rfl

/-- Passing over what was supplied undoes the resolution. -/
theorem foldOriginal?_resolved (tree : Node Scoped) :
    foldOriginal? step (resolved options tree) = some (foldScoped step options tree) := by
  induction tree using Node.induction with
  | mk e here ih =>
    have hparts : (e.map (resolved options)).mapM
        (fun child => (foldOriginal? step child).map (child, ·)) =
          some (e.map fun child => (resolved options child, foldScoped step options child)) := by
      rw [Expr.mapM_map]
      apply Expr.yields_map Execution.option
      intro child hchild
      show (foldOriginal? step (resolved options child)).map _ = _
      rw [ih child hchild]
      rfl
    have hbare : foldUnder? step (ofNode options ⟨e, here⟩) 0 =
        some (foldScoped step options ⟨e, here⟩) := by
      rw [ofNode, bare, foldUnder?_zero, hparts, foldScoped_mk]
      rfl
    rw [resolved_eq_supplyAll]
    exact (foldOriginal?_supplyAll step _ here _).trans hbare

theorem erased?_resolved (tree : Node Scoped) :
    (resolved options tree).erased? = some tree.undecorated := by
  rw [erased?, foldOriginal?_resolved]
  congr 1
  induction tree using Node.induction with
  | mk e here ih =>
    rw [foldScoped_mk, undecorated_mk, Expr.map_map]
    exact congrArg (Node.mk · ()) (Expr.map_congr ih)

theorem originals?_resolved (tree : Node Scoped) :
    (resolved options tree).originals? = some (tree.toList.map (ofNode options)) := by
  rw [originals?, foldOriginal?_resolved]
  congr 1
  induction tree using Node.induction with
  | mk e here ih =>
    rw [foldScoped_mk, toList_mk, List.map_cons, List.map_flatMap, Expr.map_map, Expr.children_map,
      List.flatMap_map, List.flatMap_def, List.flatMap_def, List.map_congr_left ih]
    rfl

end Original

section Size

open Node Resolved

def Node.suppliedCount (n : Node Resolved) : Nat :=
  (n.toList.map fun m => m.decoration.supplied.length).sum

theorem suppliedCount_eq_tally (n : Node Resolved) : n.suppliedCount = n.tally List.length := rfl

def Exceeds (n : Node Resolved) (size : Nat) : Prop := n.size = size + 2 * n.suppliedCount

theorem size_supply (node : Node Resolved) (candidate : Candidate) :
    (supply node candidate).size = node.size + 2 := by
  rw [supply, size_mk]
  simp only [Expr.children, Form.children, List.map_cons, List.map_nil, List.sum_cons, List.sum_nil,
    size_mk]
  omega

theorem size_supplyAll (combination : List Candidate) (node : Node Resolved) :
    (supplyAll node combination).size = node.size + 2 * combination.length := by
  have hinside : (combination.foldr (fun candidate node => supply node candidate) node).size =
      node.size + 2 * combination.length := by
    induction combination with
    | nil => rfl
    | cons candidate rest ih =>
      rw [List.foldr_cons, size_supply, ih, List.length_cons]
      omega
  rw [supplyAll]
  generalize combination.foldr (fun candidate node => supply node candidate) node = inside at hinside ⊢
  obtain ⟨e, d⟩ := inside
  rw [size_mk] at hinside ⊢
  exact hinside

theorem exceeds_supplyAll (combination : List Candidate) {e : Expr (Node Resolved)} {here : Scoped}
    {size : Nat} (h : Exceeds (bare e here) size) :
    Exceeds (supplyAll (bare e here) combination) size := by
  have hbare := tally_supplyAll List.length rfl [] e here
  have hall := tally_supplyAll List.length rfl combination e here
  rw [supplyAll_nil rfl, List.length_nil] at hbare
  unfold Exceeds at h ⊢
  rw [suppliedCount_eq_tally] at h ⊢
  rw [size_supplyAll]
  omega

theorem exceeds_resolved (options : Options) (tree : Node Scoped) :
    Exceeds (resolved options tree) tree.size := by
  induction tree using Node.induction with
  | mk e here ih =>
    have hbare : Exceeds (ofNode options ⟨e, here⟩) (Node.size ⟨e, here⟩) := by
      have hchildren : (e.children.map fun child => (resolved options child).size).sum =
          (e.children.map Node.size).sum +
            2 * (e.children.map fun child => (resolved options child).suppliedCount).sum := by
        rw [List.map_congr_left ih, List.sum_map_add, List.sum_map_mul_left]
      unfold Exceeds
      rw [suppliedCount_eq_tally, ofNode, bare, size_mk, tally_mk, size_mk, Expr.children_map,
        List.map_map, List.map_map]
      simp only [Function.comp_def, hchildren, suppliedCount_eq_tally, List.length_nil]
      omega
    rw [resolved_eq_supplyAll]
    exact exceeds_supplyAll _ hbare

end Size

section Check

variable {σ D : Type} [NameSource σ]

/-- Up to their decorations, the passes before resolution change nothing. -/
theorem undecorated_buildScopes {options : Options} {names : σ} {tree : Node D} {typed : Node Typed}
    (h : typeTree options tree names = .ok typed) :
    (buildScopes typed).undecorated = tree.undecorated := by
  rw [← undecorated_attachShapes tree names, ← Node.undecorated_map Scoped.typed, map_buildScopes,
    (retype_ok h).1, Node.undecorated_map]

/-- A tree that was checked is the tree that was given, with applications to supplied parameters:
passing over them gives the tree back, and each parameter adds an application and an argument. -/
theorem check_only_adds_applications (options : Options) (names : σ) (tree : Node D)
    (checked : Checked) (hchecked : check options names tree = .ok checked) :
    checked.node.erased? = some tree.undecorated ∧
      checked.node.size = tree.size + 2 * checked.node.suppliedCount := by
  obtain ⟨typed, htyped, hnode, -⟩ := check_ok hchecked
  have hsame := undecorated_buildScopes htyped
  have hsize : (buildScopes typed).size = tree.size := by
    have hsizes := congrArg Node.size hsame
    rwa [Node.size_undecorated, Node.size_undecorated] at hsizes
  rw [hnode, ← hsize]
  constructor
  · rw [erased?_resolved, hsame]
  · exact exceeds_resolved options (buildScopes typed)

def neededTwice : Node Unit :=
  .bound "b" .yes (.formed (.choice .text [(.text,
    .formed (.function .implicit .yes (.formed (.function .implicit .yes .text))))]))

theorem neededTwice_only_adds_applications :
    ∃ checked, check {} ({} : Counter) neededTwice = .ok checked ∧
      checked.node.suppliedCount = 2 ∧
      checked.node.erased? = some neededTwice.undecorated ∧
      checked.node.size = neededTwice.size + 2 * checked.node.suppliedCount := by
  have hchecks : (check {} ({} : Counter) neededTwice).toOption.any fun checked =>
      checked.node.suppliedCount = 2 := by
    decide +kernel
  obtain ⟨checked, hchecked, hcount⟩ := exists_ok_of_any hchecks
  exact ⟨checked, hchecked, of_decide_eq_true hcount,
    check_only_adds_applications {} ({} : Counter) neededTwice checked hchecked⟩

end Check

end ImplicitInference
