import ImplicitInference.Proofs.Checking
import ImplicitInference.Proofs.Table
import Mathlib.Data.List.Dedup
import Mathlib.Data.List.Induction

/-!
Scopes are lexical. On the way from the root of a tree to one of its nodes, binders are met: a `let` on
the way to its body, the identifiers of the parameter on the way to the body of a function, and those
of a test on the way to the result of its arm. These are what the node can see, and all that it can
see. A name that is met several times stands for the last of its binders and has that binder's place.
-/

namespace ImplicitInference

/-- What introduces a name: a `let`, with the node that is bound, or an identifier of a pattern, with
its decoration. -/
inductive Binder (D : Type) where
  | value (name : String) (node : Node D)
  | identifier (name : String) (decoration : D)

namespace Binder

variable {D : Type}

def name : Binder D → String
  | value name _ => name
  | identifier name _ => name

def decoration : Binder D → D
  | value _ node => node.decoration
  | identifier _ decoration => decoration

def node? : Binder D → Option (Node D)
  | value _ node => some node
  | identifier _ _ => none

end Binder

namespace Node

variable {D : Type}

def binders (pattern : Node D) : List (Binder D) :=
  pattern.boundIdentifiers.map fun bound => .identifier bound.1 bound.2

def steps (n : Node D) : List (List (Binder D) × Node D) :=
  match n.expression with
  | .binding name value body => [([], value), ([.value name value], body)]
  | .form (.function _ parameter body) => [([], parameter), (parameter.binders, body)]
  | .form (.choice subject arms) =>
    ([], subject) :: arms.flatMap fun arm => [([], arm.1), (arm.1.binders, arm.2)]
  | e => e.children.map fun child => ([], child)

/-- The node at the end of a path of positions among children, and the binders that are met on the way
to it, each with the decoration of the node that introduces it. -/
def walk (n : Node D) : List Nat → Option (List (D × Binder D) × Node D)
  | [] => some ([], n)
  | i :: path => do
    let (binders, child) ← n.steps[i]?
    let (met, last) ← child.walk path
    return (binders.map (n.decoration, ·) ++ met, last)

theorem map_snd_steps (n : Node D) : n.steps.map Prod.snd = n.expression.children := by
  obtain ⟨e, d⟩ := n
  have hdirect : (e.children.map fun child => (([] : List (Binder D)), child)).map Prod.snd =
      e.children := by
    rw [List.map_map]
    exact List.map_id _
  cases e with
  | binding name value body => rfl
  | form layer =>
    cases layer with
    | function plicity parameter body => rfl
    | choice subject arms =>
      simp [steps, Expr.children, Form.children, List.map_flatMap]
    | _ => exact hdirect
  | _ => exact hdirect

/-- A path that leads into a child leads on from there. -/
theorem walk_cons {n child last : Node D} {i : Nat} {path : List Nat} {binders : List (Binder D)}
    {met : List (D × Binder D)} (hstep : n.steps[i]? = some (binders, child))
    (hwalk : child.walk path = some (met, last)) :
    n.walk (i :: path) = some (binders.map (n.decoration, ·) ++ met, last) := by
  simp [walk, hstep, hwalk]

theorem exists_of_walk_cons {n last : Node D} {i : Nat} {path : List Nat}
    {met : List (D × Binder D)} (h : n.walk (i :: path) = some (met, last)) :
    ∃ binders child rest, n.steps[i]? = some (binders, child) ∧
      child.walk path = some (rest, last) ∧ met = binders.map (n.decoration, ·) ++ rest := by
  simp only [walk, Option.bind_eq_bind, Option.bind_eq_some_iff, Option.pure_def,
    Option.some.injEq, Prod.mk.injEq] at h
  obtain ⟨⟨binders, child⟩, hstep, ⟨rest, _⟩, hwalk, rfl, rfl⟩ := h
  exact ⟨binders, child, rest, hstep, hwalk, rfl⟩

/-- Some path leads to each node. -/
theorem exists_walk {m n : Node D} (h : m ∈ n.toList) : ∃ path met, n.walk path = some (met, m) := by
  induction n using Node.induction with
  | mk e d ih =>
    rcases mem_toList_mk.mp h with rfl | ⟨child, hchild, hm⟩
    · exact ⟨[], [], rfl⟩
    · obtain ⟨path, met, hwalk⟩ := ih child hchild hm
      have hmem : child ∈ (steps ⟨e, d⟩).map Prod.snd := by
        rw [map_snd_steps]
        exact hchild
      obtain ⟨⟨binders, _⟩, hstep, rfl⟩ := List.mem_map.mp hmem
      obtain ⟨i, hi⟩ := List.mem_iff_getElem?.mp hstep
      exact ⟨i :: path, _, walk_cons hi hwalk⟩

end Node

section Extension

theorem dedup_concat (names : List String) (name : String) :
    (names ++ [name]).dedup = names.dedup.filter (· != name) ++ [name] := by
  induction names with
  | nil => rfl
  | cons first rest ih =>
    rw [List.cons_append]
    by_cases hrest : first ∈ rest
    · rw [List.dedup_cons_of_mem hrest, ← ih]
      exact List.dedup_cons_of_mem (List.mem_append_left _ hrest)
    · rw [List.dedup_cons_of_notMem hrest]
      by_cases hname : first = name
      · rw [List.filter_cons_of_neg (by simpa using hname), ← ih]
        exact List.dedup_cons_of_mem (by simp [hname])
      · rw [List.filter_cons_of_pos (by simpa using hname), List.cons_append, ← ih]
        exact List.dedup_cons_of_notMem (by simp [hrest, hname])

namespace Scope

theorem extend_append (scope : Scope) (bindings more : List (String × Binding)) :
    scope.extend (bindings ++ more) = (scope.extend bindings).extend more := List.foldl_append

/-- Each name has the place of its last binding. -/
theorem keys_extend (bindings : List (String × Binding)) :
    (extend Table.empty bindings).keys = (bindings.map Prod.fst).dedup := by
  induction bindings using List.reverseRecOn with
  | nil => rfl
  | append_singleton bindings binding ih =>
    rw [extend_append, List.map_append]
    exact (Table.keys_append.trans (by rw [ih])).trans (dedup_concat _ _).symm

/-- A name stands for its last binding. -/
theorem get?_extend (bindings : List (String × Binding)) (name : String) :
    (extend Table.empty bindings).get? name =
      ((bindings.filter fun binding => binding.1 = name).getLast?).map Prod.snd := by
  induction bindings using List.reverseRecOn with
  | nil => rfl
  | append_singleton bindings binding ih =>
    obtain ⟨other, last⟩ := binding
    rw [extend_append, List.filter_append]
    by_cases hname : other = name
    · subst hname
      rw [List.filter_cons_of_pos (by simp), List.filter_nil, List.getLast?_concat]
      exact Table.get?_append_self
    · rw [List.filter_cons_of_neg (by simpa using hname), List.filter_nil, List.append_nil, ← ih]
      exact Table.get?_append_of_ne (Ne.symm hname)

end Scope

end Extension

section Walk

def Binder.row (scope : Scope) (binder : Binder Scoped) : String × Binding :=
  (binder.name, ⟨binder.decoration.type, scope, binder.node?.map (Node.map Scoped.typed)⟩)

theorem Scoped.type_within (tree : Node Typed) (scope : Scope) :
    (within tree scope).decoration.type = tree.decoration.type := by
  have hsame := Node.decoration_map Scoped.typed (within tree scope)
  rw [map_within] at hsame
  rw [hsame]
  rfl

theorem Scoped.rows_binders (pattern : Node Typed) (outer scope : Scope) :
    (within pattern outer).binders.map (Binder.row scope) = scope.ofPattern pattern := by
  have hsame := Node.boundIdentifiers_map Scoped.typed (within pattern outer)
  rw [map_within] at hsame
  rw [Scope.ofPattern, hsame, Node.binders, List.map_map, List.map_map]
  rfl

theorem Scoped.within_mk (e : Expr (Node Typed)) (d : Typed) (scope : Scope) :
    within ⟨e, d⟩ scope =
      ⟨enter scope (e.map fun node => (node, within node)), d.shape, d.type, scope⟩ := by
  rw [within, Node.para_mk]

/-- One step: a child stands in the scope of its parent, extended by the binders of the step. -/
theorem Scoped.steps_within (e : Expr (Node Typed)) (d : Typed) (scope : Scope) :
    ∀ step ∈ (within ⟨e, d⟩ scope).steps, ∃ child ∈ e.children,
      step.2 = within child (scope.extend (step.1.map (Binder.row scope))) := by
  have hdirect : ∀ step ∈ ((e.map fun node => (node, within node)).map fun child =>
        child.2 scope).children.map (fun child => (([] : List (Binder Scoped)), child)),
      ∃ child ∈ e.children,
        step.2 = within child (scope.extend (step.1.map (Binder.row scope))) := by
    intro step hstep
    rw [Expr.map_map, Expr.children_map, List.map_map] at hstep
    obtain ⟨child, hchild, rfl⟩ := List.mem_map.mp hstep
    exact ⟨child, hchild, rfl⟩
  rw [within_mk]
  cases e with
  | identifier name => exact hdirect
  | native implementations => exact hdirect
  | binding name value body =>
    intro step hstep
    rcases List.mem_pair.mp hstep with rfl | rfl
    · exact ⟨value, List.mem_cons_self, rfl⟩
    · refine ⟨body, List.mem_cons_of_mem _ List.mem_cons_self, ?_⟩
      rw [List.map_singleton, Binder.row, Binder.name, Binder.decoration, type_within, Binder.node?,
        Option.map_some, map_within]
  | form layer =>
    cases layer with
    | function plicity parameter body =>
      intro step hstep
      rcases List.mem_pair.mp hstep with rfl | rfl
      · exact ⟨parameter, List.mem_cons_self, rfl⟩
      · refine ⟨body, List.mem_cons_of_mem _ List.mem_cons_self, ?_⟩
        rw [rows_binders]
    | choice subject arms =>
      intro step hstep
      rcases List.mem_cons.mp hstep with rfl | hstep
      · exact ⟨subject, List.mem_cons_self, rfl⟩
      · obtain ⟨parts, hparts, hstep⟩ := List.mem_flatMap.mp hstep
        rw [List.map_map] at hparts
        obtain ⟨arm, harm, rfl⟩ := List.mem_map.mp hparts
        have hmem : ∀ part ∈ [arm.1, arm.2], part ∈ Expr.children (.form (.choice subject arms)) :=
          fun part hpart => List.mem_cons_of_mem _ (List.mem_flatMap.mpr ⟨arm, harm, hpart⟩)
        rcases List.mem_pair.mp hstep with rfl | rfl
        · exact ⟨arm.1, hmem _ List.mem_cons_self, rfl⟩
        · refine ⟨arm.2, hmem _ (List.mem_cons_of_mem _ List.mem_cons_self), ?_⟩
          show _ = within arm.2 (scope.extend ((within arm.1 scope).binders.map (Binder.row scope)))
          rw [rows_binders]
          rfl
    | _ => exact hdirect

/-- The whole way: a node stands in the scope of the root, extended by the binders that are met. -/
theorem Scoped.scope_walk {tree : Node Typed} {scope : Scope} {path : List Nat}
    {met : List (Scoped × Binder Scoped)} {n : Node Scoped}
    (h : (within tree scope).walk path = some (met, n)) :
    n.decoration.scope = scope.extend (met.map fun binder => binder.2.row binder.1.scope) := by
  induction path generalizing tree scope met with
  | nil =>
    obtain ⟨rfl, rfl⟩ := Prod.mk.inj (Option.some.inj h)
    obtain ⟨e, d⟩ := tree
    rw [within_mk]
    rfl
  | cons i path ih =>
    obtain ⟨binders, child, rest, hstep, hwalk, rfl⟩ := Node.exists_of_walk_cons h
    obtain ⟨e, d⟩ := tree
    obtain ⟨part, -, hchild⟩ := steps_within e d scope _ (List.mem_of_getElem? hstep)
    rw [show child = _ from hchild] at hwalk
    rw [ih hwalk, List.map_append, Scope.extend_append, List.map_map, within_mk]
    rfl

end Walk

/-- Scopes are lexical. Some path leads to every node of a tree with scopes, and whichever path leads to
it, the node sees the names of the binders that are met on that path, each once and in the order in
which they are met for the last time. A name stands for the last of its binders: it has the type of
what that binder binds and the scope of the construct that introduces it, and it has a node if the
binder is a `let`. -/
theorem scopes_are_lexical (tree : Node Typed) :
    (∀ n ∈ (buildScopes tree).toList, ∃ path met, (buildScopes tree).walk path = some (met, n)) ∧
    ∀ (path : List Nat) (met : List (Scoped × Binder Scoped)) (n : Node Scoped),
      (buildScopes tree).walk path = some (met, n) →
        n.decoration.scope.keys = (met.map fun binder => binder.2.name).dedup ∧
        ∀ (name : String) (construct : Scoped) (binder : Binder Scoped),
          (met.filter fun binder => binder.2.name = name).getLast? = some (construct, binder) →
            ∃ binding, n.decoration.scope.get? name = some binding ∧
              binding.type = binder.decoration.type ∧ binding.scope = construct.scope ∧
              binding.node = binder.node?.map (Node.map Scoped.typed) := by
  refine ⟨fun n hn => Node.exists_walk hn, fun path met n hwalk => ?_⟩
  have hscope := Scoped.scope_walk hwalk
  constructor
  · rw [hscope, Scope.keys_extend, List.map_map]
    rfl
  · intro name construct binder hlast
    refine ⟨(binder.row construct.scope).2, ?_, rfl, rfl, rfl⟩
    rw [hscope, Scope.get?_extend, List.filter_map, List.getLast?_map]
    exact congrArg (Option.map _) (congrArg (Option.map _) hlast)

def Node.ofType (e : Expr (Node Typed)) (type : Value) : Node Typed := ⟨e, type, type⟩

def reboundTwice : Node Typed :=
  .ofType (.binding "x" (.ofType (.form (.literal (.boolean true))) (.literal (.boolean true)))
    (.ofType (.form (.function .explicit
      (.ofType (.form (.record
        [("a", .ofType (.identifier "x") (.var "first")),
          ("b", .ofType (.identifier "y") (.var "second")),
          ("c", .ofType (.identifier "x") (.var "third"))])) (.var "parameter"))
      (.ofType (.identifier "y") (.var "second")))) (.var "function"))) (.var "whole")

theorem reboundTwice_scopes_are_lexical :
    ∃ met n, (buildScopes reboundTwice).walk [1, 1] = some (met, n) ∧
      met.map (fun binder => binder.2.name) = ["x", "x", "y", "x"] ∧
      n.decoration.scope.keys = ["y", "x"] ∧
      ∃ binding, n.decoration.scope.get? "x" = some binding ∧ binding.type = .var "third" ∧
        binding.scope.keys = ["x"] ∧ binding.node = none := by
  obtain ⟨-, hpaths⟩ := scopes_are_lexical reboundTwice
  obtain ⟨hkeys, hlast⟩ := hpaths [1, 1] _ _ rfl
  obtain ⟨binding, hbinding, htype, hscope, hnode⟩ := hlast "x" _ _ rfl
  exact ⟨_, _, rfl, rfl, hkeys, binding, hbinding, htype, congrArg Table.keys hscope, hnode⟩

end ImplicitInference
