import ImplicitInference.Proofs.Traversal

/-!
Traversals that a failure can interrupt. Their actions change a state and may fail, and after a failure
the state is the one that the failed action has left. A traversal acts on the children of a layer in their
order, up to the first that fails. Which actions are called can be seen by recording the calls in the
state.
-/

namespace ImplicitInference

section Actions

variable {σ ε α β : Type} {x : ExceptT ε (StateM σ) α} {f : α → ExceptT ε (StateM σ) β} {s t u : σ}
  {error : ε}

theorem bind_of_ok {a : α} (h : x s = (.ok a, u)) : (x >>= f) s = f a u := by
  show ExceptT.bindCont f (x s).1 (x s).2 = f a u
  rw [h]
  rfl

theorem bind_of_error (h : x s = (.error error, u)) : (x >>= f) s = (.error error, u) := by
  show ExceptT.bindCont f (x s).1 (x s).2 = (.error error, u)
  rw [h]
  rfl

/-- Of an action in two parts either the first part fails, or the second one goes on from the state that
the first has left. -/
theorem bind_cases {result : Except ε β} (h : (x >>= f) s = (result, t)) :
    (∃ error, result = .error error ∧ x s = (.error error, t)) ∨
      ∃ a u, x s = (.ok a, u) ∧ f a u = (result, t) := by
  cases hx : x s with
  | mk first u =>
    cases first with
    | error error =>
      rw [bind_of_error hx] at h
      obtain ⟨rfl, rfl⟩ := Prod.mk.inj h
      exact .inl ⟨error, rfl, rfl⟩
    | ok a =>
      rw [bind_of_ok hx] at h
      exact .inr ⟨a, u, rfl, h⟩

def Execution.interruptible (ε σ : Type) : Execution (ExceptT ε (StateM σ)) σ where
  Yields x s b t := x s = (.ok b, t)
  yields_pure := by
    intro β b c s t
    constructor
    · intro h
      obtain ⟨hb, rfl⟩ := Prod.mk.inj h
      exact ⟨(Except.ok.inj hb).symm, rfl⟩
    · rintro ⟨rfl, rfl⟩
      rfl
  yields_bind := by
    intro α β x f s t b
    constructor
    · intro h
      rcases bind_cases h with ⟨_, hok, -⟩ | hparts
      · cases hok
      · exact hparts
    · rintro ⟨a, u, hx, hf⟩
      exact (bind_of_ok hx).trans hf

end Actions

section Calls

variable {σ ε α β : Type} {f : α → ExceptT ε (StateM σ) β} {as calls : List α} {s t : σ} {error : ε}

abbrev Succeeds (f : α → ExceptT ε (StateM σ) β) : List (α × β) → σ → σ → Prop :=
  Visits fun a b s t => f a s = (.ok b, t)

/-- The calls on the members of a list up to the first that fails: those before it succeed, and nothing
is called after it. -/
inductive Interrupted (f : α → ExceptT ε (StateM σ) β) : List α → σ → List α → ε → σ → Prop
  | mk {done : List (α × β)} {a : α} {later : List α} {s u t : σ} {error : ε} :
      Succeeds f done s u → f a u = (.error error, t) →
      Interrupted f (done.map Prod.fst ++ a :: later) s (done.map Prod.fst ++ [a]) error t

theorem Interrupted.cons {a : α} {b : β} {u : σ} (hfirst : f a s = (.ok b, u))
    (h : Interrupted f as u calls error t) : Interrupted f (a :: as) s (a :: calls) error t := by
  cases h with
  | mk hdone hfails => exact .mk (.cons hfirst hdone) hfails

theorem exists_interrupted (h : as.mapM f s = (.error error, t)) :
    ∃ calls, Interrupted f as s calls error t := by
  induction as generalizing s with
  | nil => cases h
  | cons a as ih =>
    rw [List.mapM_cons] at h
    rcases bind_cases h with ⟨_, herror, hfails⟩ | ⟨b, u, hfirst, h⟩
    · rw [← Except.error.inj herror] at hfails
      exact ⟨[a], .mk .nil hfails⟩
    · rcases bind_cases h with ⟨_, herror, hrest⟩ | ⟨bs, v, -, hpure⟩
      · rw [← Except.error.inj herror] at hrest
        obtain ⟨calls, hcalls⟩ := ih hrest
        exact ⟨a :: calls, hcalls.cons hfirst⟩
      · cases hpure

theorem Interrupted.mapM_eq (h : Interrupted f as s calls error t) :
    as.mapM f s = (.error error, t) := by
  cases h with
  | @mk done a later s u t error hdone hfails =>
    induction hdone with
    | nil =>
      rw [List.map_nil, List.nil_append, List.mapM_cons]
      exact bind_of_error hfails
    | cons hfirst _ ih =>
      rw [List.map_cons, List.cons_append, List.mapM_cons, bind_of_ok hfirst]
      exact bind_of_error (ih hfails)

/-- A traversal of a layer fails as one of the list of its children does. -/
theorem Expr.mapM_error_iff {e : Expr α} :
    e.mapM f s = (.error error, t) ↔ e.children.mapM f s = (.error error, t) := by
  rw [← Expr.children_mapM, map_eq_pure_bind]
  constructor
  · exact bind_of_error
  · intro h
    rcases bind_cases h with ⟨_, herror, hfails⟩ | ⟨_, _, -, hpure⟩
    · rwa [← Except.error.inj herror] at hfails
    · cases hpure

def recorded (f : α → ExceptT ε (StateM σ) β) (a : α) : ExceptT ε (StateM (σ × List α)) β :=
  fun state => ((f a state.1).1, (f a state.1).2, state.2 ++ [a])

theorem recorded_eq {a : α} {result : Except ε β} (h : f a s = (result, t)) :
    recorded f a (s, calls) = (result, t, calls ++ [a]) := by
  rw [recorded, h]

theorem succeeds_recorded {pairs : List (α × β)} (h : Succeeds f pairs s t) :
    Succeeds (recorded f) pairs (s, calls) (t, calls ++ pairs.map Prod.fst) := by
  induction h generalizing calls with
  | nil =>
    rw [List.map_nil, List.append_nil]
    exact .nil
  | cons hfirst _ ih =>
    rw [List.map_cons, List.append_cons]
    exact .cons (recorded_eq hfirst) ih

theorem Interrupted.recorded (h : Interrupted f as s calls error t) :
    Interrupted (recorded f) as (s, []) calls error (t, calls) := by
  cases h with
  | mk hdone hfails => exact .mk (succeeds_recorded hdone) (recorded_eq hfails)

end Calls

section Children

variable {σ ε D E : Type}

structure Completed (f : Node D → ExceptT ε (StateM σ) (Node E)) (n : Node D) (s : σ)
    (out : Expr (Node E)) (t : σ) : Prop where
  calls : Succeeds f (n.children.zip out.children) s t
  length : out.children.length = n.children.length
  kind : out.kind = n.kind
  rest : out.map (fun _ => ()) = n.expression.map fun _ => ()

theorem completed_of_mapM {f : Node D → ExceptT ε (StateM σ) (Node E)} {n : Node D} {s t : σ}
    {out : Expr (Node E)} (h : n.expression.mapM f s = (.ok out, t)) :
    Completed f n s out t ∧ n.expression.mapM (recorded f) (s, []) = (.ok out, t, n.children) := by
  obtain ⟨pairs, hfst, rfl, hcalls⟩ := Expr.yields_mapM (Execution.interruptible ε σ) h
  have hchildren : n.children = pairs.children.map Prod.fst := by
    rw [Node.children, ← hfst, Expr.children_map]
  refine ⟨⟨?_, ?_, ?_, ?_⟩, ?_⟩
  · rw [hchildren, Expr.children_map, ← List.zip_of_prod rfl rfl]
    exact hcalls
  · rw [hchildren, Expr.children_map, List.length_map, List.length_map]
  · rw [Node.kind, ← hfst, Expr.kind_map, Expr.kind_map]
  · rw [← hfst, Expr.map_map, Expr.map_map]
    rfl
  · rw [hchildren, ← hfst]
    exact Expr.mapM_of_visits (Execution.interruptible ε _) (succeeds_recorded hcalls)

/-- A map on trees that recurs: what it makes of a node has the kind and the size of the layer that it
makes of the node's children. -/
def Recurs (g : Node D → ExceptT ε (StateM σ) (Node E)) : Prop :=
  ∀ n s m t, g n s = (.ok m, t) → ∃ layer u v, n.expression.mapM g u = (.ok layer, v) ∧
    m.kind = layer.kind ∧ m.size = Node.size ⟨layer, m.decoration⟩

theorem recurs_rebuildM {step : Expr (Node E) → D → ExceptT ε (StateM σ) (Node E)}
    (hstep : ∀ e d s m t, step e d s = (.ok m, t) →
      m.kind = e.kind ∧ m.size = Node.size ⟨e, m.decoration⟩) : Recurs (Node.rebuildM step) := by
  rintro ⟨e, d⟩ s m t h
  rw [Node.rebuildM_mk] at h
  rcases bind_cases h with ⟨_, hok, -⟩ | ⟨layer, u, hlayer, hhere⟩
  · cases hok
  · exact ⟨layer, s, u, hlayer, hstep _ _ _ _ _ hhere⟩

theorem Recurs.size_eq {g : Node D → ExceptT ε (StateM σ) (Node E)} (h : Recurs g) {n : Node D}
    {m : Node E} {s t : σ} (hm : g n s = (.ok m, t)) : m.size = n.size := by
  induction n using Node.induction generalizing m s t with
  | mk e d ih =>
    obtain ⟨layer, u, v, hlayer, -, hsize⟩ := h _ _ _ _ hm
    obtain ⟨pairs, rfl, rfl, hcalls⟩ := Expr.yields_mapM (Execution.interruptible ε σ) hlayer
    have hmapped : ∀ pair ∈ pairs.children, ∃ s t, g pair.1 s = (.ok pair.2, t) :=
      hcalls.forall_mem (Q := fun a b => ∃ s t, g a s = (.ok b, t)) fun _ _ u v hcall => ⟨u, v, hcall⟩
    have hsizes : ∀ pair ∈ pairs.children, pair.2.size = pair.1.size := by
      intro pair hpair
      obtain ⟨s, t, hcall⟩ := hmapped pair hpair
      exact ih pair.1 (Expr.mem_children_map hpair) hcall
    rw [hsize, Node.size_mk, Node.size_mk, Expr.children_map, Expr.children_map, List.map_map,
      List.map_map]
    exact congrArg (fun sizes => 1 + sizes.sum) (List.map_congr_left hsizes)

end Children

/-- A traversal with an action that may fail calls it on the children of a node, in their order. Either all
calls succeed, each from the state that the one before it has left, and the outcome is a layer of the same
kind, with the mapped children in the places of the children and everything else as it was; or the first
call that fails is the last one that is made, and its error and the state that it leaves are the outcome.
Hence a map that recurs in this way, and keeps the kind and the size of each layer it has mapped, keeps the
size of a tree. -/
theorem traversal_calls_children_in_order {σ ε D E : Type} :
    (∀ (n : Node D) (f : Node D → ExceptT ε (StateM σ) (Node E)) (s : σ),
      (∃ out t, n.expression.mapM f s = (.ok out, t) ∧ Completed f n s out t ∧
        n.expression.mapM (recorded f) (s, []) = (.ok out, t, n.children)) ∨
      ∃ error t calls, n.expression.mapM f s = (.error error, t) ∧
        Interrupted f n.children s calls error t ∧
        n.expression.mapM (recorded f) (s, []) = (.error error, t, calls)) ∧
    ∀ g : Node D → ExceptT ε (StateM σ) (Node E), Recurs g →
      ∀ n s m t, g n s = (.ok m, t) → m.kind = n.kind ∧ m.size = n.size := by
  constructor
  · intro n f s
    cases hrun : n.expression.mapM f s with
    | mk result t =>
      cases result with
      | ok out =>
        obtain ⟨hcompleted, hrecorded⟩ := completed_of_mapM hrun
        exact .inl ⟨out, t, rfl, hcompleted, hrecorded⟩
      | error error =>
        obtain ⟨calls, hcalls⟩ := exists_interrupted (Expr.mapM_error_iff.mp hrun)
        exact .inr ⟨error, t, calls, rfl, hcalls, Expr.mapM_error_iff.mpr hcalls.recorded.mapM_eq⟩
  · intro g hrecurs n s m t hm
    obtain ⟨layer, u, v, hlayer, hkind, -⟩ := hrecurs n s m t hm
    exact ⟨hkind.trans (completed_of_mapM hlayer).1.kind, hrecurs.size_eq hm⟩

def numberUnless (unknown : String) : Node Unit → ExceptT String (StateM Nat) (Node Nat) :=
  Node.rebuildM fun e _ k =>
    if e.map (fun _ => ()) = .identifier unknown then (.error unknown, k) else (.ok ⟨e, k⟩, k + 1)

theorem recurs_numberUnless (unknown : String) : Recurs (numberUnless unknown) := by
  refine recurs_rebuildM fun e d k m t h => ?_
  split at h
  · cases h
  · cases h
    exact ⟨rfl, rfl⟩

def twoArms : Node Unit :=
  let name (text : String) : Node Unit := ⟨.identifier text, ()⟩
  ⟨.form (.choice (name "x") [(name "a", name "b"), (name "c", name "d")]), ()⟩

theorem twoArms_calls_in_order :
    (∃ calls, Interrupted (numberUnless "b") twoArms.children 0 calls "b" 2 ∧
      calls.map Node.render = ["x", "a", "b"]) ∧
    Recurs (numberUnless "z") ∧ ∃ m, numberUnless "z" twoArms 0 = (.ok m, 6) ∧ m.size = 6 := by
  obtain ⟨houtcome, hsize⟩ := traversal_calls_children_in_order (σ := Nat) (ε := String) (D := Unit)
    (E := Nat)
  constructor
  · have hrun : twoArms.expression.mapM (numberUnless "b") 0 = (.error "b", 2) := rfl
    have hnames : (twoArms.expression.mapM (recorded (numberUnless "b")) (0, [])).2.2.map Node.render =
        ["x", "a", "b"] := by decide +kernel
    rcases houtcome twoArms (numberUnless "b") 0 with
      ⟨out, t, hok, -⟩ | ⟨error, t, calls, herror, hcalls, hrecorded⟩
    · rw [hrun] at hok
      cases hok
    · rw [hrun] at herror
      cases herror
      rw [hrecorded] at hnames
      exact ⟨calls, hcalls, hnames⟩
  · refine ⟨recurs_numberUnless "z", _, rfl, ?_⟩
    exact (hsize _ (recurs_numberUnless "z") twoArms 0 _ 6 rfl).2

end ImplicitInference
