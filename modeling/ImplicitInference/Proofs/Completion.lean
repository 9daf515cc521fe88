import ImplicitInference.Proofs.Checking
import ImplicitInference.Proofs.Naming

/-!
When a tree is checked to the end. The constraints of a tree are taken up before anything that is
learned from them, and the equation of the root is the last of them. So with fewer steps than
constraints the root has no entry and cannot be typed, while otherwise every node has one, since no
node is equated with its own name. Then the only thing that stops typing is a native expression
without implementations, and the first of them is reported.
-/

namespace ImplicitInference

section Stopping

variable {ε α β : Type} {f : α → Except ε β} {g : α → β} {stops : α → Option ε}

/-- A list whose members stop or not is stopped by the first one that does. -/
theorem mapM_elim {as : List α} (h : ∀ a ∈ as, f a = (stops a).elim (.ok (g a)) .error) :
    as.mapM f = (as.findSome? stops).elim (.ok (as.map g)) .error := by
  induction as with
  | nil => rfl
  | cons a as ih =>
    obtain ⟨ha, has⟩ := List.forall_mem_cons.mp h
    rw [List.mapM_cons, ha, ih has, List.findSome?_cons]
    cases stops a with
    | some stopped => rfl
    | none =>
      cases as.findSome? stops with
      | some stopped => rfl
      | none => rfl

theorem findSome?_congr {others : α → Option ε} {as : List α} (h : ∀ a ∈ as, stops a = others a) :
    as.findSome? stops = as.findSome? others := by
  induction as with
  | nil => rfl
  | cons a as ih =>
    obtain ⟨ha, has⟩ := List.forall_mem_cons.mp h
    rw [List.findSome?_cons, List.findSome?_cons, ha, ih has]

theorem Expr.mapM_elim {e : Expr α}
    (h : ∀ a ∈ e.children, f a = (stops a).elim (.ok (g a)) .error) :
    e.mapM f = (e.children.findSome? stops).elim (.ok (e.map g)) .error := by
  cases hstops : e.children.findSome? stops with
  | none =>
    apply Expr.yields_map (Execution.except ε)
    intro a ha
    have hnone := List.findSome?_eq_none_iff.mp hstops a ha
    rw [h a ha, hnone]
    rfl
  | some stopped =>
    have hchildren := Expr.children_mapM (f := f) e
    rw [ImplicitInference.mapM_elim h, hstops] at hchildren
    cases houtcome : e.mapM f with
    | ok out =>
      rw [houtcome] at hchildren
      cases hchildren
    | error stopped' =>
      rw [houtcome] at hchildren
      cases hchildren
      rfl

end Stopping

def Expr.isEmptyNative {α : Type} : Expr α → Bool
  | .native [] => true
  | _ => false

theorem Expr.isEmptyNative_map {α β : Type} (f : α → β) (e : Expr α) :
    (e.map f).isEmptyNative = e.isEmptyNative := by
  cases e with
  | native implementations => cases implementations <;> rfl
  | _ => rfl

section Retype

variable {entries : Table Entry} {values : Table Value}

def Typed.stop? {α : Type} (entries : Table Entry) (values : Table Value) (e : Expr α)
    (shaped : Shaped) : Option TypingError :=
  if e.isEmptyNative then some (.emptyNative shaped.name)
  else match ofShaped entries values shaped with
    | .ok _ => none
    | .error stopped => some stopped

theorem Typed.stop?_map {α β : Type} (f : α → β) (e : Expr α) (shaped : Shaped) :
    Typed.stop? entries values (e.map f) shaped = Typed.stop? entries values e shaped := by
  rw [Typed.stop?, Expr.isEmptyNative_map, Typed.stop?]

theorem attach_eq_elim (e : Expr (Node Typed)) (shaped : Shaped) :
    Typed.attach entries values e shaped = (Typed.stop? entries values e shaped).elim
      (.ok ⟨e, Typed.given entries values shaped⟩) .error := by
  unfold Typed.given
  cases hshaped : Typed.ofShaped entries values shaped <;> cases e with
  | native implementations =>
    cases implementations <;>
      simp [Typed.attach, Typed.stop?, hshaped, Expr.isEmptyNative, Except.map]
  | _ => simp [Typed.attach, Typed.stop?, hshaped, Expr.isEmptyNative, Except.map]

/-- Why typing stops: the first reason, with the children of a node before the node. -/
def stop? (entries : Table Entry) (values : Table Value) : Node Shaped → Option TypingError :=
  Node.fold fun e shaped => (e.children.findSome? id).or (Typed.stop? entries values e shaped)

theorem stop?_mk (e : Expr (Node Shaped)) (d : Shaped) : stop? entries values ⟨e, d⟩ =
    (e.children.findSome? (stop? entries values)).or (Typed.stop? entries values e d) := by
  rw [stop?, Node.fold_mk, Expr.children_map, List.findSome?_map, Typed.stop?_map]
  rfl

theorem retype_eq_elim (shaped : Node Shaped) : retype entries values shaped =
    (stop? entries values shaped).elim (.ok (shaped.map (Typed.given entries values))) .error := by
  induction shaped using Node.induction with
  | mk e d ih =>
    rw [retype, Node.rebuildM_mk, ← retype, Expr.mapM_elim ih, stop?_mk, Node.map_mk]
    cases e.children.findSome? (stop? entries values) with
    | some stopped => rfl
    | none =>
      show Typed.attach entries values _ d = _
      rw [attach_eq_elim, Typed.stop?_map, Option.none_or]

def stopped? (shaped : Node Shaped) : Option TypingError :=
  (shaped.toList.find? fun m => m.expression.isEmptyNative).map fun m =>
    .emptyNative m.decoration.name

theorem stopped?_mk {e : Expr (Node Shaped)} (d : Shaped) (h : ¬ e.isEmptyNative) :
    stopped? ⟨e, d⟩ = e.children.findSome? stopped? := by
  rw [stopped?, Node.toList_mk,
    List.find?_cons_of_neg (p := fun m : Node Shaped => m.expression.isEmptyNative) h,
    List.find?_flatMap, List.map_findSome?]
  rfl

theorem stop?_eq_stopped? {shaped : Node Shaped}
    (h : ∀ m ∈ shaped.toList,
      Typed.ofShaped entries values m.decoration = .ok (Typed.given entries values m.decoration)) :
    stop? entries values shaped = stopped? shaped := by
  induction shaped using Node.induction with
  | mk e d ih =>
    have hchildren : e.children.findSome? (stop? entries values) = e.children.findSome? stopped? := by
      apply findSome?_congr
      intro child hchild
      exact ih child hchild fun m hm => h m (Node.mem_toList_of_child hchild hm)
    have hhere : Typed.ofShaped entries values d = .ok (Typed.given entries values d) :=
      h _ (Node.mem_toList_self _)
    rw [stop?_mk, hchildren, Typed.stop?, hhere]
    by_cases hempty : e.isEmptyNative
    · cases e with
      | native implementations =>
        cases implementations with
        | nil => rfl
        | cons _ _ => cases hempty
      | _ => cases hempty
    · rw [stopped?_mk d hempty, if_neg hempty, Option.or_none]

/-- If every node has an entry, typing is stopped by the first native expression without
implementations, and by nothing else. -/
theorem retype_eq {shaped : Node Shaped}
    (h : ∀ m ∈ shaped.toList,
      Typed.ofShaped entries values m.decoration = .ok (Typed.given entries values m.decoration)) :
    retype entries values shaped =
      (stopped? shaped).elim (.ok (shaped.map (Typed.given entries values))) .error := by
  rw [retype_eq_elim, stop?_eq_stopped? h]

end Retype

section Entries

variable {σ D : Type} [NameSource σ] {options : Options} {names : σ} {tree : Node D}

/-- A variable with an entry has a value as well. -/
theorem ofShaped_of_entry {entries : Table Entry} {shaped : Shaped} {entry : Entry}
    (h : entries.get? shaped.name = some entry) :
    Typed.ofShaped entries (simplify entries).values shaped =
      .ok (Typed.given entries (simplify entries).values shaped) := by
  rw [Typed.given, Typed.ofShaped, h, Simplification.get?_simplify (Table.mem_keys_of_get? h)]

/-- With a step for every constraint, every node gets an entry. -/
theorem exists_entry (hlimit : (attachShapes tree names).constraints.length ≤ options.reductionLimit)
    (hproper : Proper (attachShapes tree names).node) {m : Node Shaped}
    (hm : m ∈ (attachShapes tree names).node.toList) :
    ∃ entry, (reduceTree options tree names).entries.get? m.decoration.name = some entry := by
  have hown := ((sketched_attachShapes tree names).1 m hm).own_mem
  have htaken := takes_of_reduce (P := fun _ => True) hlimit (fun _ _ => trivial) _ hown
  obtain ⟨entry, hentry, -⟩ := htaken.resolve_left (hproper.own_not_isTrivial hm)
  exact ⟨entry, hentry⟩

/-- With fewer steps than constraints, the root has no entry. -/
theorem limit_of_typeTree {typed : Node Typed} (h : typeTree options tree names = .ok typed)
    (hnodup : (attachShapes tree names).node.names.Nodup) :
    (attachShapes tree names).constraints.length ≤ options.reductionLimit := by
  obtain ⟨before, hlist, hbefore⟩ := own_comes_last tree (d := ⟨names, []⟩) rfl
  rw [Node.names_eq] at hnodup
  have hbelow : ∀ c ∈ before, c.var ≠ (attachShapes tree names).node.decoration.name := by
    intro c hc heq
    exact (List.nodup_cons.mp hnodup).1 (heq ▸ hbefore c hc)
  have hconstraints : (attachShapes tree names).constraints =
      before ++ [Shaped.own (attachShapes tree names).node] := hlist
  by_contra hlimit
  rw [hconstraints, List.length_append, List.length_singleton] at hlimit
  obtain ⟨-, entry, -, hentry, -⟩ := ofShaped_ok ((retype_ok h).2 _ (Node.mem_toList_self _))
  rw [reduceTree, hconstraints, frame_of_reduce (by omega) hbelow] at hentry
  cases hentry

/-- Once a tree is typed, nothing stops the check. -/
theorem check_eq (options : Options) (names : σ) (tree : Node D) : ∃ finish : Node Typed → Checked,
    check options names tree = typeTree options tree names >>= fun typed => pure (finish typed) :=
  ⟨_, rfl⟩

end Entries

section Counter

variable {D : Type} {tree : Node D}

/-- With a step for every constraint, typing stops at native expressions without implementations
only. -/
theorem typeTree_eq {options : Options}
    (hlimit : (attachShapes tree ({} : Counter)).constraints.length ≤ options.reductionLimit)
    (hproper : Proper (attachShapes tree ({} : Counter)).node) :
    ∃ typed, typeTree options tree ({} : Counter) =
      (stopped? (attachShapes tree ({} : Counter)).node).elim (.ok typed) .error := by
  refine ⟨_, retype_eq fun m hm => ?_⟩
  obtain ⟨entry, hentry⟩ := exists_entry hlimit hproper hm
  exact ofShaped_of_entry hentry

theorem isEmptyNative_of_undecorated {D' : Type} {n : Node D} {n' : Node D'}
    (h : n.undecorated = n'.undecorated) (hn : ∃ m ∈ n.toList, m.expression.isEmptyNative) :
    ∃ m ∈ n'.toList, m.expression.isEmptyNative := by
  obtain ⟨m, hm, hempty⟩ := hn
  obtain ⟨m', hm', hsame⟩ := Node.exists_of_undecorated h hm
  refine ⟨m', hm', ?_⟩
  rwa [← Expr.isEmptyNative_map Node.undecorated, hsame, Expr.isEmptyNative_map]

theorem stopped?_eq_none_iff :
    stopped? (attachShapes tree ({} : Counter)).node = none ↔
      ∀ n ∈ tree.toList, ¬ n.expression.isEmptyNative := by
  have hsame := undecorated_attachShapes tree ({} : Counter)
  rw [stopped?, Option.map_eq_none_iff, List.find?_eq_none]
  constructor
  · intro h n hn hempty
    obtain ⟨m, hm, hempty⟩ := isEmptyNative_of_undecorated hsame.symm ⟨n, hn, hempty⟩
    exact h m hm hempty
  · intro h m hm hempty
    obtain ⟨n, hn, hempty⟩ := isEmptyNative_of_undecorated hsame ⟨m, hm, hempty⟩
    exact h n hn hempty

/-- A tree with no more nodes than can be numbered, whose identifiers do not refer to names of nodes,
is checked to the end exactly if it has no native expression without implementations and there are
as many steps as constraints. If there are, then what stops the check is the first such native
expression. -/
theorem check_succeeds_iff (options : Options) (tree : Node D) (hsize : tree.size < 2 ^ 64)
    (hrefers : ∀ n ∈ tree.toList, ∀ name ∈ (attachShapes tree ({} : Counter)).node.names,
      ¬ n.expression.refersTo name) :
    ((∃ checked, check options ({} : Counter) tree = .ok checked) ↔
      (∀ n ∈ tree.toList, ¬ n.expression.isEmptyNative) ∧
        (attachShapes tree ({} : Counter)).constraints.length ≤ options.reductionLimit) ∧
    ((attachShapes tree ({} : Counter)).constraints.length ≤ options.reductionLimit →
      (∃ n ∈ tree.toList, n.expression.isEmptyNative) →
        ∃ first, (attachShapes tree ({} : Counter)).node.toList.find?
            (fun m => m.expression.isEmptyNative) = some first ∧
          check options ({} : Counter) tree = .error (.emptyNative first.decoration.name)) := by
  have hproper := proper_counter tree hsize hrefers
  obtain ⟨finish, hcheck⟩ := check_eq options ({} : Counter) tree
  rw [← stopped?_eq_none_iff]
  refine ⟨⟨?_, ?_⟩, ?_⟩
  · rintro ⟨checked, hchecked⟩
    obtain ⟨typed, htyped, -⟩ := check_ok hchecked
    have hlimit := limit_of_typeTree htyped (nodup_names tree hsize)
    refine ⟨?_, hlimit⟩
    obtain ⟨typed', htyped'⟩ := typeTree_eq hlimit hproper
    rw [htyped] at htyped'
    cases hstopped : stopped? (attachShapes tree ({} : Counter)).node with
    | none => rfl
    | some stopped =>
      rw [hstopped] at htyped'
      cases htyped'
  · rintro ⟨hnone, hlimit⟩
    obtain ⟨typed, htyped⟩ := typeTree_eq hlimit hproper
    rw [hnone] at htyped
    rw [hcheck, htyped]
    exact ⟨finish typed, rfl⟩
  · rintro hlimit ⟨n, hn, hempty⟩
    obtain ⟨typed, htyped⟩ := typeTree_eq hlimit hproper
    cases hfirst : (attachShapes tree ({} : Counter)).node.toList.find?
        (fun m => m.expression.isEmptyNative) with
    | none =>
      have hnone : stopped? (attachShapes tree ({} : Counter)).node = none := by
        rw [stopped?, hfirst]
        rfl
      exact absurd hempty (stopped?_eq_none_iff.mp hnone n hn)
    | some first =>
      refine ⟨first, rfl, ?_⟩
      rw [stopped?, hfirst] at htyped
      rw [hcheck, htyped]
      rfl

def emptyNatives : Node Unit :=
  .formed (.record [("a", .plain (.native [("js", "1")])), ("b", .cell (.plain (.native []))),
    ("c", .plain (.native []))])

theorem mixedTree_check_succeeds_iff :
    (∃ checked, check {} ({} : Counter) mixedTree = .ok checked) ∧
      (¬ ∃ checked, check { reductionLimit := 30 } ({} : Counter) mixedTree = .ok checked) ∧
      check {} ({} : Counter) emptyNatives = .error (.emptyNative "nodeNativeType$1") := by
  have hmixed := fun options => check_succeeds_iff options mixedTree (by decide) (by decide +kernel)
  refine ⟨(hmixed {}).1.mpr (by decide +kernel), ?_, ?_⟩
  · intro hchecked
    exact absurd ((hmixed _).1.mp hchecked).2 (by decide +kernel)
  · obtain ⟨first, hfirst, hstopped⟩ :=
      (check_succeeds_iff {} emptyNatives (by decide) (by decide +kernel)).2 (by decide +kernel)
        (by decide +kernel)
    have hname : ((attachShapes emptyNatives ({} : Counter)).node.toList.find?
        fun m => m.expression.isEmptyNative).map (fun m => m.decoration.name) =
          some "nodeNativeType$1" := by
      decide +kernel
    rw [hfirst] at hname
    rw [hstopped, show first.decoration.name = _ from Option.some.inj hname]

end Counter

end ImplicitInference
