import ImplicitInference.Proofs.Renaming
import ImplicitInference.Proofs.Shaping

/-!
Two sources of names. Which stems a source is asked for while a tree is shaped depends on the tree
alone. If one source answers all of them with what a renaming makes of the answers of another, and
the renaming keeps the names that are written in the tree, then the one source leads to the shapes and
constraints that the other leads to, renamed. This is shown action by action: two actions keep step if
corresponding answers give them corresponding results.
-/

namespace ImplicitInference

section Written

variable {α β D : Type}

def Expr.written : Expr α → List String
  | .identifier name => [name]
  | .binding name _ _ => [name]
  | _ => []

theorem Expr.written_map (f : α → β) (e : Expr α) : (e.map f).written = e.written := by
  cases e <;> rfl

def Node.writtenNames (n : Node D) : List String := n.toList.flatMap fun m => m.expression.written

end Written

/-- A traversal keeps the layer. -/
theorem exists_pairs_of_mapM {σ α β : Type} (f : α → StateM σ β) (e : Expr α) (s : σ) :
    ∃ pairs : Expr (α × β), pairs.map Prod.fst = e ∧ pairs.map Prod.snd = (e.mapM f s).1 := by
  obtain ⟨pairs, hlayer, hout, -⟩ := Expr.yields_mapM (Execution.state σ)
    (show e.mapM f s = ((e.mapM f s).1, (e.mapM f s).2) from rfl)
  exact ⟨pairs, hlayer, hout⟩

section Actions

variable {σ τ α β γ δ : Type} [NameSource σ] [NameSource τ] (ρ : Equiv.Perm String)

/-- Two drafts with corresponding constraints, whose sources have corresponding answers to stems. -/
structure Alongside (stems : List String) (d : Draft σ) (e : Draft τ) : Prop where
  answers : (draw stems e.names).1 = (draw stems d.names).1.map ρ
  constraints : e.constraints = d.constraints.map (Constraint.rename ρ ρ)

structure Onward (stems : List String) (d d' : Draft σ) (e e' : Draft τ) : Prop where
  left : d'.names = (draw stems d.names).2
  right : e'.names = (draw stems e.names).2
  constraints : e'.constraints = d'.constraints.map (Constraint.rename ρ ρ)

/-- Two actions ask for the same stems, and corresponding answers lead to corresponding results. -/
def InStep (stems : List String) (f : α → β) (x : StateM (Draft σ) α) (y : StateM (Draft τ) β) :
    Prop :=
  ∀ d e, Alongside ρ stems d e → (y e).1 = f (x d).1 ∧ Onward ρ stems d (x d).2 e (y e).2

variable {ρ} {stems more : List String} {d d' : Draft σ} {e e' : Draft τ}

theorem Alongside.split (h : Alongside ρ (stems ++ more) d e) :
    Alongside ρ stems d e ∧
      (draw more (draw stems e.names).2).1 = (draw more (draw stems d.names).2).1.map ρ := by
  have hanswers := h.answers
  rw [draw_append, draw_append, List.map_append] at hanswers
  have hlength : (draw stems e.names).1.length = ((draw stems d.names).1.map ρ).length := by
    rw [List.length_map, length_draw, length_draw]
  obtain ⟨hfirst, hsecond⟩ := List.append_inj hanswers hlength
  exact ⟨⟨hfirst, h.constraints⟩, hsecond⟩

theorem Onward.alongside (h : Onward ρ stems d d' e e')
    (hmore : (draw more (draw stems e.names).2).1 = (draw more (draw stems d.names).2).1.map ρ) :
    Alongside ρ more d' e' := by
  refine ⟨?_, h.constraints⟩
  rw [h.left, h.right, hmore]

theorem Onward.trans {d'' : Draft σ} {e'' : Draft τ} (h : Onward ρ stems d d' e e')
    (h' : Onward ρ more d' d'' e' e'') : Onward ρ (stems ++ more) d d'' e e'' where
  left := by rw [h'.left, h.left, draw_append]
  right := by rw [h'.right, h.right, draw_append]
  constraints := h'.constraints

namespace InStep

theorem pure {f : α → β} {a : α} {b : β} (h : b = f a) :
    InStep ρ [] f (Pure.pure a : StateM (Draft σ) α) (Pure.pure b : StateM (Draft τ) β) :=
  fun _ _ halong => ⟨h, rfl, rfl, halong.constraints⟩

section Bind

variable {f : α → β} {g : γ → δ} {x : StateM (Draft σ) α} {y : StateM (Draft τ) β}
  {p : α → StateM (Draft σ) γ} {q : β → StateM (Draft τ) δ}

theorem bind_result (hx : InStep ρ stems f x y)
    (hp : ∀ d, InStep ρ more g (p (x d).1) (q (f (x d).1))) :
    InStep ρ (stems ++ more) g (x >>= p) (y >>= q) := by
  intro d e halong
  obtain ⟨hfirst, hmore⟩ := halong.split
  obtain ⟨hresult, honward⟩ := hx d e hfirst
  have hnext := hp d (x d).2 (y e).2 (honward.alongside hmore)
  rw [← hresult] at hnext
  exact ⟨hnext.1, honward.trans hnext.2⟩

theorem bind (hx : InStep ρ stems f x y) (hp : ∀ a, InStep ρ more g (p a) (q (f a))) :
    InStep ρ (stems ++ more) g (x >>= p) (y >>= q) := hx.bind_result fun d => hp (x d).1

theorem seq {p : StateM (Draft σ) γ} {q : StateM (Draft τ) δ} (hx : InStep ρ stems f x y)
    (hp : InStep ρ more g p q) :
    InStep ρ (stems ++ more) g (x >>= fun _ => p) (y >>= fun _ => q) := hx.bind fun _ => hp

end Bind

theorem of_eq {f : α → β} {x : StateM (Draft σ) α} {y : StateM (Draft τ) β}
    (h : InStep ρ stems f x y) (heq : stems = more) : InStep ρ more f x y := heq ▸ h

theorem constrain (c : Constraint) : InStep ρ [] id (Draft.constrain c : StateM (Draft σ) Unit)
    (Draft.constrain (c.rename ρ ρ) : StateM (Draft τ) Unit) := by
  intro d e halong
  refine ⟨rfl, rfl, rfl, ?_⟩
  show e.constraints ++ [_] = (d.constraints ++ [c]).map _
  rw [halong.constraints, List.map_append]
  rfl

theorem fresh (stem : String) : InStep ρ [stem] ρ (Draft.fresh stem : StateM (Draft σ) String)
    (Draft.fresh stem : StateM (Draft τ) String) :=
  fun _ _ halong => ⟨(List.cons.inj halong.answers).1, rfl, rfl, halong.constraints⟩

theorem freshVar (stem : String) :
    InStep ρ [stem] (Value.rename ρ) (Draft.freshVar stem : StateM (Draft σ) Value)
      (Draft.freshVar stem : StateM (Draft τ) Value) := by
  rw [Draft.freshVar, Draft.freshVar, map_eq_pure_bind, map_eq_pure_bind]
  exact (fresh stem).bind fun name => pure (Value.rename_var ρ name).symm

theorem freshVars (stem : String) (n : Nat) :
    InStep ρ (List.replicate n stem) (List.map (Value.rename ρ))
      ((List.replicate n stem).mapM Draft.freshVar : StateM (Draft σ) (List Value))
      ((List.replicate n stem).mapM Draft.freshVar : StateM (Draft τ) (List Value)) := by
  induction n with
  | zero => exact pure rfl
  | succ n ih =>
    rw [List.replicate_succ, List.mapM_cons, List.mapM_cons]
    refine (freshVar stem).bind fun v => ?_
    exact of_eq (ih.bind fun vs => pure (by rw [List.map_cons])) (List.append_nil _)

/-- Actions on the members of a list, one after the other, keep step if the actions do. -/
theorem visits {pairs : List (α × β)} {asks : α → List String} {f : β → γ}
    {x : α → StateM (Draft σ) β} {y : α → StateM (Draft τ) γ}
    (h : ∀ pair ∈ pairs, InStep ρ (asks pair.1) f (x pair.1) (y pair.1))
    (hvisits : Visits (fun a b s t => (Execution.state _).Yields (x a) s b t) pairs d d')
    (halong : Alongside ρ ((pairs.map Prod.fst).flatMap asks) d e) :
    ∃ e', Visits (fun a c s t => (Execution.state _).Yields (y a) s c t)
        (pairs.map (Prod.map id f)) e e' ∧
      Onward ρ ((pairs.map Prod.fst).flatMap asks) d d' e e' := by
  induction hvisits generalizing e with
  | nil => exact ⟨e, .nil, rfl, rfl, halong.constraints⟩
  | @cons a b rest d u t hfirst _ ih =>
    obtain ⟨hhere, hmore⟩ := halong.split
    obtain ⟨hresult, honward⟩ := h (a, b) List.mem_cons_self d e hhere
    rw [show x a d = (b, u) from hfirst] at hresult honward
    obtain ⟨e', hlater, hend⟩ := ih (fun pair hmem => h pair (List.mem_cons_of_mem _ hmem))
      (honward.alongside hmore)
    exact ⟨e', .cons (Prod.ext hresult rfl) hlater, honward.trans hend⟩

theorem mapM {layer : Expr α} {asks : α → List String} {f : β → γ} {x : α → StateM (Draft σ) β}
    {y : α → StateM (Draft τ) γ} (h : ∀ a ∈ layer.children, InStep ρ (asks a) f (x a) (y a)) :
    InStep ρ (layer.children.flatMap asks) (Expr.map f) (layer.mapM x) (layer.mapM y) := by
  intro d e halong
  obtain ⟨pairs, rfl, hout, hvisits⟩ := Expr.yields_mapM (Execution.state (Draft σ))
    (show layer.mapM x d = ((layer.mapM x d).1, (layer.mapM x d).2) from rfl)
  rw [Expr.children_map] at halong h ⊢
  obtain ⟨e', hlater, honward⟩ := visits (fun pair hpair => h pair.1 (List.mem_map_of_mem hpair))
    hvisits halong
  rw [← Expr.children_map] at hlater
  have hrun := Expr.mapM_of_visits (Execution.state (Draft τ)) hlater
  rw [Expr.map_map, Expr.map_map] at hrun
  have hstate : (pairs.map Prod.fst).mapM y e = ((pairs.map Prod.snd).map f, e') := by
    rw [Expr.map_map]
    exact hrun
  rw [hstate, ← hout]
  exact ⟨rfl, honward⟩

end InStep

end Actions

section Shaping

variable {σ τ : Type} [NameSource σ] [NameSource τ] {ρ : Equiv.Perm String}
  {ask : Relation → String → Value → StateM (Draft σ) Unit}
  {ask' : Relation → String → Value → StateM (Draft τ) Unit}

theorem inStep_arms (hask : ∀ relation var value,
      InStep ρ [] id (ask relation var value) (ask' relation (ρ var) (value.rename ρ)))
    (arms : List (String × String)) (test result : Value) :
    InStep ρ [] id
      (arms.forM fun arm => do
        ask .evaluatedFrom arm.1 test
        ask .evaluatedFrom arm.2 result)
      ((arms.map fun arm => (ρ arm.1, ρ arm.2)).forM fun arm => do
        ask' .evaluatedFrom arm.1 (test.rename ρ)
        ask' .evaluatedFrom arm.2 (result.rename ρ)) := by
  induction arms with
  | nil => exact .pure rfl
  | cons arm arms ih =>
    simp only [List.map_cons, List.forM]
    exact ((hask .evaluatedFrom arm.1 test).seq (hask .evaluatedFrom arm.2 result)).seq ih

/-- A layer of renamed children draws its type renamed, and asks for the same, renamed. -/
theorem inStep_typeOf (hask : ∀ relation var value,
      InStep ρ [] id (ask relation var value) (ask' relation (ρ var) (value.rename ρ)))
    (e : Expr String) (hwritten : ∀ name ∈ e.written, ρ name = name) :
    InStep ρ e.innerStems (Value.rename ρ) (Shaped.typeOf ask e) (Shaped.typeOf ask' (e.map ρ)) := by
  have hvar : ∀ name, (Value.var name).rename ρ = .var (ρ name) := Value.rename_var ρ
  cases e with
  | identifier name =>
    refine .pure ?_
    rw [hvar, hwritten name List.mem_cons_self]
  | native implementations => exact .freshVar _
  | binding name value body =>
    have hvalue := hask .equals value (.var name)
    rw [hvar, hwritten name List.mem_cons_self] at hvalue
    exact hvalue.seq (.pure (hvar body).symm)
  | form layer =>
    cases layer with
    | literal a => exact .pure (by simp [Form.map])
    | record fields => exact .pure (by simp [Form.map])
    | function plicity parameter body => exact .pure (by simp [Form.map])
    | data name parameters => exact .pure (by simp [Form.map])
    | application callee parameter =>
      refine (InStep.freshVar _).bind fun result => ?_
      have hcallee := hask .evaluatesTo callee (.function .explicit (.var parameter) result)
      rw [Value.rename_term, Form.map, hvar] at hcallee
      exact hcallee.seq (.pure rfl)
    | dual left right =>
      refine (InStep.freshVar _).bind fun result => ?_
      refine (hask .evaluatedFrom left result).seq ?_
      exact (hask .evaluatedFrom right result).seq (.pure rfl)
    | read source accessor =>
      cases accessor with
      | property name =>
        refine (InStep.freshVar _).bind fun result => ?_
        have hsource := hask .evaluatedFrom source (.record [(name, result)])
        rw [Value.rename_term] at hsource
        exact hsource.seq (.pure rfl)
      | position index =>
        refine (InStep.freshVar _).bind fun result => ?_
        refine (InStep.freshVar _).bind fun name => ?_
        refine InStep.of_eq ((InStep.freshVars _ index).bind fun before => ?_) (List.append_nil _)
        have hsource := hask .evaluatedFrom source (.data name (before ++ [result]))
        rw [Value.rename_term, Form.map, List.map_append] at hsource
        exact hsource.seq (.pure rfl)
    | choice subject arms =>
      refine (InStep.freshVar _).bind fun test => ?_
      refine (InStep.freshVar _).bind fun result => ?_
      refine (hask .evaluatedFrom subject test).seq ?_
      exact (inStep_arms hask arms test result).seq (.pure rfl)

def Shaped.rename (ρ : Equiv.Perm String) (d : Shaped) : Shaped := ⟨ρ d.name, d.type.rename ρ⟩

theorem inStep_attach (e : Expr (Node Shaped)) (hwritten : ∀ name ∈ e.written, ρ name = name) :
    InStep ρ e.stems (Node.map (Shaped.rename ρ)) (Shaped.attach e : StateM (Draft σ) (Node Shaped))
      (Shaped.attach (e.map (Node.map (Shaped.rename ρ))) : StateM (Draft τ) (Node Shaped)) := by
  have hnames : (e.map (Node.map (Shaped.rename ρ))).map (fun child => child.decoration.name) =
      (e.map fun child => child.decoration.name).map ρ := by
    rw [Expr.map_map, Expr.map_map]
    exact Expr.map_congr fun child _ => congrArg Shaped.name (Node.decoration_map _ child)
  have hstems : e.stems =
      [Shaped.stem e.kind] ++ ((e.map fun child => child.decoration.name).innerStems ++ []) := by
    rw [Expr.innerStems_map, List.append_nil]
    rfl
  unfold Shaped.attach
  rw [Expr.kind_map, hnames, hstems]
  refine (InStep.fresh _).bind fun name => ?_
  refine (inStep_typeOf ?_ _ (by rwa [Expr.written_map])).bind fun type => ?_
  · intro relation var value
    exact .constrain ⟨relation, var, value, name, .shape e.kind⟩
  · refine (InStep.constrain ⟨.equals, name, type, name, .shape e.kind⟩).seq ?_
    exact .pure (Node.map_mk (Shaped.rename ρ) e ⟨name, type⟩).symm

variable {D : Type} {tree : Node D}

theorem inStep_rebuildM (hwritten : ∀ name ∈ tree.writtenNames, ρ name = name) :
    InStep ρ tree.stems (Node.map (Shaped.rename ρ))
      (tree.rebuildM fun e _ => (Shaped.attach e : StateM (Draft σ) (Node Shaped)))
      (tree.rebuildM fun e _ => (Shaped.attach e : StateM (Draft τ) (Node Shaped))) := by
  induction tree using Node.induction with
  | mk e d ih =>
    have hparts : ∀ child ∈ e.children, ∀ name ∈ child.writtenNames, ρ name = name := by
      intro child hchild name hname
      obtain ⟨m, hm, hmem⟩ := List.mem_flatMap.mp hname
      exact hwritten name (List.mem_flatMap.mpr ⟨m, Node.mem_toList_of_child hchild hm, hmem⟩)
    have hhere : ∀ name ∈ e.written, ρ name = name := fun name hname =>
      hwritten name (List.mem_flatMap.mpr ⟨_, Node.mem_toList_self _, hname⟩)
    rw [Node.rebuildM_mk, Node.rebuildM_mk, Node.stems_mk]
    refine (InStep.mapM fun child hchild => ih child hchild (hparts child hchild)).bind_result ?_
    intro draft
    obtain ⟨pairs, hlayer, hout⟩ :=
      exists_pairs_of_mapM (Node.rebuildM fun e _ => Shaped.attach e) e draft
    rw [← hout, ← hlayer, Expr.stems_map, ← Expr.stems_map Prod.snd]
    apply inStep_attach
    rw [Expr.written_map, ← Expr.written_map Prod.fst, hlayer]
    exact hhere

theorem attachShapes_rename {names : σ} {others : τ}
    (hwritten : ∀ name ∈ tree.writtenNames, ρ name = name)
    (hanswers : (draw tree.stems others).1 = (draw tree.stems names).1.map ρ) :
    (attachShapes tree others).node = (attachShapes tree names).node.map (Shaped.rename ρ) ∧
      (attachShapes tree others).constraints =
        (attachShapes tree names).constraints.map (Constraint.rename ρ ρ) ∧
      (attachShapes tree others).names = (draw tree.stems others).2 := by
  obtain ⟨hnode, honward⟩ := inStep_rebuildM hwritten (Draft.mk names []) (Draft.mk others [])
    ⟨hanswers, rfl⟩
  exact ⟨hnode, honward.constraints, honward.right⟩

end Shaping

section Generated

variable {σ D : Type}

structure Recorded (σ : Type) where
  names : σ
  record : List String := []

variable [NameSource σ]

instance : NameSource (Recorded σ) where
  fresh stem recorded :=
    let (name, names) := NameSource.fresh stem recorded.names
    (name, ⟨names, recorded.record ++ [name]⟩)

def generated (tree : Node D) (names : σ) : List String :=
  (attachShapes tree ({ names } : Recorded σ)).names.record

theorem record_draw (stems : List String) (recorded : Recorded σ) :
    (draw stems recorded).2.record = recorded.record ++ (draw stems recorded.names).1 := by
  induction stems generalizing recorded with
  | nil => exact (List.append_nil _).symm
  | cons stem stems ih =>
    rw [draw, ih, draw, ← List.singleton_append, ← List.append_assoc]
    rfl

theorem generated_eq (tree : Node D) (names : σ) : generated tree names = (draw tree.stems names).1 := by
  let recorded : Recorded σ := { names }
  have hanswers : (draw tree.stems recorded).1 =
      (draw tree.stems recorded).1.map (Equiv.refl String) := (List.map_id _).symm
  obtain ⟨-, -, hnames⟩ := attachShapes_rename (fun _ _ => rfl) hanswers
  rw [generated, hnames, record_draw]
  rfl

end Generated

end ImplicitInference
