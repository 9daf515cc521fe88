import ImplicitInference.Typed
import ImplicitInference.Proofs.Shaping
import ImplicitInference.Proofs.Solution

/-!
The typing rules. `Obeys` says, kind by kind, how the type of a node goes with the types of its
children; nothing in it mentions variables, constraints or tables. A substitution that solves the
constraints of a shaped tree makes every node obey its rule, since the type of a node is what the
substitution makes of the node's name. Types are attached by the simplified values, and they are
such a substitution.
-/

namespace ImplicitInference

def Value.endsAt (v : Value) (index : Nat) (type : Value) : Bool :=
  match v with
  | .data _ parameters =>
    parameters.length == index + 1 && (parameters[index]?).any fun last => last.agrees type
  | _ => false

/-- The rule of a node, in terms of its type and the types of its children. `named name t` is to say
that every reference to the name has the type `t`. -/
def Obeys (named : String → Value → Prop) (type : Value) : Expr Value → Prop
  | .identifier _ => True
  | .form (.literal a) => type.agrees (.literal a)
  | .form (.record fields) => type.agrees (.record fields)
  | .form (.function plicity parameter body) => type.agrees (.function plicity parameter body)
  | .form (.data name parameters) => type.agrees (.data name parameters)
  | .form (.application callee parameter) =>
    callee.stripImplicits.agrees (.function .explicit parameter type)
  | .form (.dual left right) =>
    left.agrees right ∧ left.agrees type.stripImplicits ∧ right.agrees type.stripImplicits
  | .form (.read source (.property name)) => source.agrees (.record [(name, type)])
  | .form (.read source (.position index)) => source.endsAt index type
  | .form (.choice subject arms) =>
    subject.implicitCount = 0 ∧
      ∀ arm ∈ arms, arm.1.agrees subject ∧ arm.2.agrees type.stripImplicits
  | .binding name value body => type.agrees body ∧ named name value
  | .native _ => True

instance (named : String → Value → Prop) [∀ name v, Decidable (named name v)] (type : Value) :
    (e : Expr Value) → Decidable (Obeys named type e)
  | .identifier _ | .native _ => inferInstanceAs (Decidable True)
  | .form (.literal _) | .form (.record _) | .form (.function _ _ _) | .form (.data _ _)
  | .form (.application _ _) | .form (.read _ (.property _)) | .form (.read _ (.position _)) =>
    inferInstanceAs (Decidable (_ = true))
  | .form (.dual _ _) | .form (.choice _ _) | .binding _ _ _ => inferInstanceAs (Decidable (_ ∧ _))

def WellTyped (tree : Node Value) : Prop :=
  ∀ m ∈ tree.toList,
    Obeys (fun name type => ∀ n ∈ tree.toList, n.expression.refersTo name → n.decoration.agrees type)
      m.decoration (m.expression.map Node.decoration)

instance (tree : Node Value) : Decidable (WellTyped tree) :=
  inferInstanceAs (Decidable (∀ m ∈ tree.toList, _))

section Rules

variable {s : String → Value}

theorem Value.implicitCount_eq_zero {v w : Value} (h : v.normal = w.stripImplicits) :
    v.implicitCount = 0 := by
  unfold implicitCount implicitParameters
  split
  · simp only [normal_term, Form.map, Form.normal] at h
    exact absurd h.symm (stripImplicits_ne_implicit w _ _)
  · rfl

theorem Value.endsAt_of_normal {v name last : Value} {before : List Value}
    (h : v.normal = (data name (before ++ [last])).normal) : v.endsAt before.length last := by
  cases v with
  | var other => simp at h
  | term form =>
    cases form with
    | data other parameters =>
      simp only [normal_term, Form.map, Form.normal, term.injEq, Form.data.injEq] at h
      have hlength : parameters.length = before.length + 1 := by
        simpa using congrArg List.length h.2
      have hlast : (parameters[before.length]?).map normal = some last.normal := by
        rw [← List.getElem?_map, h.2]
        simp
      obtain ⟨found, hfound, hnormal⟩ := Option.map_eq_some_iff.mp hlast
      rw [endsAt, hfound, hlength]
      simpa using (agrees_iff found last).mpr hnormal
    | _ => simp [Form.map, Form.normal] at h

/-- A layer over variables becomes the layer over what they stand for. -/
theorem Value.normal_subst_layer (pairs : Form (String × Value))
    (h : ∀ pair ∈ pairs.children, (s pair.1).normal = pair.2.normal) :
    ((term ((pairs.map Prod.fst).map var)).subst s).normal = (term (pairs.map Prod.snd)).normal := by
  rw [subst_term, normal_term, normal_term, Form.map_map, Form.map_map, Form.map_map, Form.map_map]
  refine congrArg (fun layer => term layer.normal) (Form.map_congr fun pair hpair => ?_)
  simpa using h pair hpair

theorem Draws.obeys {pairs : Expr (String × Value)} {type : Value} {asked : List Request}
    (h : Draws (pairs.map Prod.fst) type asked)
    (hasked : ∀ request ∈ asked, request.1.Holds s request.2.1 request.2.2)
    (hpairs : ∀ pair ∈ pairs.children, (s pair.1).normal = pair.2.normal) :
    Obeys (fun name v => (s name).normal = v.normal) (type.subst s) (pairs.map Prod.snd) := by
  cases pairs with
  | identifier name => trivial
  | native implementations => trivial
  | binding name value body =>
    cases h
    have hvalue := holds_equals_iff.mp (hasked _ List.mem_cons_self)
    rw [Value.subst_var, hpairs value (by simp [Expr.children])] at hvalue
    rw [Value.subst_var]
    exact ⟨(Value.agrees_iff _ _).mpr (hpairs body (by simp [Expr.children])), hvalue.symm⟩
  | form layer =>
    cases layer with
    | literal a =>
      cases h
      exact (Value.agrees_iff _ _).mpr (Value.normal_subst_layer (.literal a) hpairs)
    | record fields =>
      cases h
      exact (Value.agrees_iff _ _).mpr (Value.normal_subst_layer (.record fields) hpairs)
    | function plicity parameter body =>
      cases h
      exact (Value.agrees_iff _ _).mpr
        (Value.normal_subst_layer (.function plicity parameter body) hpairs)
    | data name parameters =>
      cases h
      exact (Value.agrees_iff _ _).mpr (Value.normal_subst_layer (.data name parameters) hpairs)
    | application callee parameter =>
      cases h with
      | application _ _ result =>
        have hcallee := holds_evaluatesTo_iff.mp (hasked _ List.mem_cons_self)
        rw [hpairs callee (by simp [Expr.children, Form.children])] at hcallee
        apply (Value.agrees_iff _ _).mpr
        rw [Value.normal_stripImplicits, hcallee]
        apply Value.normal_subst_layer (.function .explicit parameter (result, s result))
        have hparameter := hpairs parameter (by simp [Expr.children, Form.children])
        simpa [Form.children] using hparameter
    | dual left right =>
      cases h with
      | dual _ _ result =>
        have hleft := holds_evaluatedFrom_iff.mp (hasked _ List.mem_cons_self)
        have hright := holds_evaluatedFrom_iff.mp
          (hasked _ (List.mem_cons_of_mem _ List.mem_cons_self))
        rw [hpairs left (by simp [Expr.children, Form.children])] at hleft
        rw [hpairs right (by simp [Expr.children, Form.children])] at hright
        simp only [Obeys, Expr.map, Form.map, Value.agrees_iff, Value.normal_stripImplicits]
        exact ⟨hleft.trans hright.symm, hleft, hright⟩
    | read source accessor =>
      have hsource := hpairs source (by simp [Expr.children, Form.children])
      cases accessor with
      | property name =>
        cases h with
        | property _ _ result =>
          have hread := holds_evaluatedFrom_iff.mp (hasked _ List.mem_cons_self)
          rw [hsource, ← Value.normal_stripImplicits, Value.stripImplicits_subst_term rfl] at hread
          apply (Value.agrees_iff _ _).mpr
          rw [hread]
          apply Value.normal_subst_layer (.record [(name, result, s result)])
          simp [Form.children]
      | position index =>
        cases h with
        | position _ name result before =>
          have hread := holds_evaluatedFrom_iff.mp (hasked _ List.mem_cons_self)
          rw [hsource, ← Value.normal_stripImplicits, Value.stripImplicits_subst_term rfl] at hread
          simp only [Value.subst_term, Form.map, List.map_append, List.map_map, List.map_cons,
            List.map_nil, Function.comp_def, Value.subst_var] at hread
          have hends := Value.endsAt_of_normal hread
          rw [List.length_map] at hends
          rw [Value.subst_var]
          exact hends
    | choice subject arms =>
      cases h with
      | choice _ test result _ =>
        obtain ⟨hsubject, harms⟩ := List.forall_mem_cons.mp hasked
        rw [holds_evaluatedFrom_iff, Value.subst_var,
          hpairs subject (by simp [Expr.children, Form.children])] at hsubject
        refine ⟨Value.implicitCount_eq_zero hsubject, fun types htypes => ?_⟩
        obtain ⟨arm, harm, rfl⟩ := List.mem_map.mp htypes
        have hasks : ∀ request ∈ [(Relation.evaluatedFrom, arm.1.1, Value.var test),
            (Relation.evaluatedFrom, arm.2.1, Value.var result)],
            request.1.Holds s request.2.1 request.2.2 := fun request hmem =>
          harms request (List.mem_flatMap.mpr ⟨_, List.mem_map_of_mem harm, hmem⟩)
        have hchild : ∀ pair ∈ [arm.1, arm.2], (s pair.1).normal = pair.2.normal :=
          fun pair hmem => hpairs pair
            (List.mem_cons_of_mem subject (List.mem_flatMap.mpr ⟨arm, harm, hmem⟩))
        simp only [List.forall_mem_cons, holds_evaluatedFrom_iff, Value.subst_var] at hasks hchild
        simp only [Value.agrees_iff, Value.normal_stripImplicits, Value.subst_var]
        rw [hsubject, ← hasks.1, ← hasks.2.1]
        exact ⟨hchild.1.symm, hchild.2.1.symm⟩

end Rules

theorem Obeys.mono {named named' : String → Value → Prop} {type : Value} {e : Expr Value}
    (h : Obeys named type e) (hnamed : ∀ name v, named name v → named' name v) :
    Obeys named' type e := by
  cases e with
  | binding name value body => exact ⟨h.1, hnamed name value h.2⟩
  | identifier name => trivial
  | native implementations => trivial
  | form layer =>
    cases layer with
    | read source accessor => cases accessor <;> exact h
    | _ => exact h

section Retype

variable {entries : Table Entry} {values : Table Value} {s : String → Value}

theorem attach_ok {e : Expr (Node Typed)} {shaped : Shaped} {m : Node Typed}
    (h : Typed.attach entries values e shaped = .ok m) :
    ∃ typed, Typed.ofShaped entries values shaped = .ok typed ∧ m = ⟨e, typed⟩ := by
  unfold Typed.attach at h
  split at h
  · cases h
  · cases htyped : Typed.ofShaped entries values shaped with
    | error stopped =>
      rw [htyped] at h
      cases h
    | ok typed =>
      rw [htyped] at h
      cases h
      exact ⟨typed, rfl, rfl⟩

theorem ofShaped_ok {shaped : Shaped} {typed : Typed}
    (h : Typed.ofShaped entries values shaped = .ok typed) :
    typed.type = shaped.type.substitute values ∧ ∃ entry shape,
      entries.get? shaped.name = some entry ∧
        typed.shape = if entry.isConsumed then shape.stripImplicits else shape := by
  unfold Typed.ofShaped at h
  split at h
  · rename_i entry shape hentry _
    cases h
    exact ⟨rfl, entry, shape, hentry, rfl⟩
  · cases h

def Typed.given (entries : Table Entry) (values : Table Value) (shaped : Shaped) : Typed :=
  match ofShaped entries values shaped with
  | .ok typed => typed
  | .error _ => ⟨shaped.type, shaped.type⟩

/-- Typing keeps the tree, and does not stop at any node of it. -/
theorem retype_ok {shaped : Node Shaped} {typed : Node Typed}
    (h : retype entries values shaped = .ok typed) :
    typed = shaped.map (Typed.given entries values) ∧ ∀ m ∈ shaped.toList,
      Typed.ofShaped entries values m.decoration = .ok (Typed.given entries values m.decoration) := by
  refine Node.rebuildM_induction (Execution.except TypingError) (P := fun shaped typed _ _ =>
    typed = shaped.map (Typed.given entries values) ∧ ∀ m ∈ shaped.toList,
      Typed.ofShaped entries values m.decoration = .ok (Typed.given entries values m.decoration))
    ?_ (s := ()) (t := ()) h
  intro pairs d typed _ _ _ hvisits hattach
  have hpairs := hvisits.forall_mem fun _ _ _ _ hstep => hstep
  obtain ⟨here, hhere, rfl⟩ := attach_ok hattach
  have hgiven : Typed.given entries values d = here := by rw [Typed.given, hhere]
  constructor
  · rw [Node.map_mk, Expr.map_map, hgiven]
    exact congrArg (Node.mk · here) (Expr.map_congr fun pair hpair => (hpairs pair hpair).1)
  · intro m hm
    rcases Node.mem_toList_mk.mp hm with rfl | ⟨child, hchild, hm⟩
    · rw [hgiven, hhere]
    · rw [Expr.children_map] at hchild
      obtain ⟨pair, hpair, rfl⟩ := List.mem_map.mp hchild
      exact (hpairs pair hpair).2 m hm

/-- Typing substitutes the values in the type of every node. -/
theorem map_retype {shaped : Node Shaped} {typed : Node Typed}
    (h : retype entries values shaped = .ok typed) :
    typed.map Typed.type = shaped.map fun d => d.type.substitute values := by
  obtain ⟨rfl, hok⟩ := retype_ok h
  rw [Node.map_map]
  apply Node.map_congr
  intro m hm
  exact (ofShaped_ok (hok m hm)).1

/-- A solution of the constraints makes every node of the tree obey its rule. -/
theorem sketched_obeys {constraints : List Constraint} {tree m : Node Shaped}
    (htree : ∀ n ∈ tree.toList, Sketched constraints n) (hs : ∀ c ∈ constraints, c.Holds s)
    (hm : m ∈ tree.toList) :
    Obeys (fun name v => (s name).normal = v.normal) (m.decoration.type.subst s)
      (m.expression.map fun child => child.decoration.type.subst s) := by
  obtain ⟨asked, hdraws, hasked⟩ := htree m hm
  let pairs := m.expression.map fun child =>
    (child.decoration.name, child.decoration.type.subst s)
  have hnames : pairs.map Prod.fst = m.expression.map fun child => child.decoration.name :=
    Expr.map_map _ _ _
  have htypes : pairs.map Prod.snd = m.expression.map fun child => child.decoration.type.subst s :=
    Expr.map_map _ _ _
  rw [← htypes]
  rw [← hnames] at hdraws
  refine hdraws.obeys (fun request hmem => ?_) fun pair hpair => ?_
  · exact hs _ (hasked request (List.mem_append_left _ hmem))
  · rw [Expr.children_map] at hpair
    obtain ⟨child, hchild, rfl⟩ := List.mem_map.mp hpair
    obtain ⟨asked', -, hasked'⟩ := htree child (Node.mem_toList_of_mem_children hm hchild)
    exact holds_equals_iff.mp (hs _ (hasked' _ (List.mem_append_right _ List.mem_cons_self)))

/-- References are typed by the name they refer to. -/
theorem Sketched.type_eq {constraints : List Constraint} {m : Node Shaped} {name : String}
    (h : Sketched constraints m) (hname : m.expression.refersTo name) :
    m.decoration.type = .var name := by
  obtain ⟨asked, hdraws, -⟩ := h
  obtain ⟨e, d⟩ := m
  cases e with
  | identifier other =>
    obtain ⟨var, type⟩ := d
    cases hdraws
    rw [beq_iff_eq.mp hname]
  | _ => cases hname

theorem sketched_wellTyped {constraints : List Constraint} {tree : Node Shaped}
    (htree : ∀ n ∈ tree.toList, Sketched constraints n) (hs : ∀ c ∈ constraints, c.Holds s) :
    WellTyped (tree.map fun d => d.type.subst s) := by
  intro m hm
  rw [Node.toList_map] at hm
  obtain ⟨n, hn, rfl⟩ := List.mem_map.mp hm
  rw [Node.decoration_map, Node.map_decoration_map]
  apply (sketched_obeys htree hs hn).mono
  intro name v hname k hk hrefers
  rw [Node.toList_map] at hk
  obtain ⟨reference, hreference, rfl⟩ := List.mem_map.mp hk
  rw [Node.expression_map, Expr.refersTo_map] at hrefers
  rw [Node.decoration_map, (htree reference hreference).type_eq hrefers, Value.subst_var]
  exact (Value.agrees_iff _ _).mpr hname

end Retype

section Tree

variable {σ D : Type} [NameSource σ]

def reduceTree (options : Options) (tree : Node D) (names : σ) : Reduction :=
  reduce options (attachShapes tree names).constraints

def typeTree (options : Options) (tree : Node D) (names : σ) : Except TypingError (Node Typed) :=
  retype (reduceTree options tree names).entries
    (simplify (reduceTree options tree names).entries).values (attachShapes tree names).node

/-- If nothing is reported, no variable leads to itself, no evaluated variable has implicit
parameters and the skipped facts are solved, then every node of the typed tree obeys its rule. -/
theorem typed_nodes_obey_rules (tree : Node D) (names : σ) (options : Options) (typed : Node Typed)
    (hdiagnostics : (reduceTree options tree names).diagnostics = [])
    (hacyclic : Acyclic (reduceTree options tree names).entries)
    (hevaluated : Evaluated (reduceTree options tree names).entries)
    (hskipped : ∀ fact ∈ skippedFacts options (attachShapes tree names).constraints,
      fact.Holds (simplify (reduceTree options tree names).entries).values.assign)
    (htyped : typeTree options tree names = .ok typed) : WellTyped (typed.map Typed.type) := by
  obtain ⟨hsketched, hdual⟩ := sketched_attachShapes tree names
  have hentries := wellFormed_reduce options hdual
  have hholds := holds_of_reduce hdual hdiagnostics hskipped fun name entry hentry =>
    assign_holds hentries hacyclic hevaluated hentry
  rw [map_retype htyped]
  exact sketched_wellTyped hsketched hholds

theorem exists_ok_of_any {ε α : Type} {x : Except ε α} {p : α → Bool} (h : x.toOption.any p) :
    ∃ a, x = .ok a ∧ p a := by
  cases x with
  | error e => cases h
  | ok a => exact ⟨a, rfl, h⟩

def Node.plain (e : Expr (Node Unit)) : Node Unit := ⟨e, ()⟩

def Node.formed (form : Form (Node Unit)) : Node Unit := .plain (.form form)

def Node.yes : Node Unit := .formed (.literal (.boolean true))

def Node.text : Node Unit := .formed (.literal (.string "one"))

def Node.named (name : String) : Node Unit := .plain (.identifier name)

def Node.bound (name : String) (value body : Node Unit) : Node Unit :=
  .plain (.binding name value body)

def Node.cell (value : Node Unit) : Node Unit := .formed (.record [("a", value)])

def mixedTree : Node Unit :=
  .plain (.binding "f"
    (.formed (.function .implicit (.named "x") (.formed (.function .explicit (.named "a")
      (.formed (.record [("n", .named "a")]))))))
    (.formed (.record
      [("p", .formed (.read (.formed (.data (.formed (.literal (.symbol "P"))) [.yes]))
        (.position 0))),
      ("q", .formed (.choice
        (.formed (.read (.formed (.application (.named "f") .text)) (.property "n")))
        [(.text, .formed (.dual .yes .yes))])),
      ("r", .plain (.native [("js", "1")]))])))

theorem mixedTree_nodes_obey_rules :
    ∃ typed, typeTree {} mixedTree ({} : Counter) = .ok typed ∧
      WellTyped (typed.map Typed.type) := by
  have hchecks : (reduceTree {} mixedTree ({} : Counter)).diagnostics = [] ∧
      Descends (reduceTree {} mixedTree ({} : Counter)).entries 10 ∧
      Evaluated (reduceTree {} mixedTree ({} : Counter)).entries ∧
      (∀ fact ∈ skippedFacts {} (attachShapes mixedTree ({} : Counter)).constraints,
        fact.Holds (simplify (reduceTree {} mixedTree ({} : Counter)).entries).values.assign) ∧
      (typeTree {} mixedTree ({} : Counter)).toOption.any fun _ => true := by
    decide +kernel
  obtain ⟨hdiagnostics, hdescends, hevaluated, hskipped, hsome⟩ := hchecks
  obtain ⟨typed, htyped, -⟩ := exists_ok_of_any hsome
  exact ⟨typed, htyped, typed_nodes_obey_rules mixedTree ({} : Counter) {} typed hdiagnostics
    hdescends.acyclic hevaluated hskipped htyped⟩

def Node.no : Node Unit := .formed (.literal (.boolean false))

def Node.both (left right : Node Unit) : Node Unit := .formed (.dual left right)

def Node.taking (name : String) (body : Node Unit) : Node Unit :=
  .formed (.function .explicit (.named name) body)

def sharedDual : Node Unit :=
  .taking "z" (.formed (.record
    [("a", .both (.cell (.both (.named "z") (.named "z"))) (.cell (.named "z"))),
      ("b", .formed (.application
        (.formed (.function .explicit (.formed (.function .implicit .yes .yes)) .yes))
        (.named "z")))]))

def crossedDuals : Node Unit :=
  .taking "x" (.taking "y" (.taking "w" (.bound "z" (.named "y") (.formed (.record
    [("a", .both (.named "z") .yes), ("b", .both (.named "y") (.named "x")),
      ("c", .both (.named "w") .no), ("d", .both (.named "y") (.named "w")),
      ("e", .both (.named "x") (.named "w")), ("f", .both (.named "x") (.named "y")),
      ("g", .both (.named "x") (.named "z"))])))))

/-- A tree is typed, nothing is reported, its entries are acyclic and its evaluated variables have no
implicit parameters, but some node does not obey its rule. -/
def BreaksRules (tree : Node Unit) : Prop :=
  (reduceTree {} tree ({} : Counter)).diagnostics = [] ∧
    Acyclic (reduceTree {} tree ({} : Counter)).entries ∧
    Evaluated (reduceTree {} tree ({} : Counter)).entries ∧
    ∃ typed, typeTree {} tree ({} : Counter) = .ok typed ∧ ¬ WellTyped (typed.map Typed.type)

/-- Without the skipped facts a node need not obey its rule. The sides of the inner dual must have no
implicit parameters, but this is only asked of the name in them, which makes it trivial. That all
names are one is passed around between them and lost, so that `y` is `false` and `x` is `true`. -/
theorem typed_nodes_can_break_rules : BreaksRules sharedDual ∧ BreaksRules crossedDuals := by
  have hchecks : ∀ tree ∈ [sharedDual, crossedDuals],
      (reduceTree {} tree ({} : Counter)).diagnostics = [] ∧
        Descends (reduceTree {} tree ({} : Counter)).entries 10 ∧
        Evaluated (reduceTree {} tree ({} : Counter)).entries ∧
        (typeTree {} tree ({} : Counter)).toOption.any
          fun typed => ¬ WellTyped (typed.map Typed.type) := by
    decide +kernel
  have hbreaks : ∀ tree ∈ [sharedDual, crossedDuals], BreaksRules tree := by
    intro tree hmem
    obtain ⟨hdiagnostics, hdescends, hevaluated, hbroken⟩ := hchecks tree hmem
    obtain ⟨typed, htyped, hrules⟩ := exists_ok_of_any hbroken
    exact ⟨hdiagnostics, hdescends.acyclic, hevaluated, typed, htyped, of_decide_eq_true hrules⟩
  exact ⟨hbreaks sharedDual (by simp), hbreaks crossedDuals (by simp)⟩

end Tree

end ImplicitInference
