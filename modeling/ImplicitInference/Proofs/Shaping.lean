import ImplicitInference.Shaped
import ImplicitInference.Proofs.Traversal
import ImplicitInference.Proofs.Signature
import Mathlib.Logic.Relation

/-!
What attaching shapes leaves behind. `Draws` says, without names being made up on the way, which
type a layer gets and what it asks of its children. Every node of a shaped tree has drawn its type
in this way, and all it asked for is among the constraints, together with its own equation; nothing
else is. What is drawn is made of the layers of types, with implicit functions only if the tree has
them.
-/

namespace ImplicitInference

abbrev Request := Relation × String × Value

/-- The type of a layer over the names of its children, and what the layer asks of them. -/
inductive Draws : Expr String → Value → List Request → Prop
  | identifier (name : String) : Draws (.identifier name) (.var name) []
  | literal (a : Literal) : Draws (.form (.literal a)) (.literal a) []
  | record (fields : List (String × String)) :
      Draws (.form (.record fields)) (.record (fields.map fun field => (field.1, .var field.2))) []
  | function (plicity : Plicity) (parameter body : String) :
      Draws (.form (.function plicity parameter body))
        (.function plicity (.var parameter) (.var body)) []
  | data (name : String) (parameters : List String) :
      Draws (.form (.data name parameters)) (.data (.var name) (parameters.map Value.var)) []
  | application (callee parameter result : String) :
      Draws (.form (.application callee parameter)) (.var result)
        [(.evaluatesTo, callee, .function .explicit (.var parameter) (.var result))]
  | dual (left right result : String) :
      Draws (.form (.dual left right)) (.var result)
        [(.evaluatedFrom, left, .var result), (.evaluatedFrom, right, .var result)]
  | property (source name result : String) :
      Draws (.form (.read source (.property name))) (.var result)
        [(.evaluatedFrom, source, .record [(name, .var result)])]
  | position (source name result : String) (before : List String) :
      Draws (.form (.read source (.position before.length))) (.var result)
        [(.evaluatedFrom, source, .data (.var name) (before.map Value.var ++ [.var result]))]
  | choice (subject test result : String) (arms : List (String × String)) :
      Draws (.form (.choice subject arms)) (.var result)
        ((.evaluatedFrom, subject, .var test) :: arms.flatMap fun arm =>
          [(.evaluatedFrom, arm.1, .var test), (.evaluatedFrom, arm.2, .var result)])
  | binding (name value body : String) :
      Draws (.binding name value body) (.var body) [(.equals, value, .var name)]
  | native (implementations : List (String × String)) (result : String) :
      Draws (.native implementations) (.var result) []

def Shaped.stem (kind : Kind) : String := "node" ++ kind.name ++ "Type$"

def Shaped.stems : List String :=
  ["applicationResult$", "dualResult$", "recordPropertyResult$", "dataPropertyResult$",
    "dataPropertyName$", "dataPropertyParameter$", "patternTest$", "patternResult$", "native$"]

section Stems

variable {α β D : Type}

def Expr.innerStems : Expr α → List String
  | .form (.application _ _) => ["applicationResult$"]
  | .form (.dual _ _) => ["dualResult$"]
  | .form (.read _ (.property _)) => ["recordPropertyResult$"]
  | .form (.read _ (.position index)) =>
    "dataPropertyResult$" :: "dataPropertyName$" :: List.replicate index "dataPropertyParameter$"
  | .form (.choice _ _) => ["patternTest$", "patternResult$"]
  | .native _ => ["native$"]
  | _ => []

def Expr.stems (e : Expr α) : List String := Shaped.stem e.kind :: e.innerStems

theorem Expr.innerStems_map (f : α → β) (e : Expr α) : (e.map f).innerStems = e.innerStems := by
  cases e with
  | form layer =>
    cases layer with
    | read source accessor => cases accessor <;> rfl
    | _ => rfl
  | _ => rfl

theorem Expr.stems_map (f : α → β) (e : Expr α) : (e.map f).stems = e.stems := by
  rw [stems, kind_map, innerStems_map, stems]

def Node.stems : Node D → List String := fold fun e _ => e.children.flatten ++ e.stems

theorem Node.stems_mk (e : Expr (Node D)) (d : D) :
    stems ⟨e, d⟩ = e.children.flatMap stems ++ e.stems := by
  rw [stems, fold_mk, Expr.children_map, Expr.stems_map, List.flatMap_def]

theorem Expr.innerStems_subset (e : Expr α) : e.innerStems ⊆ Shaped.stems := by
  cases e with
  | form layer =>
    cases layer with
    | read source accessor =>
      cases accessor with
      | property name => simp [innerStems, Shaped.stems]
      | position index =>
        intro stem hstem
        simp only [innerStems, List.mem_cons] at hstem
        rcases hstem with rfl | rfl | hstem
        · simp [Shaped.stems]
        · simp [Shaped.stems]
        · rw [List.eq_of_mem_replicate hstem]
          simp [Shaped.stems]
    | _ => simp [innerStems, Shaped.stems]
  | _ => simp [innerStems, Shaped.stems]

end Stems

section Draw

variable {σ : Type} [NameSource σ]

def draw : List String → σ → List String × σ
  | [], names => ([], names)
  | stem :: stems, names =>
    let rest := draw stems (NameSource.fresh stem names).2
    ((NameSource.fresh stem names).1 :: rest.1, rest.2)

theorem length_draw (stems : List String) (names : σ) : (draw stems names).1.length = stems.length := by
  induction stems generalizing names with
  | nil => rfl
  | cons stem stems ih => exact congrArg (· + 1) (ih _)

theorem draw_append (stems more : List String) (names : σ) : draw (stems ++ more) names =
    ((draw stems names).1 ++ (draw more (draw stems names).2).1,
      (draw more (draw stems names).2).2) := by
  induction stems generalizing names with
  | nil => rfl
  | cons stem stems ih => simp only [List.cons_append, draw, ih]

def MadeUp (σ : Type) [NameSource σ] (name : String) : Prop :=
  ∃ stem ∈ Shaped.stems, ∃ names : σ, name = (NameSource.fresh stem names).1

theorem madeUp_of_mem_draw {stems : List String} {names : σ} (hstems : stems ⊆ Shaped.stems)
    {name : String} (h : name ∈ (draw stems names).1) : MadeUp σ name := by
  induction stems generalizing names with
  | nil => cases h
  | cons stem stems ih =>
    obtain ⟨hstem, hrest⟩ := List.cons_subset.mp hstems
    rcases List.mem_cons.mp h with rfl | h
    · exact ⟨stem, hstem, names, rfl⟩
    · exact ih hrest h

end Draw

def Expr.invented {α : Type} (e : Expr α) (type : Value) (asked : List Value) : List String :=
  match e with
  | .form (.application _ _) => type.occurrences
  | .form (.dual _ _) => type.occurrences
  | .form (.read _ (.property _)) => type.occurrences
  | .form (.read _ (.position _)) => (asked.take 1).flatMap Value.occurrences
  | .form (.choice _ _) => (asked.take 1).flatMap Value.occurrences ++ type.occurrences
  | .native _ => type.occurrences
  | _ => []

theorem Expr.invented_map {α β : Type} (f : α → β) (e : Expr α) (type : Value)
    (asked : List Value) : (e.map f).invented type asked = e.invented type asked := by
  cases e with
  | form layer =>
    cases layer with
    | read source accessor => cases accessor <;> rfl
    | _ => rfl
  | _ => rfl

/-- The variables that a layer wants its children to evaluate to are made up, and so is the variable
it is typed by, unless that is what it refers to or the name of its body. -/
structure Named (made : String → Prop) (e : Expr String) (type : Value) (asked : List Request) :
    Prop where
  type : ∀ name, type = .var name →
    made name ∨ e = .identifier name ∨ ∃ bound value, e = .binding bound value name
  asked : ∀ request ∈ asked, request.1 ≠ .equals → ∀ name, request.2.2 = .var name → made name

theorem Named.imp {made made' : String → Prop} {e : Expr String} {type : Value}
    {asked : List Request} (h : Named made e type asked) (hmade : ∀ name, made name → made' name) :
    Named made' e type asked where
  type name hname := (h.type name hname).imp (hmade name) id
  asked request hrequest hrelation name hname :=
    hmade name (h.asked request hrequest hrelation name hname)

theorem Draws.named {e : Expr String} {type : Value} {asked : List Request}
    (h : Draws e type asked) :
    Named (· ∈ e.invented type (asked.map fun request => request.2.2)) e type asked := by
  cases h with
  | identifier name =>
    refine ⟨?_, List.forall_mem_nil _⟩
    rintro _ ⟨⟩
    exact .inr (.inl rfl)
  | binding name value body =>
    refine ⟨?_, List.forall_mem_singleton.mpr fun hrelation => absurd rfl hrelation⟩
    rintro _ ⟨⟩
    exact .inr (.inr ⟨name, value, rfl⟩)
  | literal | record | function | data => exact ⟨nofun, List.forall_mem_nil _⟩
  | native implementations result =>
    refine ⟨?_, List.forall_mem_nil _⟩
    rintro _ ⟨⟩
    exact .inl (by simp [Expr.invented])
  | application callee parameter result =>
    refine ⟨?_, List.forall_mem_singleton.mpr nofun⟩
    rintro _ ⟨⟩
    exact .inl (by simp [Expr.invented])
  | property source name result =>
    refine ⟨?_, List.forall_mem_singleton.mpr nofun⟩
    rintro _ ⟨⟩
    exact .inl (by simp [Expr.invented])
  | position source name result before =>
    refine ⟨?_, List.forall_mem_singleton.mpr nofun⟩
    rintro _ ⟨⟩
    exact .inl (by simp [Expr.invented, Value.occurrences_term, Form.children])
  | dual left right result =>
    constructor
    · rintro _ ⟨⟩
      exact .inl (by simp [Expr.invented])
    · intro request hrequest _ name hname
      rcases List.mem_pair.mp hrequest with rfl | rfl <;> cases hname <;> simp [Expr.invented]
  | choice subject test result arms =>
    constructor
    · rintro _ ⟨⟩
      exact .inl (by simp [Expr.invented])
    · intro request hrequest _ name hname
      rcases List.mem_cons.mp hrequest with rfl | hrequest
      · cases hname
        simp [Expr.invented]
      · obtain ⟨arm, -, hrequest⟩ := List.mem_flatMap.mp hrequest
        rcases List.mem_pair.mp hrequest with rfl | rfl <;> cases hname <;> simp [Expr.invented]

structure Drafted {σ : Type} [NameSource σ] (stems : List String) (d t : Draft σ)
    (added : List Constraint) : Prop where
  names : t.names = (draw stems d.names).2
  constraints : t.constraints = d.constraints ++ added

section Drafted

variable {σ : Type} [NameSource σ] {d u t : Draft σ} {stems stems' : List String}
  {added more : List Constraint}

theorem Drafted.refl (d : Draft σ) : Drafted [] d d [] := ⟨rfl, by simp⟩

theorem Drafted.trans (h : Drafted stems d u added) (h' : Drafted stems' u t more) :
    Drafted (stems ++ stems') d t (added ++ more) where
  names := by rw [h'.names, h.names, draw_append]
  constraints := by rw [h'.constraints, h.constraints, List.append_assoc]

theorem Drafted.adds (h : Drafted stems d u added) (h' : Drafted [] u t more) :
    Drafted stems d t (added ++ more) := List.append_nil stems ▸ h.trans h'

end Drafted

namespace Draft

variable {σ : Type} [NameSource σ] {d t : Draft σ}

theorem yields_constrain {c : Constraint} {u : Unit}
    (h : (Execution.state (Draft σ)).Yields (constrain c) d u t) : Drafted [] d t [c] := by
  obtain ⟨-, rfl⟩ := Prod.mk.inj h
  exact ⟨rfl, rfl⟩

theorem yields_fresh {stem name : String}
    (h : (Execution.state (Draft σ)).Yields (fresh stem) d name t) :
    name = (NameSource.fresh stem d.names).1 ∧ Drafted [stem] d t [] := by
  obtain ⟨rfl, rfl⟩ := Prod.mk.inj h
  exact ⟨rfl, rfl, by simp⟩

theorem yields_freshVar {stem : String} {v : Value}
    (h : (Execution.state (Draft σ)).Yields (freshVar stem) d v t) :
    v = .var (NameSource.fresh stem d.names).1 ∧ Drafted [stem] d t [] := by
  rw [freshVar, map_eq_pure_bind, Execution.yields_bind] at h
  obtain ⟨name, u, hname, hreturn⟩ := h
  obtain ⟨rfl, rfl⟩ := (Execution.yields_pure _).mp hreturn
  obtain ⟨rfl, hu⟩ := yields_fresh hname
  exact ⟨rfl, hu⟩

theorem yields_freshVars {stem : String} {n : Nat} {vs : List Value}
    (h : (Execution.state (Draft σ)).Yields ((List.replicate n stem).mapM freshVar) d vs t) :
    vs = (draw (List.replicate n stem) d.names).1.map Value.var ∧
      Drafted (List.replicate n stem) d t [] := by
  induction n generalizing d vs with
  | zero =>
    obtain ⟨rfl, rfl⟩ := (Execution.yields_pure _).mp h
    exact ⟨rfl, .refl t⟩
  | succ n ih =>
    simp only [List.replicate_succ, List.mapM_cons, Execution.yields_bind,
      Execution.yields_pure] at h
    obtain ⟨v, u, hv, vs', w, hvs, rfl, rfl⟩ := h
    obtain ⟨rfl, hu⟩ := yields_freshVar hv
    obtain ⟨rfl, ht⟩ := ih hvs
    rw [hu.names]
    exact ⟨rfl, hu.trans ht⟩

end Draft

section TypeOf

open Draft

variable {σ : Type} [NameSource σ] {d t : Draft σ}
  {ask : Relation → String → Value → StateM (Draft σ) Unit} {note : Request → Constraint}

theorem yields_ask_arms (hask : ∀ relation var value,
      ask relation var value = constrain (note (relation, var, value)))
    {arms : List (String × String)} {test result : Value} {u : Unit}
    (h : (Execution.state (Draft σ)).Yields (arms.forM fun arm => do
      ask .evaluatedFrom arm.1 test
      ask .evaluatedFrom arm.2 result) d u t) :
    Drafted [] d t ((arms.flatMap fun arm =>
      [(.evaluatedFrom, arm.1, test), (.evaluatedFrom, arm.2, result)]).map note) := by
  induction arms generalizing d with
  | nil =>
    obtain ⟨-, rfl⟩ := (Execution.yields_pure _).mp h
    exact .refl _
  | cons arm arms ih =>
    simp only [List.forM, Execution.yields_bind, hask] at h ih
    obtain ⟨_, w, ⟨_, v, htest, hresult⟩, hrest⟩ := h
    exact ((yields_constrain htest).adds (yields_constrain hresult)).adds (ih hrest)

/-- A layer draws its type and asks for what it should, with the names that its stems lead to. -/
theorem yields_typeOf (note : Request → Constraint) (hask : ∀ relation var value,
      ask relation var value = constrain (note (relation, var, value)))
    {e : Expr String} {type : Value}
    (h : (Execution.state (Draft σ)).Yields (Shaped.typeOf ask e) d type t) :
    ∃ asked, Draws e type asked ∧
      (e.invented type (asked.map fun request => request.2.2)).Perm (draw e.innerStems d.names).1 ∧
      Drafted e.innerStems d t (asked.map note) := by
  cases e with
  | identifier name =>
    obtain ⟨rfl, rfl⟩ := (Execution.yields_pure _).mp h
    exact ⟨[], .identifier name, .refl _, .refl t⟩
  | binding name value body =>
    simp only [Shaped.typeOf, hask, Execution.yields_bind, Execution.yields_pure] at h
    obtain ⟨_, _, hvalue, rfl, rfl⟩ := h
    exact ⟨_, .binding name value body, .refl _, yields_constrain hvalue⟩
  | native implementations =>
    obtain ⟨rfl, ht⟩ := yields_freshVar h
    exact ⟨[], .native implementations _, .of_eq (Value.occurrences_var _), ht⟩
  | form layer =>
    cases layer with
    | literal a =>
      obtain ⟨rfl, rfl⟩ := (Execution.yields_pure _).mp h
      exact ⟨[], .literal a, .refl _, .refl t⟩
    | record fields =>
      obtain ⟨rfl, rfl⟩ := (Execution.yields_pure _).mp h
      exact ⟨[], .record fields, .refl _, .refl t⟩
    | function plicity parameter body =>
      obtain ⟨rfl, rfl⟩ := (Execution.yields_pure _).mp h
      exact ⟨[], .function plicity parameter body, .refl _, .refl t⟩
    | data name parameters =>
      obtain ⟨rfl, rfl⟩ := (Execution.yields_pure _).mp h
      exact ⟨[], .data name parameters, .refl _, .refl t⟩
    | application callee parameter =>
      simp only [Shaped.typeOf, hask, Execution.yields_bind, Execution.yields_pure] at h
      obtain ⟨_, u, hresult, _, _, hcallee, rfl, rfl⟩ := h
      obtain ⟨rfl, hu⟩ := yields_freshVar hresult
      exact ⟨_, .application callee parameter _, .of_eq (Value.occurrences_var _),
        hu.adds (yields_constrain hcallee)⟩
    | dual left right =>
      simp only [Shaped.typeOf, hask, Execution.yields_bind, Execution.yields_pure] at h
      obtain ⟨_, u, hresult, _, v, hleft, _, _, hright, rfl, rfl⟩ := h
      obtain ⟨rfl, hu⟩ := yields_freshVar hresult
      exact ⟨_, .dual left right _, .of_eq (Value.occurrences_var _),
        (hu.adds (yields_constrain hleft)).adds (yields_constrain hright)⟩
    | read source accessor =>
      cases accessor with
      | property name =>
        simp only [Shaped.typeOf, hask, Execution.yields_bind, Execution.yields_pure] at h
        obtain ⟨_, u, hresult, _, _, hsource, rfl, rfl⟩ := h
        obtain ⟨rfl, hu⟩ := yields_freshVar hresult
        exact ⟨_, .property source name _, .of_eq (Value.occurrences_var _),
          hu.adds (yields_constrain hsource)⟩
      | position index =>
        simp only [Shaped.typeOf, hask, Execution.yields_bind, Execution.yields_pure] at h
        obtain ⟨_, u, hresult, _, v, hname, _, w, hbefore, _, _, hsource, rfl, rfl⟩ := h
        obtain ⟨rfl, hu⟩ := yields_freshVar hresult
        obtain ⟨rfl, hv⟩ := yields_freshVar hname
        obtain ⟨rfl, hw⟩ := yields_freshVars hbefore
        have hlength := length_draw (List.replicate index "dataPropertyParameter$") v.names
        rw [List.length_replicate] at hlength
        have hdraws := Draws.position source (NameSource.fresh "dataPropertyName$" u.names).1
          (NameSource.fresh "dataPropertyResult$" d.names).1
          (draw (List.replicate index "dataPropertyParameter$") v.names).1
        rw [hlength] at hdraws
        refine ⟨_, hdraws, ?_, ((hu.trans hv).trans hw).adds (yields_constrain hsource)⟩
        rw [hv.names, hu.names]
        refine List.Perm.trans (.of_eq ?_) (List.perm_append_singleton _ _)
        simp [Expr.invented, Value.occurrences_term, Form.children, List.flatMap_map, draw]
    | choice subject arms =>
      simp only [Shaped.typeOf, Execution.yields_bind, Execution.yields_pure] at h
      obtain ⟨_, u, htest, _, v, hresult, _, w, hsubject, _, _, harms, rfl, rfl⟩ := h
      obtain ⟨rfl, hu⟩ := yields_freshVar htest
      obtain ⟨rfl, hv⟩ := yields_freshVar hresult
      rw [hask] at hsubject
      refine ⟨_, .choice subject _ _ arms, ?_, ((hu.trans hv).adds
        (yields_constrain hsubject)).adds (yields_ask_arms hask harms)⟩
      rw [hu.names]
      exact .refl _

end TypeOf

def Expr.plicity? {α : Type} : Expr α → Option Plicity
  | .form (.function plicity _ _) => some plicity
  | _ => none

theorem Expr.plicity?_map {α β : Type} (f : α → β) (e : Expr α) :
    (e.map f).plicity? = e.plicity? := by
  cases e with
  | form layer => cases layer <;> rfl
  | _ => rfl

/-- A layer draws types, with implicit functions among them only if it is one. -/
theorem Draws.within {allowed : List Plicity} {e : Expr String} {type : Value} {asked : List Request}
    (h : Draws e type asked) (hexplicit : .explicit ∈ allowed)
    (hallowed : ∀ plicity, e.plicity? = some plicity → plicity ∈ allowed) :
    type.Within (.types allowed) ∧ ∀ request ∈ asked, request.2.2.Within (.types allowed) := by
  have hvar : ∀ name, (Value.var name).Within (.types allowed) :=
    fun _ => Value.within_var.mpr trivial
  have hnone : ∀ request ∈ ([] : List Request), request.2.2.Within (.types allowed) :=
    List.forall_mem_nil _
  cases h with
  | identifier name => exact ⟨hvar name, hnone⟩
  | literal a => exact ⟨Value.within_map_var (f := .literal a) rfl, hnone⟩
  | record fields => exact ⟨Value.within_map_var (f := .record fields) rfl, hnone⟩
  | function plicity parameter body =>
    have hplicity := List.contains_iff_mem.mpr (hallowed plicity rfl)
    exact ⟨Value.within_map_var (f := .function plicity parameter body) hplicity, hnone⟩
  | data name parameters =>
    exact ⟨Value.within_map_var (f := .data name parameters) rfl, hnone⟩
  | native implementations result => exact ⟨hvar result, hnone⟩
  | binding name value body => exact ⟨hvar body, List.forall_mem_singleton.mpr (hvar name)⟩
  | application callee parameter result =>
    exact ⟨hvar result, List.forall_mem_singleton.mpr (Value.within_map_var
      (f := .function .explicit parameter result) (List.contains_iff_mem.mpr hexplicit))⟩
  | dual left right result =>
    exact ⟨hvar result, List.forall_mem_cons.mpr
      ⟨hvar result, List.forall_mem_singleton.mpr (hvar result)⟩⟩
  | property source name result =>
    exact ⟨hvar result, List.forall_mem_singleton.mpr
      (Value.within_map_var (f := .record [(name, result)]) rfl)⟩
  | position source name result before =>
    have hdata : (Value.term (Form.map .var (.data name (before ++ [result])))).Within
        (.types allowed) := Value.within_map_var rfl
    rw [Form.map, List.map_append] at hdata
    exact ⟨hvar result, List.forall_mem_singleton.mpr hdata⟩
  | choice subject test result arms =>
    refine ⟨hvar result, List.forall_mem_cons.mpr ⟨hvar test, fun request hmem => ?_⟩⟩
    obtain ⟨arm, -, hmem⟩ := List.mem_flatMap.mp hmem
    rcases List.mem_pair.mp hmem with rfl | rfl
    · exact hvar test
    · exact hvar result

theorem Draws.dualFree {e : Expr String} {type : Value} {asked : List Request}
    (h : Draws e type asked) : type.dualFree ∧ ∀ request ∈ asked, request.2.2.dualFree := by
  have hall : ∀ plicity, plicity ∈ [Plicity.explicit, .implicit] := by
    intro plicity
    cases plicity <;> simp
  obtain ⟨htype, hasked⟩ := h.within (hall .explicit) fun plicity _ => hall plicity
  exact ⟨htype.dualFree, fun request hmem => (hasked request hmem).dualFree⟩

def Shaped.note (name : String) (kind : Kind) (request : Request) : Constraint :=
  ⟨request.1, request.2.1, request.2.2, name, .shape kind⟩

/-- All that a node asks of its children, and its own equation, is among the constraints. -/
def Sketched (constraints : List Constraint) (m : Node Shaped) : Prop :=
  ∃ asked, Draws (m.expression.map fun child => child.decoration.name) m.decoration.type asked ∧
    ∀ request ∈ asked ++ [(.equals, m.decoration.name, m.decoration.type)],
      Shaped.note m.decoration.name m.kind request ∈ constraints

def Asks (m : Node Shaped) (c : Constraint) : Prop :=
  ∃ asked, Draws (m.expression.map fun child => child.decoration.name) m.decoration.type asked ∧
    ∃ request ∈ asked ++ [(.equals, m.decoration.name, m.decoration.type)],
      c = Shaped.note m.decoration.name m.kind request

theorem Sketched.mono {constraints more : List Constraint} {m : Node Shaped}
    (h : Sketched constraints m) (hsubset : constraints ⊆ more) : Sketched more m := by
  obtain ⟨asked, hdraws, hasked⟩ := h
  exact ⟨asked, hdraws, fun request hmem => hsubset (hasked request hmem)⟩

structure Constraint.Noted (σ : Type) [NameSource σ] (c : Constraint) : Prop where
  dualFree : c.value.dualFree
  provenance : ∃ kind, c.provenance = .shape kind
  madeUp : c.relation ≠ .equals → ∀ name, c.value = .var name → MadeUp σ name

def Extends (σ : Type) [NameSource σ] (constraints more : List Constraint) : Prop :=
  constraints ⊆ more ∧ ∀ c ∈ more, c ∈ constraints ∨ c.Noted σ

theorem Extends.refl {σ : Type} [NameSource σ] (constraints : List Constraint) :
    Extends σ constraints constraints :=
  ⟨List.Subset.refl _, fun _ h => .inl h⟩

theorem Extends.trans {σ : Type} [NameSource σ] {constraints more most : List Constraint}
    (h : Extends σ constraints more) (h' : Extends σ more most) : Extends σ constraints most := by
  refine ⟨List.Subset.trans h.1 h'.1, fun c hc => ?_⟩
  rcases h'.2 c hc with hmore | hadded
  · exact h.2 c hmore
  · exact .inr hadded

section Attach

variable {σ D : Type} [NameSource σ] {d t : Draft σ} {m : Node Shaped}

/-- What attaching a node leads to: the name of the node is drawn first, and its own equation comes
after what it asks of its children. -/
structure Attaches (d : Draft σ) (m : Node Shaped) (t : Draft σ) (asked : List Request) : Prop where
  name : m.decoration.name = (NameSource.fresh (Shaped.stem m.kind) d.names).1
  draws : Draws (m.expression.map fun child => child.decoration.name) m.decoration.type asked
  invented : (m.expression.invented m.decoration.type (asked.map fun request => request.2.2)).Perm
    (draw m.expression.innerStems (NameSource.fresh (Shaped.stem m.kind) d.names).2).1
  drafted : Drafted m.expression.stems d t
    ((asked ++ [(Relation.equals, m.decoration.name, m.decoration.type)]).map
      (Shaped.note m.decoration.name m.kind))

theorem yields_attach {e : Expr (Node Shaped)}
    (h : (Execution.state (Draft σ)).Yields (Shaped.attach e) d m t) :
    m.expression = e ∧ ∃ asked, Attaches d m t asked := by
  simp only [Shaped.attach, Execution.yields_bind, Execution.yields_pure] at h
  obtain ⟨name, u, hname, type, v, htype, _, _, hown, rfl, rfl⟩ := h
  obtain ⟨hdrawn, hu⟩ := Draft.yields_fresh hname
  obtain ⟨asked, hdraws, hinvented, hv⟩ :=
    yields_typeOf (Shaped.note name e.kind) (fun _ _ _ => rfl) htype
  rw [Expr.invented_map, Expr.innerStems_map, hu.names] at hinvented
  rw [Expr.innerStems_map] at hv
  refine ⟨rfl, asked, hdrawn, hdraws, hinvented, ?_⟩
  rw [List.map_append]
  exact (hu.trans hv).adds (Draft.yields_constrain hown)

/-- What a node makes up is made up, and so are the variables it asks for. -/
theorem Attaches.named {asked : List Request} (h : Attaches d m t asked) : Named (MadeUp σ)
    (m.expression.map fun child => child.decoration.name) m.decoration.type asked := by
  refine h.draws.named.imp fun name hname => ?_
  rw [Expr.invented_map, h.invented.mem_iff] at hname
  exact madeUp_of_mem_draw m.expression.innerStems_subset hname

theorem Attaches.sketched {asked : List Request} (h : Attaches d m t asked) :
    Sketched t.constraints m ∧ Extends σ d.constraints t.constraints := by
  obtain ⟨htype, hasked⟩ := h.draws.dualFree
  rw [h.drafted.constraints]
  refine ⟨⟨asked, h.draws, fun request hmem => ?_⟩, List.subset_append_left _ _, fun c hc => ?_⟩
  · exact List.mem_append_right _ (List.mem_map_of_mem hmem)
  · refine (List.mem_append.mp hc).imp id fun hnew => ?_
    obtain ⟨request, hrequest, rfl⟩ := List.mem_map.mp hnew
    rcases List.mem_append.mp hrequest with hmem | hmem
    · exact ⟨hasked request hmem, ⟨m.kind, rfl⟩, h.named.asked request hmem⟩
    · rw [List.mem_singleton.mp hmem]
      exact ⟨htype, ⟨m.kind, rfl⟩, fun hrelation => absurd rfl hrelation⟩

def Attached (σ : Type) [NameSource σ] (n : Node Shaped) : Prop :=
  ∃ (d t : Draft σ) (asked : List Request), Attaches d n t asked

/-- Every node of a shaped tree was attached and has left its constraints behind. -/
theorem yields_rebuildM (tree : Node D)
    (h : (Execution.state (Draft σ)).Yields (tree.rebuildM fun e _ => Shaped.attach e) d m t) :
    (∀ n ∈ m.toList, Sketched t.constraints n ∧ Attached σ n) ∧
      Extends σ d.constraints t.constraints := by
  refine Node.rebuildM_induction (Execution.state (Draft σ)) (P := fun _ m d t =>
    (∀ n ∈ m.toList, Sketched t.constraints n ∧ Attached σ n) ∧
      Extends σ d.constraints t.constraints) ?_ h
  intro pairs _ m d u t hvisits hattach
  obtain ⟨hextends, hparts⟩ : Extends σ d.constraints u.constraints ∧
      ∀ pair ∈ pairs.children, ∀ n ∈ pair.2.toList, Sketched u.constraints n ∧ Attached σ n := by
    refine hvisits.spec (I := fun v => Extends σ d.constraints v.constraints)
      (Q := fun pair v => ∀ n ∈ pair.2.toList, Sketched v.constraints n ∧ Attached σ n)
      (.refl _) ?_
    rintro pair - v w ⟨hnodes, hw⟩ hv
    refine ⟨hv.trans hw, hnodes, fun other hother n hn => ?_⟩
    exact (hother n hn).imp (fun hsketched => hsketched.mono hw.1) id
  obtain ⟨hexpression, asked, hattaches⟩ := yields_attach hattach
  obtain ⟨hroot, ht⟩ := hattaches.sketched
  refine ⟨fun n hn => ?_, hextends.trans ht⟩
  obtain ⟨expression, shaped⟩ := m
  subst hexpression
  rcases Node.mem_toList_mk.mp hn with rfl | ⟨child, hchild, hn⟩
  · exact ⟨hroot, u, t, asked, hattaches⟩
  · rw [Expr.children_map] at hchild
    obtain ⟨pair, hpair, rfl⟩ := List.mem_map.mp hchild
    exact (hparts pair hpair n hn).imp (fun hsketched => hsketched.mono ht.1) id

theorem sketched_attachShapes (tree : Node D) (names : σ) :
    (∀ m ∈ (attachShapes tree names).node.toList,
        Sketched (attachShapes tree names).constraints m) ∧
      ∀ c ∈ (attachShapes tree names).constraints, c.value.dualFree := by
  obtain ⟨hnodes, hextends⟩ := yields_rebuildM tree (d := ⟨names, []⟩) rfl
  exact ⟨fun m hm => (hnodes m hm).1,
    fun c hc => ((hextends.2 c hc).resolve_left List.not_mem_nil).dualFree⟩

theorem attached_attachShapes (tree : Node D) (names : σ) :
    ∀ m ∈ (attachShapes tree names).node.toList, Attached σ m := by
  obtain ⟨hnodes, -⟩ := yields_rebuildM tree (d := ⟨names, []⟩) rfl
  exact fun m hm => (hnodes m hm).2

theorem noted_attachShapes (tree : Node D) (names : σ) :
    ∀ c ∈ (attachShapes tree names).constraints, c.Noted σ := by
  obtain ⟨-, hextends⟩ := yields_rebuildM tree (d := ⟨names, []⟩) rfl
  exact fun c hc => (hextends.2 c hc).resolve_left List.not_mem_nil

/-- The constraints of a tree are what its nodes ask for. -/
theorem asks_of_mem (tree : Node D)
    (h : (Execution.state (Draft σ)).Yields (tree.rebuildM fun e _ => Shaped.attach e) d m t) :
    ∀ c ∈ t.constraints, c ∈ d.constraints ∨ ∃ n ∈ m.toList, Asks n c := by
  refine Node.rebuildM_induction (Execution.state (Draft σ)) (P := fun _ m d t =>
    ∀ c ∈ t.constraints, c ∈ d.constraints ∨ ∃ n ∈ m.toList, Asks n c) ?_ h
  intro pairs _ m d u t hvisits hattach c hc
  obtain ⟨hexpression, asked, hattaches⟩ := yields_attach hattach
  have hparts : ∀ c ∈ u.constraints, c ∈ d.constraints ∨ ∃ n ∈ m.toList, Asks n c := by
    refine hvisits.invariant (I := fun v => ∀ c ∈ v.constraints,
      c ∈ d.constraints ∨ ∃ n ∈ m.toList, Asks n c) (fun c hc => .inl hc) ?_
    intro pair hpair v w hstep hv c hc
    rcases hstep c hc with hold | ⟨n, hn, hasks⟩
    · exact hv c hold
    · refine .inr ⟨n, Node.mem_toList_of_child ?_ hn, hasks⟩
      rw [hexpression]
      exact Expr.mem_children_map hpair
  rw [hattaches.drafted.constraints] at hc
  rcases List.mem_append.mp hc with hold | hnew
  · exact hparts c hold
  · obtain ⟨request, hrequest, rfl⟩ := List.mem_map.mp hnew
    exact .inr ⟨m, Node.mem_toList_self m, asked, hattaches.draws, request, hrequest, rfl⟩

theorem asks_attachShapes (tree : Node D) (names : σ) :
    ∀ c ∈ (attachShapes tree names).constraints,
      ∃ m ∈ (attachShapes tree names).node.toList, Asks m c := by
  intro c hc
  exact (asks_of_mem tree (d := ⟨names, []⟩) rfl c hc).resolve_left List.not_mem_nil

theorem provenance_attachShapes (tree : Node D) (names : σ) :
    ∀ c ∈ (attachShapes tree names).constraints, ∃ kind, c.provenance = .shape kind :=
  fun c hc => (noted_attachShapes tree names c hc).provenance

/-- Attaching shapes keeps the tree. -/
theorem undecorated_attachShapes (tree : Node D) (names : σ) :
    (attachShapes tree names).node.undecorated = tree.undecorated := by
  refine Node.rebuildM_induction (Execution.state (Draft σ)) (s := ⟨names, []⟩)
    (P := fun tree m _ _ => m.undecorated = tree.undecorated) ?_ rfl
  intro pairs _ m _ _ _ hvisits hattach
  obtain ⟨hexpression, -⟩ := yields_attach hattach
  obtain ⟨expression, shaped⟩ := m
  subst hexpression
  rw [Node.undecorated_mk, Node.undecorated_mk, Expr.map_map, Expr.map_map]
  exact congrArg (Node.mk · ()) (Expr.map_congr (hvisits.forall_mem fun _ _ _ _ hstep => hstep))

/-- All types that are drawn for a tree, and all values that its nodes ask for, are types, with
functions only of plicities that the tree has. -/
theorem within_attachShapes {allowed : List Plicity} (tree : Node D) (names : σ)
    (hexplicit : .explicit ∈ allowed) (hallowed : ∀ n ∈ tree.toList, ∀ plicity,
      n.expression.plicity? = some plicity → plicity ∈ allowed) :
    (∀ m ∈ (attachShapes tree names).node.toList, m.decoration.type.Within (.types allowed)) ∧
      ∀ c ∈ (attachShapes tree names).constraints, c.value.Within (.types allowed) := by
  have hdraws : ∀ m ∈ (attachShapes tree names).node.toList, ∀ asked,
      Draws (m.expression.map fun child => child.decoration.name) m.decoration.type asked →
        m.decoration.type.Within (.types allowed) ∧
          ∀ request ∈ asked, request.2.2.Within (.types allowed) := by
    intro m hm asked hdraws
    obtain ⟨n, hn, hsame⟩ :=
      Node.exists_of_undecorated (undecorated_attachShapes tree names) hm
    refine hdraws.within hexplicit fun plicity hplicity => hallowed n hn plicity ?_
    rwa [← Expr.plicity?_map Node.undecorated, hsame, Expr.plicity?_map,
      ← Expr.plicity?_map fun child => child.decoration.name]
  constructor
  · intro m hm
    obtain ⟨asked, hdrawn, -⟩ := (sketched_attachShapes tree names).1 m hm
    exact (hdraws m hm asked hdrawn).1
  · intro c hc
    obtain ⟨m, hm, asked, hdrawn, request, hrequest, rfl⟩ := asks_attachShapes tree names c hc
    obtain ⟨htype, hasked⟩ := hdraws m hm asked hdrawn
    rcases List.mem_append.mp hrequest with hmem | hown
    · exact hasked request hmem
    · rw [List.mem_singleton.mp hown]
      exact htype

theorem size_attachShapes (tree : Node D) (names : σ) :
    (attachShapes tree names).node.size = tree.size := by
  have hsizes := congrArg Node.size (undecorated_attachShapes tree names)
  rwa [Node.size_undecorated, Node.size_undecorated] at hsizes

end Attach

end ImplicitInference
