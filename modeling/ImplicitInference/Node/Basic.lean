import ImplicitInference.Form.Text

/-!
Expression trees. `Expr α` is one layer of an expression with an `α` in the place of each child: a
reference, a form, a binding, or code of the backends. A `Node D` is such a layer over nodes with a
decoration of type `D`; what is known about a tree is kept in its decorations. `para` is the only
recursion on trees.
-/

namespace ImplicitInference

inductive Expr (α : Type) where
  | identifier (name : String)
  | form (form : Form α)
  | binding (name : String) (value body : α)
  | native (implementations : List (String × String))
  deriving DecidableEq, Repr

inductive Kind where
  | identifier
  | symbol
  | number
  | boolean
  | string
  | record
  | application
  | function
  | dataInstantiation
  | binding
  | dual
  | readRecordProperty
  | readDataProperty
  | patternMatch
  | native
  deriving DecidableEq, Repr

namespace Kind

def name : Kind → String
  | identifier => "Identifier"
  | symbol => "Symbol"
  | number => "Number"
  | boolean => "Boolean"
  | string => "String"
  | record => "Record"
  | application => "Application"
  | function => "Function"
  | dataInstantiation => "DataInstantiation"
  | binding => "Binding"
  | dual => "Dual"
  | readRecordProperty => "ReadRecordProperty"
  | readDataProperty => "ReadDataProperty"
  | patternMatch => "PatternMatch"
  | native => "Native"

def all : List Kind :=
  [identifier, symbol, number, boolean, string, record, application, function, dataInstantiation,
    binding, dual, readRecordProperty, readDataProperty, patternMatch, native]

def ofName? (name : String) : Option Kind := all.find? fun kind => kind.name == name

end Kind

namespace Expr

variable {α β γ : Type}

def map (f : α → β) : Expr α → Expr β
  | identifier name => identifier name
  | form layer => form (layer.map f)
  | binding name value body => binding name (f value) (f body)
  | native implementations => native implementations

def children : Expr α → List α
  | identifier _ => []
  | form layer => layer.children
  | binding _ value body => [value, body]
  | native _ => []

def mapM {m : Type → Type} [Monad m] (f : α → m β) : Expr α → m (Expr β)
  | identifier name => pure (identifier name)
  | form layer => return form (← layer.mapM f)
  | binding name value body => return binding name (← f value) (← f body)
  | native implementations => pure (native implementations)

def kind : Expr α → Kind
  | identifier _ => .identifier
  | form (.literal (.symbol _)) => .symbol
  | form (.literal (.number _)) => .number
  | form (.literal (.boolean _)) => .boolean
  | form (.literal (.string _)) => .string
  | form (.record _) => .record
  | form (.application _ _) => .application
  | form (.function _ _ _) => .function
  | form (.data _ _) => .dataInstantiation
  | form (.dual _ _) => .dual
  | form (.read _ (.property _)) => .readRecordProperty
  | form (.read _ (.position _)) => .readDataProperty
  | form (.choice _ _) => .patternMatch
  | binding _ _ _ => .binding
  | native _ => .native

def render : Expr String → String
  | identifier name => name
  | form layer => layer.render "=>"
  | binding name value body => "let " ++ name ++ " = " ++ value ++ " in " ++ body
  | native implementations => "native " ++ braced (implementations.map Prod.fst)

@[simp] theorem map_id (e : Expr α) : e.map id = e := by
  cases e <;> simp [map]

@[simp] theorem map_map (f : α → β) (g : β → γ) (e : Expr α) :
    (e.map f).map g = e.map (g ∘ f) := by
  cases e <;> simp [map]

@[simp] theorem children_map (f : α → β) (e : Expr α) :
    (e.map f).children = e.children.map f := by
  cases e <;> simp [map, children]

theorem sizeOf_lt_of_mem_children [SizeOf α] {e : Expr α} {a : α} (h : a ∈ e.children) :
    sizeOf a < sizeOf e := by
  cases e with
  | identifier _ => simp [children] at h
  | form layer =>
    have := Form.sizeOf_lt_of_mem_children h
    simp only [form.sizeOf_spec]
    omega
  | binding name value body =>
    simp only [children, List.mem_cons, List.not_mem_nil, or_false] at h
    rcases h with rfl | rfl <;> (simp only [binding.sizeOf_spec]; omega)
  | native _ => simp [children] at h

end Expr

structure Node (D : Type) where
  expression : Expr (Node D)
  decoration : D

namespace Node

variable {D E : Type}

section Recursion

variable {β : Type} (step : Expr (Node D × β) → D → β)

mutual
def para : Node D → β
  | ⟨expression, decoration⟩ => step (paraExpr expression) decoration
def paraExpr : Expr (Node D) → Expr (Node D × β)
  | .identifier name => .identifier name
  | .form layer => .form (paraForm layer)
  | .binding name value body => .binding name (value, para value) (body, para body)
  | .native implementations => .native implementations
def paraForm : Form (Node D) → Form (Node D × β)
  | .literal a => .literal a
  | .record fields => .record (paraFields fields)
  | .function p parameter body => .function p (parameter, para parameter) (body, para body)
  | .application callee parameter =>
    .application (callee, para callee) (parameter, para parameter)
  | .data name parameters => .data (name, para name) (paraList parameters)
  | .dual left right => .dual (left, para left) (right, para right)
  | .read source accessor => .read (source, para source) accessor
  | .choice subject arms => .choice (subject, para subject) (paraArms arms)
def paraFields : List (String × Node D) → List (String × (Node D × β))
  | [] => []
  | (name, node) :: rest => (name, node, para node) :: paraFields rest
def paraList : List (Node D) → List (Node D × β)
  | [] => []
  | node :: rest => (node, para node) :: paraList rest
def paraArms : List (Node D × Node D) → List ((Node D × β) × (Node D × β))
  | [] => []
  | (test, result) :: rest => ((test, para test), (result, para result)) :: paraArms rest
end

theorem paraFields_eq_map (fields : List (String × Node D)) :
    paraFields step fields = fields.map fun field => (field.1, field.2, para step field.2) := by
  induction fields with
  | nil => rfl
  | cons field rest ih => simp [paraFields, ih]

theorem paraList_eq_map (nodes : List (Node D)) :
    paraList step nodes = nodes.map fun node => (node, para step node) := by
  induction nodes with
  | nil => rfl
  | cons node rest ih => simp [paraList, ih]

theorem paraArms_eq_map (arms : List (Node D × Node D)) :
    paraArms step arms =
      arms.map fun arm => ((arm.1, para step arm.1), (arm.2, para step arm.2)) := by
  induction arms with
  | nil => rfl
  | cons arm rest ih => simp [paraArms, ih]

theorem paraForm_eq_map (layer : Form (Node D)) :
    paraForm step layer = layer.map fun node => (node, para step node) := by
  cases layer <;>
    simp [paraForm, Form.map, paraFields_eq_map, paraList_eq_map, paraArms_eq_map]

@[simp] theorem para_mk (e : Expr (Node D)) (d : D) :
    para step ⟨e, d⟩ = step (e.map fun node => (node, para step node)) d := by
  rw [para]
  cases e <;> simp [paraExpr, Expr.map, paraForm_eq_map]

end Recursion

section Fold

variable {β : Type} (step : Expr β → D → β)

/-- Recursion that sees only the results of the children. -/
def fold : Node D → β := para fun e d => step (e.map Prod.snd) d

@[simp] theorem fold_mk (e : Expr (Node D)) (d : D) :
    fold step ⟨e, d⟩ = step (e.map (fold step)) d := by
  simp [fold, Function.comp_def]

end Fold

/-- Induction on trees: a node has what all its children have. -/
@[elab_as_elim]
theorem induction {motive : Node D → Prop}
    (mk : ∀ (e : Expr (Node D)) (d : D), (∀ n ∈ e.children, motive n) → motive ⟨e, d⟩)
    (n : Node D) : motive n :=
  match n with
  | ⟨e, d⟩ => mk e d fun m _ => induction mk m
termination_by sizeOf n
decreasing_by
  rename_i h
  have := Expr.sizeOf_lt_of_mem_children h
  simp only [Node.mk.sizeOf_spec]
  omega

/-- Rebuilds a tree from the leaves up with an action, children in order and before their parent. -/
def rebuildM {m : Type → Type} [Monad m] (step : Expr (Node E) → D → m (Node E)) :
    Node D → m (Node E) :=
  fold fun e d => do step (← e.mapM id) d

def kind (n : Node D) : Kind := n.expression.kind

def children (n : Node D) : List (Node D) := n.expression.children

def size : Node D → Nat := fold fun e _ => 1 + e.children.foldr (· + ·) 0

def render : Node D → String := fold fun e _ => e.render

/-- The nodes of a tree, each before its children. -/
def toList : Node D → List (Node D) :=
  para fun e d => ⟨e.map Prod.fst, d⟩ :: e.children.flatMap Prod.snd

/-- The names that a pattern binds, each with the decoration of its identifier. The name of a data
value is the constructor that is matched and binds nothing. -/
def boundIdentifiers : Node D → List (String × D) :=
  fold fun e d =>
    match e with
    | .identifier name => [(name, d)]
    | .form (.data _ parameters) => parameters.flatten
    | e => e.children.flatten

end Node

end ImplicitInference
