import ImplicitInference.Number.Basic

/-!
The ways to form a compound, shared by expressions and by the values that type them: literals,
records, functions, applications, data, duals, reads and choices. `Form α` is one such layer with
an `α` in the place of each child. Children are always visited in the order of `children`.
-/

namespace ImplicitInference

inductive Literal where
  | number (x : Number)
  | boolean (b : Bool)
  | string (s : String)
  | symbol (name : String)
  deriving DecidableEq, Repr

namespace Literal

def equal : Literal → Literal → Bool
  | number x, number y => x.equal y
  | a, b => a == b

def agrees : Literal → Literal → Bool
  | number x, number y => x.agrees y
  | a, b => a == b

def sameKind : Literal → Literal → Bool
  | number _, number _ | boolean _, boolean _ | string _, string _ | symbol _, symbol _ => true
  | _, _ => false

end Literal

/-- Whether a parameter is written at the call or found in the caller's scope. -/
inductive Plicity where
  | explicit
  | implicit
  deriving DecidableEq, Repr

/-- Which part of a compound is read: a field of a record or a parameter of a data value. -/
inductive Accessor where
  | property (name : String)
  | position (index : Nat)
  deriving DecidableEq, Repr

def Accessor.sameKind : Accessor → Accessor → Bool
  | property _, property _ | position _, position _ => true
  | _, _ => false

inductive Form (α : Type) where
  | literal (value : Literal)
  | record (fields : List (String × α))
  | function (plicity : Plicity) (parameter body : α)
  | application (callee parameter : α)
  | data (name : α) (parameters : List α)
  | dual (left right : α)
  | read (source : α) (accessor : Accessor)
  | choice (subject : α) (arms : List (α × α))
  deriving DecidableEq, Repr

namespace Form

variable {α β γ : Type}

def map (f : α → β) : Form α → Form β
  | literal a => literal a
  | record fields => record (fields.map fun field => (field.1, f field.2))
  | function p parameter body => function p (f parameter) (f body)
  | application callee parameter => application (f callee) (f parameter)
  | data name parameters => data (f name) (parameters.map f)
  | dual left right => dual (f left) (f right)
  | read source accessor => read (f source) accessor
  | choice subject arms => choice (f subject) (arms.map fun arm => (f arm.1, f arm.2))

def children : Form α → List α
  | literal _ => []
  | record fields => fields.map Prod.snd
  | function _ parameter body => [parameter, body]
  | application callee parameter => [callee, parameter]
  | data name parameters => name :: parameters
  | dual left right => [left, right]
  | read source _ => [source]
  | choice subject arms => subject :: arms.flatMap fun arm => [arm.1, arm.2]

def mapM {m : Type → Type} [Monad m] (f : α → m β) : Form α → m (Form β)
  | literal a => pure (literal a)
  | record fields => return record (← fields.mapM fun field => return (field.1, ← f field.2))
  | function p parameter body => return function p (← f parameter) (← f body)
  | application callee parameter => return application (← f callee) (← f parameter)
  | data name parameters => return data (← f name) (← parameters.mapM f)
  | dual left right => return dual (← f left) (← f right)
  | read source accessor => return read (← f source) accessor
  | choice subject arms =>
    return choice (← f subject) (← arms.mapM fun arm => return (← f arm.1, ← f arm.2))

def allPairs (p : α → β → Bool) : List α → List β → Bool
  | [], [] => true
  | a :: as, b :: bs => p a b && allPairs p as bs
  | _, _ => false

/-- Whether two layers have the same outer form, related literals and related children. -/
def compare (literals : Literal → Literal → Bool) (p : α → β → Bool) : Form α → Form β → Bool
  | literal a, literal b => literals a b
  | record fs, record gs => allPairs (fun f g => f.1 == g.1 && p f.2 g.2) fs gs
  | function i a b, function j c d => i == j && p a c && p b d
  | application a b, application c d => p a c && p b d
  | data a as, data b bs => p a b && allPairs p as bs
  | dual a b, dual c d => p a c && p b d
  | read a i, read b j => p a b && i == j
  | choice a as, choice b bs => p a b && allPairs (fun x y => p x.1 y.1 && p x.2 y.2) as bs
  | _, _ => false

inductive Clash where
  | kinds
  | contents
  | fieldNames (left right : List String)
  | parameterCounts (left right : Nat)
  | armCounts (left right : Nat)
  deriving DecidableEq, Repr

def alone (form : Form α) : Form (α × Option α) := form.map fun a => (a, none)

/-- Pairs the children of two layers, as far as the layers go together; the layer itself is that of
the left side. The names of data values are paired even if their parameters do not go together. -/
def join : Form α → Form α → Form (α × Option α) × Option Clash
  | literal a, literal b =>
    (literal a,
      if a.agrees b then none else if a.sameKind b then some .contents else some .kinds)
  | record fs, record gs =>
    if fs.map Prod.fst = gs.map Prod.fst then
      (record (List.zipWith (fun f g => (f.1, f.2, some g.2)) fs gs), none)
    else (alone (record fs), some (.fieldNames (fs.map Prod.fst) (gs.map Prod.fst)))
  | function i a b, function j c d =>
    if i = j then (function i (a, some c) (b, some d), none)
    else (alone (function i a b), some .kinds)
  | application a b, application c d => (application (a, some c) (b, some d), none)
  | data a as, data b bs =>
    if as.length = bs.length then
      (data (a, some b) (List.zipWith (fun x y => (x, some y)) as bs), none)
    else
      (data (a, some b) (as.map fun x => (x, none)), some (.parameterCounts as.length bs.length))
  | dual a b, dual c d => (dual (a, some c) (b, some d), none)
  | read a i, read b j =>
    if i = j then (read (a, some b) i, none)
    else (alone (read a i), if i.sameKind j then some .contents else some .kinds)
  | choice a as, choice b bs =>
    if as.length = bs.length then
      (choice (a, some b)
        (List.zipWith (fun x y => ((x.1, some y.1), (x.2, some y.2))) as bs), none)
    else (alone (choice a as), some (.armCounts as.length bs.length))
  | left, _ => (alone left, some .kinds)

@[simp] theorem map_id (form : Form α) : form.map id = form := by
  cases form <;> simp [map]

@[simp] theorem map_map (f : α → β) (g : β → γ) (form : Form α) :
    (form.map f).map g = form.map (g ∘ f) := by
  cases form <;> simp [map]

@[simp] theorem children_map (f : α → β) (form : Form α) :
    (form.map f).children = form.children.map f := by
  cases form <;> simp [map, children, List.map_flatMap, List.flatMap_map]

theorem sizeOf_lt_of_mem_children [SizeOf α] {form : Form α} {a : α}
    (h : a ∈ form.children) : sizeOf a < sizeOf form := by
  cases form with
  | literal _ => simp [children] at h
  | record fields =>
    obtain ⟨field, hmem, rfl⟩ := List.mem_map.mp h
    have hlt := List.sizeOf_lt_of_mem hmem
    cases field
    simp only [record.sizeOf_spec, Prod.mk.sizeOf_spec] at hlt ⊢
    omega
  | function _ parameter body =>
    simp only [children, List.mem_cons, List.not_mem_nil, or_false] at h
    rcases h with rfl | rfl <;> (simp only [function.sizeOf_spec]; omega)
  | application callee parameter =>
    simp only [children, List.mem_cons, List.not_mem_nil, or_false] at h
    rcases h with rfl | rfl <;> (simp only [application.sizeOf_spec]; omega)
  | data name parameters =>
    rcases List.mem_cons.mp h with rfl | hmem
    · simp only [data.sizeOf_spec]
      omega
    · have hlt := List.sizeOf_lt_of_mem hmem
      simp only [data.sizeOf_spec]
      omega
  | dual left right =>
    simp only [children, List.mem_cons, List.not_mem_nil, or_false] at h
    rcases h with rfl | rfl <;> (simp only [dual.sizeOf_spec]; omega)
  | read source accessor =>
    simp only [children, List.mem_cons, List.not_mem_nil, or_false] at h
    subst h
    simp only [read.sizeOf_spec]
    omega
  | choice subject arms =>
    rcases List.mem_cons.mp h with rfl | hmem
    · simp only [choice.sizeOf_spec]
      omega
    · obtain ⟨arm, harm, ha⟩ := List.mem_flatMap.mp hmem
      have hlt := List.sizeOf_lt_of_mem harm
      cases arm
      simp only [List.mem_cons, List.not_mem_nil, or_false] at ha
      simp only [choice.sizeOf_spec, Prod.mk.sizeOf_spec] at hlt ⊢
      rcases ha with rfl | rfl <;> omega

end Form

end ImplicitInference
