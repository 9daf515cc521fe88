import ImplicitInference.Form.Text
import ImplicitInference.Table

/-!
Values: types, and terms used at the level of types. A value is a variable or a form over values, so
substitution of variables is the fold that rebuilds every form. `para` is the only recursion on
values; each child is given to it together with its own result.
-/

namespace ImplicitInference

inductive Value where
  | var (name : String)
  | term (form : Form Value)
  deriving Repr

namespace Value

@[match_pattern] abbrev literal (a : Literal) : Value := term (.literal a)
@[match_pattern] abbrev number (x : Number) : Value := term (.literal (.number x))
@[match_pattern] abbrev string (s : String) : Value := term (.literal (.string s))
@[match_pattern] abbrev symbol (name : String) : Value := term (.literal (.symbol name))
@[match_pattern] abbrev record (fields : List (String × Value)) : Value := term (.record fields)
@[match_pattern] abbrev data (name : Value) (parameters : List Value) : Value :=
  term (.data name parameters)
@[match_pattern] abbrev function (plicity : Plicity) (parameter body : Value) : Value :=
  term (.function plicity parameter body)
@[match_pattern] abbrev dual (left right : Value) : Value := term (.dual left right)

instance : Inhabited Value := ⟨var ""⟩

section Recursion

variable {β : Type} (onVar : String → β) (onTerm : Form (Value × β) → β)

mutual
def para : Value → β
  | var name => onVar name
  | term form => onTerm (paraForm form)
def paraForm : Form Value → Form (Value × β)
  | .literal a => .literal a
  | .record fields => .record (paraFields fields)
  | .function p parameter body =>
    .function p (parameter, para parameter) (body, para body)
  | .application callee parameter =>
    .application (callee, para callee) (parameter, para parameter)
  | .data name parameters => .data (name, para name) (paraList parameters)
  | .dual left right => .dual (left, para left) (right, para right)
  | .read source accessor => .read (source, para source) accessor
  | .choice subject arms => .choice (subject, para subject) (paraArms arms)
def paraFields : List (String × Value) → List (String × (Value × β))
  | [] => []
  | (name, value) :: rest => (name, value, para value) :: paraFields rest
def paraList : List Value → List (Value × β)
  | [] => []
  | value :: rest => (value, para value) :: paraList rest
def paraArms : List (Value × Value) → List ((Value × β) × (Value × β))
  | [] => []
  | (test, result) :: rest => ((test, para test), (result, para result)) :: paraArms rest
end

theorem paraFields_eq_map (fields : List (String × Value)) :
    paraFields onVar onTerm fields =
      fields.map fun field => (field.1, field.2, para onVar onTerm field.2) := by
  induction fields with
  | nil => rfl
  | cons field rest ih => simp [paraFields, ih]

theorem paraList_eq_map (values : List Value) :
    paraList onVar onTerm values =
      values.map fun value => (value, para onVar onTerm value) := by
  induction values with
  | nil => rfl
  | cons value rest ih => simp [paraList, ih]

theorem paraArms_eq_map (arms : List (Value × Value)) :
    paraArms onVar onTerm arms =
      arms.map fun arm =>
        ((arm.1, para onVar onTerm arm.1), (arm.2, para onVar onTerm arm.2)) := by
  induction arms with
  | nil => rfl
  | cons arm rest ih => simp [paraArms, ih]

@[simp] theorem para_var (name : String) :
    para onVar onTerm (var name) = onVar name := by rw [para]

@[simp] theorem para_term (form : Form Value) :
    para onVar onTerm (term form) =
      onTerm (form.map fun value => (value, para onVar onTerm value)) := by
  rw [para]
  cases form <;>
    simp [paraForm, Form.map, paraFields_eq_map, paraList_eq_map, paraArms_eq_map]

end Recursion

section Fold

variable {β : Type} (onVar : String → β) (onTerm : Form β → β)

def fold : Value → β := para onVar fun form => onTerm (form.map Prod.snd)

@[simp] theorem fold_var (name : String) :
    fold onVar onTerm (var name) = onVar name := by simp [fold]

@[simp] theorem fold_term (form : Form Value) :
    fold onVar onTerm (term form) = onTerm (form.map (fold onVar onTerm)) := by
  simp [fold, Function.comp_def]

end Fold

/-- Induction on values: a term has what all its children have. -/
@[elab_as_elim]
theorem induction {motive : Value → Prop} (var : ∀ name, motive (var name))
    (term : ∀ form : Form Value, (∀ v ∈ form.children, motive v) → motive (term form))
    (v : Value) : motive v :=
  match v with
  | .var name => var name
  | .term form => term form fun w _ => induction var term w
termination_by sizeOf v
decreasing_by
  rename_i h
  have := Form.sizeOf_lt_of_mem_children h
  simp only [Value.term.sizeOf_spec]
  omega

def size : Value → Nat := fold (fun _ => 1) fun form => 1 + form.children.foldr (· + ·) 0

def render : Value → String := fold id (Form.render "->")

def compare (literals : Literal → Literal → Bool) : Value → Value → Bool :=
  fold
    (fun name other =>
      match other with
      | var name' => name == name'
      | term _ => false)
    (fun form other =>
      match other with
      | var _ => false
      | term form' => form.compare literals (fun test value => test value) form')

/-- Equality, with numbers compared as numbers: a value with a NaN differs from itself. -/
def equal : Value → Value → Bool := compare Literal.equal

/-- Equality, with numbers compared as numbers or as words. -/
def agrees : Value → Value → Bool := compare Literal.agrees

def asVar? : Value → Option String
  | var name => some name
  | term _ => none

/-- Every variable, as often as it occurs. -/
def occurrences : Value → List String := fold (fun name => [name]) fun form => form.children.flatten

@[simp] theorem occurrences_var (name : String) : (var name).occurrences = [name] := by
  simp [occurrences]

theorem occurrences_term (form : Form Value) :
    (term form).occurrences = form.children.flatMap occurrences := by
  simp [occurrences, List.flatMap_def]

/-- Every variable once, in the order of first occurrence. -/
def freeVariables (v : Value) : List String := v.occurrences.eraseDups

def subst (s : String → Value) : Value → Value := fold s term

def substitute (v : Value) (table : Table Value) : Value :=
  v.subst fun name => (table.get? name).getD (var name)

/-- Replaces, from the top down, every part that `replace` has an answer for; a part that was
replaced is not entered. -/
def rewrite (replace : Value → Option Value) : Value → Value :=
  para (fun name => (replace (var name)).getD (var name))
    fun form => (replace (term (form.map Prod.fst))).getD (term (form.map Prod.snd))

def visited (replace : Value → Option Value) : Value → List Value :=
  para (fun name => [var name])
    fun form =>
      let whole := term (form.map Prod.fst)
      whole :: if (replace whole).isSome then [] else form.children.flatMap Prod.snd

end Value

end ImplicitInference
