import ImplicitInference.Shaped
import ImplicitInference.Table

/-!
Types. Once the entries are reduced and simplified, every node gets two values: the shape, which is
what its surroundings want of it, and the type, which is what it has.
-/

namespace ImplicitInference

structure Typed where
  shape : Value
  type : Value

inductive TypingError where
  | missingShape (name : String)
  | emptyNative (name : String)
  deriving DecidableEq, Repr

def TypingError.message : TypingError → String
  | missingShape name => "no type was inferred for `" ++ name ++ "`"
  | emptyNative name => "native expression `" ++ name ++ "` has no implementations"

namespace Typed

/-- The values of one node. A node that is consumed is wanted without implicit parameters. -/
def ofShaped (entries : Table Entry) (values : Table Value) (shaped : Shaped) :
    Except TypingError Typed :=
  match entries.get? shaped.name, values.get? shaped.name with
  | some entry, some shape =>
    .ok ⟨if entry.isConsumed then shape.stripImplicits else shape, shaped.type.substitute values⟩
  | _, _ => .error (.missingShape shaped.name)

def attach (entries : Table Entry) (values : Table Value) (e : Expr (Node Typed))
    (shaped : Shaped) : Except TypingError (Node Typed) :=
  match e with
  | .native [] => .error (.emptyNative shaped.name)
  | e => (ofShaped entries values shaped).map fun typed => ⟨e, typed⟩

end Typed

def retype (entries : Table Entry) (values : Table Value) :
    Node Shaped → Except TypingError (Node Typed) :=
  Node.rebuildM (Typed.attach entries values)

end ImplicitInference
