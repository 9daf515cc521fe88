import ImplicitInference.Form.Basic
import ImplicitInference.Number.Layout
import ImplicitInference.Text.Quoted

/-!
The displayed text of a layer from the texts of its children. Expressions and values differ only in
the arrow of a function.
-/

namespace ImplicitInference

def Literal.render : Literal → String
  | number x => Layout.displayed.render x
  | boolean b => if b then "true" else "false"
  | string s => Text.quoted s
  | symbol name => name

def Accessor.render : Accessor → String
  | property name => name
  | position index => toString index

def braced (parts : List String) : String :=
  "\x7b" ++ ",".intercalate (parts.map (" " ++ ·)) ++ " \x7d"

def Form.render (arrow : String) : Form String → String
  | literal a => a.render
  | record fields =>
    "\x7b" ++ ", ".intercalate (fields.map fun field => field.1 ++ ": " ++ field.2) ++ "\x7d"
  | function plicity parameter body =>
    (if plicity = .implicit then "implicit " else "") ++ "(" ++ parameter ++ ") " ++ arrow ++ " "
      ++ body
  | application callee parameter => "(" ++ callee ++ " " ++ parameter ++ ")"
  | data name parameters => name ++ "(" ++ ", ".intercalate parameters ++ ")"
  | dual left right => "(" ++ left ++ " | " ++ right ++ ")"
  | read source accessor => source ++ "." ++ accessor.render
  | choice subject arms =>
    "match " ++ subject ++ " " ++ braced (arms.map fun arm => arm.1 ++ " => " ++ arm.2)

end ImplicitInference
