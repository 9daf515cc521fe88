import ImplicitInference.Decorations
import ImplicitInference.Json.Reader
import ImplicitInference.Json.Writer
import ImplicitInference.CommandLine.Arguments

/-!
What the command line answers: the two output streams and the exit code. A tree with diagnostics is
a failure of `check` but not of `constraints`.
-/

namespace ImplicitInference.CommandLine

inductive SourceError where
  | notFound
  | notDirectory
  | isDirectory
  | other (message : String)
  deriving DecidableEq, Repr

def SourceError.message : SourceError → String
  | notFound => "No such file or directory (os error 2)"
  | notDirectory => "Not a directory (os error 20)"
  | isDirectory => "Is a directory (os error 21)"
  | other message => message

inductive Failure where
  | source (path : String) (error : SourceError)
  | tree
  | typing (error : TypingError)
  deriving DecidableEq, Repr

def Failure.message : Failure → String
  | source path error => "could not read " ++ path ++ ": " ++ error.message
  | tree => "invalid expression tree"
  | typing error => error.message

structure Output where
  stdout : String
  stderr : String
  isOk : Bool
  deriving DecidableEq, Repr

def nestingLimit : Nat := 127

/-- The numbers of a tree are read by scaling. -/
def readTree (source : String) : Except Failure (Node Unit) :=
  match Json.parse? Numeral.scaled? nestingLimit source >>= Node.decodePlain with
  | some node => .ok node
  | none => .error .tree

private def lines (texts : List String) : String := String.join (texts.map (· ++ "\n"))

def supplied (node : Node Resolved) : List Json :=
  (node.toList.filter fun n => !n.decoration.supplied.isEmpty).map fun n =>
    .object [("expression", .string n.render),
      ("implicits", .array (n.decoration.supplied.map Resolved.encodeCandidate))]

def document (checked : Checked) : Json :=
  .object [("rootType", checked.rootType.encode),
    ("diagnostics", .array (checked.diagnostics.map Diagnostic.describe)),
    ("resolvedImplicits", .array (supplied checked.node))]

def reportText (checked : Checked) : Output where
  stdout := lines [checked.rootType.render]
  stderr := lines (checked.diagnostics.map fun d => "error: " ++ d.message)
  isOk := checked.isOk

def reportJson (checked : Checked) : Output where
  stdout := lines [(document checked).pretty 0]
  stderr := ""
  isOk := checked.isOk

def reportConstraints (checked : Checked) : Output where
  stdout := lines (["constraints:"] ++ checked.constraints.map (fun c => "  " ++ c.render)
    ++ ["reduced:"] ++ checked.entries.values.map (fun e => "  " ++ e.render)
    ++ ["simplified:"] ++ checked.values.toList.map (fun row => "  " ++ row.1 ++ " = "
      ++ row.2.render))
  stderr := ""
  isOk := true

def Command.options (c : Command) : Options :=
  let usual : Options := {}
  { reductionLimit := c.reductionLimit.getD usual.reductionLimit
    builtinInstances := c.builtinInstances }

def Command.run (c : Command) (source : Except SourceError String) : Except Failure Output := do
  let source ← source.mapError (Failure.source c.path)
  let node ← readTree source
  let checked ← (check c.options ({} : Counter) node).mapError Failure.typing
  return match c.action, c.format with
    | .check, .text => reportText checked
    | .check, .json => reportJson checked
    | .constraints, _ => reportConstraints checked

end ImplicitInference.CommandLine
