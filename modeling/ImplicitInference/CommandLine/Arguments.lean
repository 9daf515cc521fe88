/-!
The arguments of the command line. There are two commands, each with one path. Flags stand anywhere
after the command and at most once; two dashes alone end them. The value of a flag is the next
argument or follows an equals sign.
-/

namespace ImplicitInference.CommandLine

inductive Format where
  | text
  | json
  deriving DecidableEq, Repr

def Format.ofString? : String → Option Format
  | "text" => some .text
  | "json" => some .json
  | _ => none

structure Settings where
  path : Option String := none
  reductionLimit : Option Nat := none
  noBuiltinInstances : Bool := false
  format : Option Format := none
  deriving DecidableEq, Repr

inductive Action where
  | check
  | constraints
  deriving DecidableEq, Repr

structure Command where
  action : Action
  path : String
  reductionLimit : Option Nat
  builtinInstances : Bool
  format : Format
  deriving DecidableEq, Repr

/-- Whether a path is a dash, which stands for the standard input. Slashes and dots after the dash
name nothing. -/
def isStandardInput (path : String) : Bool :=
  match path.splitOn "/" with
  | first :: rest => first == "-" && rest.all fun part => part.isEmpty || part == "."
  | [] => false

def count? (text : String) : Option Nat :=
  let digits := match text.toList with
    | '+' :: rest => rest
    | all => all
  if digits.isEmpty || !digits.all Char.isDigit then none
  else
    let n := digits.foldl (fun n c => 10 * n + (c.toNat - 48)) 0
    if n < Nat.pow 2 64 then some n else none

namespace Settings

def withPath (s : Settings) (path : String) : Option Settings :=
  if path.isEmpty || s.path.isSome then none else some { s with path := some path }

def withLimit (s : Settings) (value : String) : Option Settings := do
  let n ← count? value
  if s.reductionLimit.isSome then none else some { s with reductionLimit := some n }

def withFormat (s : Settings) (value : String) : Option Settings := do
  let format ← Format.ofString? value
  if s.format.isSome then none else some { s with format := some format }

def withoutInstances (s : Settings) : Option Settings :=
  if s.noBuiltinInstances then none else some { s with noBuiltinInstances := true }

end Settings

def valueFlag? (action : Action) (name : String) :
    Option (Settings → String → Option Settings) :=
  if name = "--reduction-limit" then some Settings.withLimit
  else if name = "--format" ∧ action = .check then some Settings.withFormat
  else none

def cut (argument : String) : String × Option String :=
  let name := argument.toList.takeWhile (· != '=')
  match argument.toList.drop name.length with
  | [] => (argument, none)
  | _ :: value => (String.ofList name, some (String.ofList value))

/-- Takes up the arguments in order; none if one of them is wrong. -/
def settings (action : Action) : List String → Settings → Option Settings
  | [], s => some s
  | argument :: rest, s =>
    if argument = "--" then rest.foldlM Settings.withPath s
    else if argument = "-" || !argument.startsWith "-" then
      s.withPath argument >>= settings action rest
    else
      let (name, value) := cut argument
      match valueFlag? action name, value with
      | some set, some value => set s value >>= settings action rest
      | some set, none =>
        match rest with
        | value :: rest => set s value >>= settings action rest
        | [] => none
      | none, some _ => none
      | none, none =>
        if name = "--no-builtin-instances" then s.withoutInstances >>= settings action rest
        else none

def parse? (arguments : List String) : Option Command := do
  let (action, rest) ← match arguments with
    | "check" :: rest => some (Action.check, rest)
    | "constraints" :: rest => some (Action.constraints, rest)
    | _ => none
  let s ← settings action rest {}
  return {
    action
    path := ← s.path
    reductionLimit := s.reductionLimit
    builtinInstances := !s.noBuiltinInstances
    format := s.format.getD .text }

end ImplicitInference.CommandLine
