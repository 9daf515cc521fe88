import ImplicitInference.CommandLine.Report

/-!
The command line program: reads the tree from a file or from standard input and prints the report.
-/

namespace ImplicitInference.CommandLine

partial def readAll (stream : IO.FS.Stream) (text : String) : IO String := do
  let line ← stream.getLine
  if line.isEmpty then return text else readAll stream (text ++ line)

def describe : IO.Error → SourceError
  | .noFileOrDirectory _ _ _ => .notFound
  | .inappropriateType _ _ _ => .notDirectory
  | error => .other (toString error)

def readSource (path : String) : IO (Except SourceError String) := do
  if isStandardInput path then return .ok (← readAll (← IO.getStdin) "")
  else
    try return .ok (← IO.FS.readFile path)
    catch error => return .error (describe error)

end ImplicitInference.CommandLine

open ImplicitInference.CommandLine in
def main (arguments : List String) : IO UInt32 := do
  match parse? arguments with
  | none =>
    IO.eprintln "usage: check|constraints PATH [--reduction-limit N] [--no-builtin-instances]"
    return 2
  | some command =>
    match command.run (← readSource command.path) with
    | .error failure =>
      IO.eprintln ("Error: " ++ failure.message)
      return 1
    | .ok output =>
      IO.print output.stdout
      IO.eprint output.stderr
      return if output.isOk then 0 else 1
