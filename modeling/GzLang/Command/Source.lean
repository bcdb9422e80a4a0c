import GzLang.World

/-!
# The source file of a command

The interpreter and the interface compiler take the path of a source file as their first argument,
and end with a message if there is none or if the file cannot be read.
-/

namespace GzLang.Command

/-- How a command ended: with a status, or without saying. -/
abbrev Exit := Option Nat

def fail (message : String) : Job Exit := do
  Job.complain message
  return some 1

/-- Hand the text of the file named by the first argument to a command. -/
def withSource (program : String) (args : List String) (command : String → Job Exit) : Job Exit :=
  match args with
  | [] => fail ("Usage: " ++ program ++ " <source_file>")
  | path :: _ => do
    if !(← Job.pathExists path) then fail ("Error: File '" ++ path ++ "' not found")
    else
      match ← (Job.readText path).outcome with
      | .error f => fail ("Error reading file: " ++ f.message)
      | .ok code => command code

end GzLang.Command
