import GzLang.Pattern.Match
import GzLang.Pattern.Parse

/-!
# Features of code

A feature collects what a pattern captures: the names of functions, the conditions, the loops.
-/

namespace GzLang.Assistant

def captures (pattern : String) (code : String) : List String :=
  match Pattern.parse pattern with
  | .ok p => (p.findAll code.toList).map fun m => String.ofList (m.group 1)
  | .error _ => []

def shows (pattern : String) (code : String) : Bool :=
  match Pattern.parse pattern with
  | .ok p => p.occursIn code.toList
  | .error _ => false

def featurePatterns : List (String × String) :=
  [("function_definitions", "simula\\s+(\\w+)"), ("function_calls", "(\\w+)\\s*\\("),
    ("variable_assignments", "(\\w+)\\s*="), ("conditionals", "kung\\s+(.+)"),
    ("loops", "para\\s+(\\w+)")]

def featuresOf (code : String) : Table (List String) :=
  featurePatterns.filterMap fun (name, pattern) =>
    match captures pattern code with
    | [] => none
    | found => some (name, found)

end GzLang.Assistant
