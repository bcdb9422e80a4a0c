import GzLang.Optimization.Transform
import GzLang.Routine
import GzLang.Value.Document

/-!
# Techniques of optimization

A technique changes code by a transformation, by replacing what a pattern matches, or by a routine,
and counts how often it did. A technique that fails leaves the code as it is.
-/

namespace GzLang.Optimization

inductive Method where
  | none
  | transform (f : List Char → List Char)
  | substitution (pattern replacement : String)
  | routine (r : Routine)

structure Technique where
  name : String
  description : String
  method : Method
  applications : Nat := 0
  successes : Nat := 0

/-- Carry out a change or a substitution on a value that should be code. -/
def Method.run (m : Method) (code : Value) : Job Value :=
  match m, code with
  | .none, v => pure v
  | .transform f, .str s => pure (.str (String.ofList (f s.toList)))
  | .transform _, v => throw (.noOperation v.kind "split")
  | .substitution p r, .str s => do return .str (← Pattern.substitute p r s)
  | .substitution .., v => throw (.notText v.kind)
  | .routine r, v => r.run [v]

namespace Technique

def apply (code : Value) : Task Technique Value := do
  let m := (← Task.self).method
  let result ← (Task.job (m.run code)).orElse fun _ => pure code
  if !result.equal code then
    Task.update fun t =>
      { t with applications := t.applications + 1, successes := t.successes + 1 }
  return result

def stats (t : Technique) : Except Fault Value := do
  let rate ← Value.div (.int t.successes) (.int (max 1 t.applications))
  return .dict [("name", .str t.name), ("applications", .int t.applications),
    ("successes", .int t.successes), ("success_rate", rate)]

end Technique

end GzLang.Optimization
