import GzLang.World

/-!
# Routines

A routine is something that can be called with values: it has a name, the text it was written as if
that is known, and an effect on the surroundings.
-/

namespace GzLang

structure Routine where
  name : String
  source : Option String
  run : List Value → Job Value

def Routine.text (r : Routine) : Except Fault String :=
  match r.source with
  | some s => .ok s
  | none => .error .noSource

end GzLang
