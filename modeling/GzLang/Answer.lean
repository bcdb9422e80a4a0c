import GzLang.World

/-!
# Answers

A component that answers questions does not stop at a fault: the message of the fault is then the
answer. Before it is set up it answers nothing else.
-/

namespace GzLang.Answer

def failure (message : String) : Value :=
  .dict [("error", .str message)]

/-- Answer with an action of a component that is set up; a fault is an answer too. -/
def guarded (isSetUp : σ → Bool) (a : Task σ Value) : Task σ Value := do
  if !isSetUp (← Task.self) then return failure "AI capabilities not initialized"
  a.orElse fun f => return failure f.message

end GzLang.Answer
