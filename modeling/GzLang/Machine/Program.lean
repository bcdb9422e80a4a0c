import GzLang.Machine.Exec

/-!
# Running programs

A program is a list of function definitions; other lines at the top do nothing. The function
`main` is called where it is defined, once in the life of a machine.
-/

namespace GzLang

def maxDepth : Nat := 300

def callFunction : Caller := callAt maxDepth

def mainFlag : String := "_executed_main"

def Machine.mainCalled (m : Machine) : Bool :=
  ((Table.get? m.bindings mainFlag).getD .null).isTrue

/-- Add a function, and call it if it is `main` and `main` was not called before. -/
def define (name : String) (f : Function) : Run Unit := do
  modify fun m => { m with functions := Table.put m.functions name f }
  if name = "main" ∧ !(← get).mainCalled then
    Machine.assign mainFlag (.bool true)
    let _ ← callFunction "main" []

def definition? (content : String) : Option (List String) :=
  (Statement.after? "simula" content.toList).map fun s => (Text.words s).map String.ofList

def runLines (lines : List Line) : Run Unit :=
  match lines with
  | [] => pure ()
  | l :: rest => do
    Machine.atLine l.number
    match definition? l.content with
    | none => runLines rest
    | some [] => throw .noElement
    | some (name :: params) =>
      define name ⟨params, Line.block l.indent rest⟩
      runLines (Line.afterBlock l.indent rest)
termination_by lines.length
decreasing_by
  all_goals simp only [List.length_cons]
  all_goals
    have := Line.length_afterBlock_le l.indent rest
    omega

def runSource (code : String) : Run Unit :=
  runLines (Line.ofSource code)

end GzLang
