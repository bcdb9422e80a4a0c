import GzLang.Command.Source
import GzLang.Interpreter

/-!
# The interpreter's command line
-/

namespace GzLang.Command

def interpret (learning : Bool) (args : List String) : Job Exit :=
  withSource "gz_interpreter.py" args fun code => do
    Task.from_ (← Interpreter.start learning) do
      Interpreter.run code
      Interpreter.shutDown
      return none

end GzLang.Command
