import GzLang.Command.Source
import GzLang.Ui.Design

/-!
# The interface compiler's command line
-/

namespace GzLang.Command

def compileInterface (args : List String) : Job Exit :=
  withSource "gz_ui_compiler.py" args fun code => do
    Job.printLine ((Ui.Design.compile {} code).1.code)
    return none

end GzLang.Command
