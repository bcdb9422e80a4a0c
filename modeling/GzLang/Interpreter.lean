import GzLang.Ensemble
import GzLang.Machine.Program

/-!
# Interpreters

An interpreter is a machine, and beside it an ensemble if learning is switched on. What the machine
prints goes to the output of the world.
-/

namespace GzLang

structure Interpreter where
  machine : Machine := {}
  ensemble : Option Ensemble := none
  deriving Inhabited

namespace Interpreter

def ensemblePart : Part Interpreter (Option Ensemble) :=
  ⟨Interpreter.ensemble, fun e i => { i with ensemble := e }⟩

def start (learning : Bool) : Job Interpreter := do
  if learning then
    let e ← Ensemble.ofConfig (.dict [])
    Task.start { ensemble := some e } do
      let _ ← Task.ifThere ensemblePart Ensemble.setUp
  else return {}

def onMachine (r : Run α) : Task Interpreter α :=
  Action.of fun (i, w) =>
    let (v, m) := r.perform { i.machine with out := "", err := "" }
    (v, ({ i with machine := m }, { w with out := w.out ++ m.out, err := w.err ++ m.err }))

def run (code : String) : Task Interpreter Unit :=
  onMachine (runSource code)

def shutDown : Task Interpreter Unit := do
  let _ ← Task.ifThere ensemblePart Ensemble.shutDown

end Interpreter

end GzLang
