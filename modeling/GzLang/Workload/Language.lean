import GzLang.Interpreter
import GzLang.Ui.Design
import GzLang.Workload.Basic

/-!
# Workloads of the language

Programs for the interpreter and sources for the interface compiler.
-/

namespace GzLang.Workload

def threeFunctions (i : Nat) : String :=
  "simula square x\n    balik x * x\n\n" ++
  "simula total n\n    sum = 0\n    para k 1 5\n        sum = sum + square(k)\n    balik sum\n\n" ++
  "simula main\n    sulat total(" ++ toString (i % 7 + 1) ++ ")\n    balik 0\n"

def interpretation : Workload := fun n => do
  let known ← (List.range n).mapM fun i => do
    Task.from_ (← Interpreter.start false) do
      Interpreter.run (threeFunctions i)
      return (← Task.self).machine.functions.length
  return counts known

def sections (i : Nat) : String :=
  let window := numbered "window_" i
  let panel := numbered "panel_" i
  "ui_element " ++ panel ++ " \x7b\n    type: panel;\n    title: Panel " ++ toString i ++
    ";\n    width: 320;\n    height: 240;\n\x7d\n\n" ++
  "ui_layout " ++ numbered "layout_" i ++ " \x7b\n    " ++ window ++ " -> " ++ panel ++
    ";\n    " ++ panel ++ " @ top_left;\n\x7d\n\n" ++
  "ui_style " ++ numbered "style_" i ++ " \x7b\n    color: blue;\n    font: bold;\n\x7d\n\n" ++
  "ui_event " ++ numbered "events_" i ++ " \x7b\n    " ++ panel ++ " onClick: " ++
    numbered "function_select_" i ++ ";\n\x7d\n\n"

/-- Compile sections, and count what they declare and the characters of the program. -/
def interface : Workload := fun n => do
  let source := String.join ((List.range n).map sections) ++
    "simula main\n    init_ui()\n    balik 0\n"
  let compiled := (Ui.Design.compile {} source).1
  let d := compiled.design
  return counts [d.elements.length, d.layouts.length, d.styles.length, d.events.length,
    compiled.code.length]

end GzLang.Workload
