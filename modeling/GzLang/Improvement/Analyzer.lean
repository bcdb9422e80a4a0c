import GzLang.Script.Parse
import GzLang.Script.Print
import GzLang.World

/-!
# What could be improved in a script

An analysis counts the lines, functions, classes and branches of a script and finds functions that
are long, conditions that are complex, and functions whose bodies print alike. A script that cannot
be read or is not well formed has no analysis.
-/

namespace GzLang.Improvement

open Script

def longFunction : Nat := 30

def complexCondition : Nat := 2

def occurrences (part s : List Char) : Nat :=
  (Text.splitAll part s).length - 1

def metrics (code : List Char) (script : List Stmt) : Value :=
  let ns := (nodes script).map (·.stmt)
  .dict [("loc", .int (Text.lines code).length),
    ("functions", .int (ns.filter Stmt.isFunction).length),
    ("classes", .int (ns.filter Stmt.isClass).length),
    ("complexity", .int (complexity script))]

def longFunction? (n : Script.Node) : Option Value :=
  match n.stmt with
  | .function line name .. =>
    let lines := n.stmt.length
    if lines > longFunction then
      some (.dict [("type", .str "long_function"), ("name", .str name),
        ("location", .str ("Line " ++ toString line)),
        ("description", .str ("Function '" ++ name ++ "' is " ++ toString lines ++
          " lines long. Consider refactoring.")),
        ("priority", .str "medium")])
    else none
  | _ => none

def complexCondition? (n : Script.Node) : Option Value :=
  match n.stmt with
  | .branch line test .. =>
    let text := conditionText n.inFunction test
    let operators := occurrences "and".toList text.toList + occurrences "or".toList text.toList
    if operators > complexCondition then
      some (.dict [("type", .str "complex_conditional"),
        ("location", .str ("Line " ++ toString line)),
        ("description", .str ("Complex conditional: " ++ text ++ ". Consider simplifying.")),
        ("priority", .str "medium")])
    else none
  | _ => none

/-- What is found about functions with like bodies; `known` has the name of the first function with
each body. -/
def duplicates (known : Table String) : List Script.Node → List Value
  | [] => []
  | n :: ns =>
    match n.stmt with
    | .function line name _ body =>
      let text := blockText body
      match Table.get? known text with
      | some first =>
        .dict [("type", .str "duplicate_code"), ("name", .str name),
          ("location", .str ("Line " ++ toString line)),
          ("description", .str ("Function '" ++ name ++ "' has similar code to '" ++ first ++ "'.")),
          ("priority", .str "high")] :: duplicates known ns
      | none => duplicates (Table.put known text name) ns
    | _ => duplicates known ns

def opportunities (script : List Stmt) : List Value :=
  let ns := nodes script
  ns.filterMap longFunction? ++ ns.filterMap complexCondition? ++ duplicates [] ns

structure Analyzer where
  metrics : Value := .dict []
  opportunities : Value := .list []
  deriving Inhabited

/-- Analyze a file: its counts and what is found about it. -/
def Analyzer.analyze (path : String) : Task Analyzer (Value × List Value) := do
  let read ← (Task.job (Job.readText path)).outcome
  match read.toOption.bind fun code => (parse? code.toList).map (code.toList, ·) with
  | none => return (.dict [], [])
  | some (code, script) =>
    let m := Improvement.metrics code script
    let os := Improvement.opportunities script
    Task.update fun _ => ⟨m, .list os⟩
    return (m, os)

end GzLang.Improvement
