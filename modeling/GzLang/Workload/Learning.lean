import GzLang.Feedback.Loop
import GzLang.Learning.Learner
import GzLang.Memory.Store
import GzLang.Transfer.Knowledge
import GzLang.Workload.Basic

/-!
# Workloads of learning

Samples for the learner, items for the memory, executions for the feedback loop and snippets for the
knowledge base.
-/

namespace GzLang.Workload

/-- Three samples of code, of which only the first names an algorithm. -/
def samples : List String :=
  ["simula factorial n\n    result = 1\n    para i 1 n\n        result = result * i\n" ++
    "    kung result > 0\n        sulat result\n    balik result\n\nsimula main\n    balik 0\n",
   "simula count n\n    total = 0\n    para i 1 n\n        total = total + i\n" ++
    "    kung total > 10\n        sulat total\n    balik total\n\nsimula main\n    balik 0\n",
   "simula double n\n    twice = n * 2\n    para i 1 n\n        twice = twice + 2\n" ++
    "    kung twice > 100\n        sulat twice\n    balik twice\n\nsimula main\n    balik 0\n"]

/-- Learn from samples in turn, and count the features of each, the suggestions for a known and for
an unknown role, and the features known in the end. -/
def learning : Workload := fun n => do
  let l ← Learning.Learner.start (.float 0.01) (.int 100) "models/gz_memory"
  Task.from_ l do
    let found ← eachBelow n fun i => do
      let outcome := if i % 5 = 4 then "failure" else "success"
      let r ← Learning.Learner.learn (samples[i % 3]?.getD "") (.str outcome)
      r.item "patterns_learned"
    Learning.Learner.save
    let l ← Task.self
    let known ← (← l.suggestions "function_definition" (.float 0.5)).size
    let unknown ← (← l.suggestions "import_statement" (.float 0.5)).size
    return found ++ counts [known, unknown, ← l.weights.size]

/-- Store items in all categories, and count the items that are found again one by one and the
categories that the memory reports on. -/
def memory : Workload := fun n => do
  let s ← Memory.Store.open "models/memory" .database
  Task.from_ s do
    let categoryOf i := Memory.categories[i % Memory.categories.length]?.getD ""
    let _ ← eachBelow n fun i =>
      Memory.Store.store (categoryOf i) (numbered "item_" i) (.str (numbered "value " i))
        (.float 0.9) (.dict [("number", .int i)])
    let values ← eachBelow n fun i => Memory.Store.retrieve (categoryOf i) (numbered "item_" i)
    let shown ← (← Memory.Store.stats).size
    Memory.Store.close
    return counts [(values.filter Value.isTrue).length, shown]

/-- A program of as many lines, framed by two more. -/
def longProgram (n : Nat) : String :=
  "simula main\n" ++ String.join ((List.range n).map fun i => "    sulat " ++ toString i ++ "\n") ++
    "    balik 0"

/-- Follow executions of which every fourth fails, and count them, the lines of a long program, the
groups of errors and the characters of an advice. -/
def feedback : Workload := fun n => do
  let l ← Feedback.Loop.open
  Task.from_ l do
    let _ ← eachBelow n fun i => do
      let _ ← Feedback.Loop.track (.str (longProgram i)) .null .null
      Feedback.Loop.recordOutput (.str (numbered "output " i))
      if i % 4 = 0 then
        Feedback.Loop.recordError (.str (numbered "Undefined name on line " (i + 1)))
      Feedback.Loop.complete (.bool (i % 4 ≠ 0)) (.float 0.01) (.int 1024)
    let l ← Task.self
    let shown ← Feedback.shown (.str (longProgram n)) (.dict [("success", .bool true)])
    let lines ← (← shown.item "code_metrics").item "length"
    let advice ← l.advice (.str "simula main") (.str "function_def")
    return [.int (← l.tracker.executions.size), lines, .int (← l.errorInsights).length,
      .int (← (← advice.item "suggestion").size)]

def snippet (i : Nat) : String :=
  "simula task_" ++ toString i ++ " x\n    y = x + " ++ toString i ++
    "\n    kung y > 3\n        sulat y\n    para k 0 2\n        sulat k\n    balik y\n"

/-- Learn from snippets, each made from the one before it, and count the concepts of each, the
other snippets nearest to the last one, the suggestions for it, and the concepts and snippets
known. -/
def transfer : Workload := fun n => do
  let k ← Transfer.Knowledge.open "models/transfer_knowledge.json"
  Task.from_ k do
    let learned ← eachBelow n fun i => Transfer.Knowledge.learn (.str (snippet i)) .null
    let found ← learned.mapM fun r => return Value.int (← (← r.item "concepts").size)
    let _ ← eachBelow (n - 1) fun i =>
      Transfer.Knowledge.learnTransformation (.str (snippet i)) (.str (snippet (i + 1)))
        (.str "renaming") .null
    let last := snippet (n - 1)
    let similar ← Transfer.Knowledge.similarCode (.str last) (.float (-1.0)) 5
    let suggested ← (← Transfer.Knowledge.suggestions (.str last)).size
    let stats ← (← Task.self).stats
    return found ++ counts [similar.length, suggested] ++
      [← stats.item "concepts", ← stats.item "code_snippets",
        .str (Transfer.algorithmOf last)]

end GzLang.Workload
