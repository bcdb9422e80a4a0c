import GzLang.Demo.Sample
import GzLang.Feedback.Loop
import GzLang.Improvement.Engine
import GzLang.Learning.Learner
import GzLang.Memory.Store
import GzLang.Optimization.Optimizer
import GzLang.Transfer.Knowledge

/-!
# Demonstrations of the components

Each one opens a component where it keeps its files by default, works a little with it and prints
what comes out.
-/

namespace GzLang.Demo

def learning : Job Unit := do
  let l ← Learning.Learner.start (.float 0.01) (.int 100) "models/gz_memory"
  Task.from_ l do
    tell "Learning result: " (← Learning.Learner.learn fibonacci (.str "success"))
    let s ← (← Task.self).suggestions "function_definition" (.float 0.5)
    tell "Function definition suggestions: " s
    Learning.Learner.save

/-- Store two patterns and a rule, and look them up. -/
def memory : Job Unit := do
  let s ← Memory.Store.open "models/memory" .database
  Task.from_ s do
    Memory.Store.store "syntax_patterns" "function_definition"
      (.str "simula \x7bname\x7d \x7bparams\x7d")
    Memory.Store.store "syntax_patterns" "print_statement" (.str "sulat \x7bexpression\x7d")
    Memory.Store.store "optimization_rules" "increment"
      (.dict [("pattern", .str "\x7bvar\x7d = \x7bvar\x7d + 1"),
        ("replacement", .str "\x7bvar\x7d += 1"),
        ("explanation", .str "Use compound assignment for increment")]) (.float 0.9)
    tell "" (← Memory.Store.retrieve "syntax_patterns" "function_definition")
    tell "" (← Memory.Store.search "optimization_rules" (.str "increment"))
    tell "" (← Memory.Store.stats)
    Memory.Store.close

def feedback : Job Unit := do
  let l ← Feedback.Loop.open
  Task.from_ l do
    let code := "simula main\n    sulat \"Hello, World!\"\n    balik 0"
    let _ ← Feedback.Loop.track (.str code) .null .null
    Feedback.Loop.recordOutput (.str "Hello, World!")
    let _ ← Feedback.Loop.complete (.bool true) (.float 0.01) (.int 0)
    tell "" (← (← Task.self).summary)

def transfer : Job Unit := do
  let k ← Transfer.Knowledge.open "models/transfer_knowledge.json"
  Task.from_ k do
    let learned ←
      Transfer.Knowledge.learn (.str fibonacci) (.dict [("context", .str "mathematical")])
    tell "Learned from code: " learned
    let similar ← Transfer.Knowledge.similarCode (.str fibonacci) (.float 0.7) 5
    Job.printLine ("Similar code: " ++ toString similar.length ++ " found")
    tell "Knowledge stats: " (← (← Task.self).stats)

def optimization : Job Unit := do
  let o ← Optimization.Optimizer.open "models/optimization_stats.json"
  Task.from_ o do
    let result ← Optimization.Optimizer.optimize (.str wasteful) .null
    Job.printLine "Optimized code:"
    tell "" (← result.item "optimized_code")
    tell "Techniques applied: " (← result.item "techniques_applied")
    tell "Optimization level: " (← result.item "optimization_level")
    tell "Optimization stats: " (← (← Task.self).stats)
    let levels ← (← (← Task.self).availableLevels).elements
    let available ← levels.filterM fun l => return (← l.item "available").isTrue
    Job.printLine ("Available levels: " ++ toString available.length ++ " of " ++
      toString levels.length)

def improvement : Job Unit := do
  let e ← Improvement.Engine.open "src" (.int 3600)
  Task.from_ e do
    let _ ← Improvement.Engine.cycle
    tell "" (← (← Task.self).stats)

end GzLang.Demo
