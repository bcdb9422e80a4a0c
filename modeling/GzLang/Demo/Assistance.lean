import GzLang.Assistant.Work
import GzLang.Demo.Sample
import GzLang.Ensemble

/-!
# Demonstrations of the ensemble, the assistant and the collective memory
-/

namespace GzLang.Demo

def ensemble : Job Unit := do
  let e ← Ensemble.ofConfig .null
  Task.from_ e do
    let _ ← Ensemble.setUp
    let result ← Ensemble.process (.str fibonacci) (.dict [("source_file", .str "example.gz")])
    tell "Processing result: " result
    let optimized ← Ensemble.optimize (.str fibonacci) .null
    tell "Optimized code: " (← optimized.item "optimized_code")
    tell "Suggestions: " (← Ensemble.suggestions (.str fibonacci))
    tell "AI stats: " (← Ensemble.stats)
    Ensemble.shutDown

def assistant : Job Unit := do
  let a ← Assistant.open false .null
  Task.from_ a do
    let _ ← Assistant.setUp
    tell "Processing result: " (← Assistant.process (.str greeting) .null)
    let corrected ← Assistant.correct (.str misspelledGreeting) .null
    tell "Corrected code: " (← corrected.item "corrected_code")
    let optimized ← Assistant.optimize (.str increment) .null
    tell "Optimized code: " (← optimized.item "optimized_code")
    let generated ← Assistant.generate (.str "Create a factorial calculator")
    tell "Generated code: " (← generated.item "code")
    let explained ← Assistant.explain (.str greeting)
    tell "Explanation: " (← explained.item "explanation")
    tell "AI stats: " (← Assistant.stats)
    Assistant.shutDown

def collective : Job Unit := do
  let c ← Collective.open .null
  Task.from_ c do
    let id ← Collective.addLearning (.str "correction_rule")
      (.dict [("pattern", .str "simula\\s+(\\w+)\\s*\\("), ("replacement", .str "simula \\1 "),
        ("explanation", .str "In GZ, function declarations don't use parentheses")])
    tell "Added learning: " id
    tell "Update success: " (.bool (← Collective.forceUpdate))
    tell "Stats: " (← (← Task.self).stats)

end GzLang.Demo
