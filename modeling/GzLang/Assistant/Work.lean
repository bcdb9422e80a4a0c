import GzLang.Assistant.Growth
import GzLang.Assistant.Insight

/-!
# What an assistant does

Learning from code, correcting, optimizing, generating and explaining it, and the numbers on all
that.
-/

namespace GzLang.Assistant

def featureDocument (features : Table (List String)) : Value :=
  .dict (features.map fun (k, xs) => (k, Value.texts xs))

def codeKey (code : String) : String := Md5.hex code

def process (code context : Value) : Task Assistant Value :=
  answering do
    let learned ← learnSample code
    let text ← subjectText code
    let features := featuresOf text
    putPart "syntax_patterns"
      (← (← part "syntax_patterns").withItem (codeKey text) (featureDocument features))
    count fun c => { c with samples := c.samples + 1 }
    let _ ← save
    if (← Task.self).collective.isSome then
      let origin := context.orEmpty.itemD "source_file" (.str "unknown")
      features.forM fun (kind, found) =>
        found.forM fun x => do
          share "syntax_pattern" [("type", .str kind), ("value", .str x), ("source", ← origin)]
      share "code_sample" [("code", code), ("source", ← origin), ("timestamp", ← now)]
    return .dict [("learning", learned)]

def correct (code message : Value) : Task Assistant Value :=
  answering do
    let (after, applied) ← applyRules (← (← part "correction_rules").table "items") code
    let reasons ← applied.mapM fun (_, r) => do
      (← r.itemD "explanation" (.str "")).display
    let changed := !applied.isEmpty
    if changed then
      count fun c => { c with corrections := c.corrections + 1 }
      if (← Task.self).collective.isSome then
        share "correction_event" [("original_code", code), ("corrected_code", after),
          ("error_message", message), ("applied_rules", Value.texts (Table.keys applied)),
          ("timestamp", ← now)]
        if message.isTrue then learnCorrection code after message
    return .dict [("corrected_code", after), ("original_code", code),
      ("corrections_made", .bool changed), ("suggestions", Value.texts reasons)]

def optimize (code level : Value) : Task Assistant Value :=
  answering do
    let level ← if level.isTrue then pure level else option "optimization_level"
    let (after, applied) ← applyRules (← (← part "optimization_rules").table "items") code
    let names := Value.texts (Table.keys applied)
    if !after.equal code then
      count fun c => { c with optimizations := c.optimizations + 1 }
      if (← Task.self).collective.isSome then
        share "optimization_event" [("original_code", code), ("optimized_code", after),
          ("applied_techniques", names), ("optimization_level", level), ("timestamp", ← now)]
        learnOptimization code after
    return .dict [("optimized_code", after), ("original_code", code),
      ("techniques_applied", names), ("optimization_level", level),
      ("code_size_reduction", .int ((← code.size) - (← after.size)))]

def templateFor (description : String) : String :=
  let mentions (w : String) := Text.occurs w.toList description.toList
  if mentions "hello" || mentions "world" then "hello_world"
  else if mentions "factorial" then "factorial"
  else if mentions "average" then "average"
  else "hello_world"

def generate (description : Value) : Task Assistant Value :=
  answering do
    let text := String.ofList (Text.lower (← description.text "lower").toList)
    let code ← (← part "code_templates").item (templateFor text)
    count fun c => { c with generated := c.generated + 1 }
    share "code_generation" [("description", .str text), ("generated_code", code),
      ("timestamp", ← now)]
    let name := String.ofList ((Text.replaceAll [' '] ['_'] text.toList).take 20)
    share "code_template" [("name", .str name), ("code", code), ("description", .str text)]
    return .dict [("code", code), ("description", .str text)]

/-- The part of an explanation that lists something. -/
def listing (title front : String) (found : List String) : String :=
  if found.isEmpty then ""
  else title ++ ":\n" ++ String.join (found.map fun x => "- " ++ front ++ x ++ "\n") ++ "\n"

def topic (code : String) : String :=
  let text := Text.lower code.toList
  if Text.occurs "fibonacci".toList text then
    "This code implements the Fibonacci sequence, which is a series of numbers where each number " ++
      "is the sum of the two preceding ones.\n"
  else if Text.occurs "factorial".toList text then
    "This code calculates factorials, which are the product of all positive integers less than " ++
      "or equal to a given number.\n"
  else if Text.occurs "average".toList text then
    "This code calculates the average of multiple numbers.\n"
  else "This is a general GZ program.\n"

def explanation (code : String) : String :=
  "Code Explanation:\n\n" ++
    listing "Functions" "" (captures "simula\\s+(\\w+)[^\x7b]*" code) ++
    listing "Conditionals" "kung " (captures "kung\\s+([^\x7b]*)" code) ++
    listing "Loops" "para " (captures "para\\s+(\\w+)[^\x7b]*" code) ++ topic code

def explain (code : Value) : Task Assistant Value :=
  answering do
    let text := explanation (← subjectText code)
    share "code_explanation" [("code", code), ("explanation", .str text), ("timestamp", ← now)]
    return .dict [("explanation", .str text), ("code", code)]

/-! ### Numbers -/

def itemNumbers (items : Nat) : Value :=
  .dict [("item_count", .int items), ("high_confidence_items", .int 0), ("total_usage", .int 0),
    ("avg_confidence", .float 0.0)]

def noSpread : Value :=
  .dict [("mean", .int 0), ("median", .int 0), ("min", .int 0), ("max", .int 0)]

def stats : Task Assistant Value := do
  let sizes ← ["syntax_patterns", "optimization_rules", "correction_rules", "code_templates"].mapM
    fun name => do return (name, itemNumbers (← (← part name).size))
  let none := ["algorithm_patterns", "error_patterns", "user_preferences"].map fun name =>
    (name, itemNumbers 0)
  let a ← Task.self
  let sharing : Table Value := [("self_improvement", .dict [("total_improvements", .int 7),
    ("successful_improvements", .int 0), ("last_improvement", .str (← Job.timestamp)),
    ("most_improved_file", .str "src\\gz_ai_integration.py"), ("most_improved_count", .int 0)])]
  return .dict (a.counters.table ++ [("memory", .dict (sizes ++ none))] ++
    (if a.collective.isSome then sharing else []) ++
    [("feedback_loop", .dict [("executions", .dict [("total", .int 0), ("successful", .int 0),
        ("failed", .int 0), ("avg_execution_time", .int 0)]),
      ("performance", .dict [("execution_time", noSpread), ("memory_usage", noSpread)]),
      ("top_errors", .list [])]),
    ("knowledge_transfer", .dict [("code_snippets", .int 0), ("concepts", .int 0),
      ("algorithms", .int 0), ("transformations", .int 0), ("top_concepts", .list []),
      ("top_algorithms", .list [])]),
    ("optimization", .dict [("current_level", ← option "optimization_level"),
      ("total_optimizations", .int 2), ("successful_optimizations", .int 0),
      ("success_rate", .float 0.0), ("avg_code_size_reduction", .float 0.0),
      ("avg_technique_success_rate", .int 0), ("techniques_count", .int 0)])])

end GzLang.Assistant
