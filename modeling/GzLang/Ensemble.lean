import GzLang.Answer
import GzLang.Feedback.Loop
import GzLang.Improvement.Engine
import GzLang.Learning.Learner
import GzLang.Memory.Store
import GzLang.Optimization.Optimizer
import GzLang.Transfer.Knowledge

/-!
# The learning components together

An ensemble holds a learner, a memory, an improvement engine, a feedback loop, a knowledge transfer
and an optimizer, each of which the configuration may leave out. Code is shown to all of them at
once. A fault in a component is not a fault of the ensemble: its message becomes the answer.
-/

namespace GzLang

structure Ensemble.Counters where
  setUpTime : Value := .int 0
  samples : Nat := 0
  optimizations : Nat := 0
  corrections : Nat := 0
  transfers : Nat := 0
  improvements : Nat := 0
  deriving Inhabited

def Ensemble.Counters.table (c : Counters) : Table Value :=
  [("initialization_time", c.setUpTime), ("code_samples_processed", .int c.samples),
    ("optimizations_applied", .int c.optimizations), ("corrections_made", .int c.corrections),
    ("knowledge_transfers", .int c.transfers), ("self_improvements", .int c.improvements)]

/-- The components, those of them that are there, and what they have done. -/
structure Ensemble where
  config : Value := .dict []
  initialized : Bool := false
  learner : Option Learning.Learner := none
  memory : Option Memory.Store := none
  engine : Option Improvement.Engine := none
  feedback : Option Feedback.Loop := none
  knowledge : Option Transfer.Knowledge := none
  optimizer : Option Optimization.Optimizer := none
  counters : Ensemble.Counters := {}
  deriving Inhabited

namespace Ensemble

/-! ### Components -/

def learnerPart : Part Ensemble (Option Learning.Learner) :=
  ⟨Ensemble.learner, fun x e => { e with learner := x }⟩

def memoryPart : Part Ensemble (Option Memory.Store) :=
  ⟨Ensemble.memory, fun x e => { e with memory := x }⟩

def enginePart : Part Ensemble (Option Improvement.Engine) :=
  ⟨Ensemble.engine, fun x e => { e with engine := x }⟩

def feedbackPart : Part Ensemble (Option Feedback.Loop) :=
  ⟨Ensemble.feedback, fun x e => { e with feedback := x }⟩

def knowledgePart : Part Ensemble (Option Transfer.Knowledge) :=
  ⟨Ensemble.knowledge, fun x e => { e with knowledge := x }⟩

def optimizerPart : Part Ensemble (Option Optimization.Optimizer) :=
  ⟨Ensemble.optimizer, fun x e => { e with optimizer := x }⟩

/-! ### Configuration -/

/-- The options that hold where a configuration says nothing. -/
def defaults : Table (Table Value) :=
  [("exponential_learning", [("enabled", .bool true), ("base_learning_rate", .float 0.01),
      ("acceleration_factor", .int 100)]),
    ("persistent_memory", [("enabled", .bool true), ("use_database", .bool false)]),
    ("self_improvement", [("enabled", .bool true), ("improvement_interval", .int 3600)]),
    ("feedback_loop", [("enabled", .bool true)]),
    ("transfer_learning", [("enabled", .bool true)]),
    ("progressive_optimization", [("enabled", .bool true)])]

def completePart (config : Value) (part : String × Table Value) : Except Fault Value := do
  let config ← config.withDefault (part.1, .dict [])
  config.changeItem part.1 (Value.withDefaults part.2)

def complete (config : Value) : Except Fault Value :=
  defaults.foldlM completePart config.orEmpty

def ofConfig (config : Value) : Except Fault Ensemble := do
  return { config := ← complete config }

def option (part name : String) : Task Ensemble Value := do
  (← (← Task.self).config.item part).item name

/-! ### Set-up -/

/-- Set a component up if the configuration has it enabled. -/
def setUpPart (name : String) (p : Part Ensemble (Option τ)) (make : Task Ensemble τ) :
    Task Ensemble Unit := do
  if (← option name "enabled").isTrue then
    let x ← make
    Task.update (p.set (some x))

def setUpAll : Task Ensemble Unit := do
  setUpPart "exponential_learning" learnerPart do
    Learning.Learner.start (← option "exponential_learning" "base_learning_rate")
      (← option "exponential_learning" "acceleration_factor") "models/gz_memory"
  setUpPart "persistent_memory" memoryPart do
    let useDatabase ← option "persistent_memory" "use_database"
    Memory.Store.open "models/memory" (if useDatabase.isTrue then .database else .files)
  setUpPart "self_improvement" enginePart do
    Improvement.Engine.open "src" (← option "self_improvement" "improvement_interval")
  setUpPart "feedback_loop" feedbackPart Feedback.Loop.open
  setUpPart "transfer_learning" knowledgePart do
    Transfer.Knowledge.open "models/transfer_knowledge.json"
  setUpPart "progressive_optimization" optimizerPart do
    Optimization.Optimizer.open "models/optimization_stats.json"

def setUp : Task Ensemble Bool := do
  let start ← Job.seconds
  let work : Task Ensemble Bool := do
    setUpAll
    let time := (← Job.seconds) - start
    Task.update fun e =>
      { e with initialized := true, counters := { e.counters with setUpTime := .float time } }
    let _ ← Task.ifThere enginePart Improvement.Engine.start
    return true
  work.orElse fun _ => pure false

def shutDown : Task Ensemble Unit := do
  let _ ← Task.ifThere enginePart Improvement.Engine.stop
  let _ ← Task.ifThere memoryPart Memory.Store.close

/-! ### Answers -/

def answering (a : Task Ensemble Value) : Task Ensemble Value :=
  Answer.guarded Ensemble.initialized a

def count (f : Counters → Counters) : Task Ensemble Unit :=
  Task.update fun e => { e with counters := f e.counters }

def snippetKey (code context : Value) : Except Fault String := do
  let own ← match code with
    | .list _ | .dict _ => throw (.wrongKind ("unhashable type: '" ++ code.kind.name ++ "'"))
    | .str s => pure (Value.str (Md5.hex s))
    | v => pure v
  (← context.itemD "code_hash" own).display

/-- Show code to the feedback loop, the learner, the memory and the knowledge transfer. -/
def process (code context : Value) : Task Ensemble Value :=
  answering do
    let context := context.orEmpty
    let execution ← Task.ifThere feedbackPart do
      Feedback.Loop.track code (← context.itemD "source_file" .null) .null
    let learned ← Task.ifThere learnerPart do
      Learning.Learner.learn (← code.text "split") .null
    let _ ← Task.ifThere memoryPart do
      Memory.Store.store "code_snippets" (← snippetKey code context) code (.float 1.0) context
    let transferred ← Task.ifThere knowledgePart (Transfer.Knowledge.learn code context)
    count fun c => { c with samples := c.samples + 1 }
    return .dict ((execution.map ("execution_id", ·)).toList ++
      (learned.map ("learning", ·)).toList ++
      (transferred.map ("transfer_learning", ·)).toList)

def optimize (code level : Value) : Task Ensemble Value :=
  answering do
    match ← Task.ifThere optimizerPart (Optimization.Optimizer.optimize code level) with
    | none => return Answer.failure "Progressive optimizer not initialized"
    | some r =>
      count fun c => { c with optimizations := c.optimizations + 1 }
      return r

/-- What is replaced in code that does not run, in this order. -/
def corrections : List (String × String) :=
  [("simula main()", "simula main"), ("sulat(", "sulat "), ("kung(", "kung "), ("para(", "para "),
    ("habang(", "habang "), (";", ""), ("\x7b", ""), ("\x7d", "")]

def corrected (code : String) : String :=
  String.ofList (corrections.foldl (fun s c => Text.replaceAll c.1.toList c.2.toList s) code.toList)

/-- Correct code, if the knowledge transfer knows similar code. -/
def correct (code error : Value) : Task Ensemble Value :=
  answering do
    if error.isTrue then
      let _ ← Task.ifThere feedbackPart (Feedback.Loop.recordError error)
    let similar ← Task.ifThere knowledgePart (Transfer.Knowledge.similarCode code (.float 0.6) 1)
    match similar with
    | some (s :: _) =>
      let reference ← s.item "code"
      let after : Value := .str (corrected (← code.text "replace"))
      count fun c => { c with corrections := c.corrections + 1 }
      return .dict [("corrected_code", after), ("original_code", code),
        ("reference_code", reference), ("corrections_made", .bool !(after.equal code))]
    | _ =>
      return .dict [("corrected_code", code), ("original_code", code),
        ("corrections_made", .bool false)]

def transfer (code context : Value) : Task Ensemble Value :=
  answering do
    match ← Task.ifThere knowledgePart (Transfer.Knowledge.transfer code context) with
    | none => return Answer.failure "Knowledge transfer not initialized"
    | some r =>
      count fun c => { c with transfers := c.transfers + 1 }
      return r

def fromKnowledge (suggestion : Value) : Except Fault Value := do
  return .dict [("type", .str "knowledge_transfer"),
    ("description", ← suggestion.item "description"),
    ("confidence", ← suggestion.itemD "confidence" (.float 0.5)),
    ("action", .str "apply_pattern")]

def fromError (insight : Value) : Except Fault Value := do
  let examples ← insight.item "examples"
  let message ←
    if examples.isTrue then (← (← examples.element 0).item "message").display
    else pure "Unknown error"
  return .dict [("type", .str "error_prevention"),
    ("description", .str ("Avoid common error: " ++ message)), ("action", .str "review")]

def suggestions (code : Value) : Task Ensemble Value :=
  answering do
    let fromOptimizer := ((← Task.self).optimizer.map fun o => Value.dict [
      ("type", .str "optimization"),
      ("description", .str ("Code can be optimized at level " ++ toString o.current)),
      ("action", .str "optimize")]).toList
    let known ← Task.ifThere knowledgePart do
      (← (← Transfer.Knowledge.suggestions code).elements).mapM fun s => fromKnowledge s
    let errors ← Task.ifThere feedbackPart do
      match (← (← Task.self).errorInsights) with
      | [] => return []
      | insight :: _ => return [← fromError insight]
    let all := fromOptimizer ++ known.getD [] ++ errors.getD []
    return .dict [("suggestions", .list all), ("count", .int all.length)]

def stats : Task Ensemble Value := do
  let e ← Task.self
  let learning ← e.learner.mapM fun l => l.stats
  let memory ← Task.ifThere memoryPart Memory.Store.stats
  let improvement ← e.engine.mapM fun i => i.stats
  let feedback ← e.feedback.mapM fun l => l.summary
  let knowledge ← e.knowledge.mapM fun k => k.stats
  let optimization ← e.optimizer.mapM fun o => o.stats
  let parts := [("learning", learning), ("memory", memory), ("self_improvement", improvement),
    ("feedback_loop", feedback), ("knowledge_transfer", knowledge), ("optimization", optimization)]
  return .dict (e.counters.table ++ parts.filterMap fun (k, v) => v.map (k, ·))

end Ensemble

end GzLang
