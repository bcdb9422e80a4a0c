import GzLang.Command.Aide
import GzLang.Command.Arguments
import GzLang.Command.Interpret
import GzLang.Ui.Design

/-!
# The compiler's command line

The compiler reads a source file, lets its aide correct and optimize the code, writes the result
next to the output file and runs it if asked to. It also generates and explains code and reports on
the aide. Whether all went well is told by the exit status; what happens on the way is logged.
-/

namespace GzLang.Command

/-- What is installed beside the compiler. -/
structure Installation where
  program : String := "gzc"
  aide : Option AideKind := some .assistant
  interface : Bool := true
  interpreter : Bool := true

structure Compiler where
  options : Options
  aide : Option Aide := none

namespace Compiler

def aidePart : Part Compiler (Option Aide) :=
  ⟨Compiler.aide, fun a c => { c with aide := a }⟩

def info (text : String) : Task Compiler Unit := Job.note "INFO" text

def fail (text : String) : Task Compiler Bool := do
  Job.note "ERROR" text
  return false

/-- End without success if there is no aide for something. -/
def withAide (purpose : String) (work : Task Compiler Bool) : Task Compiler Bool := do
  if (← Task.self).aide.isNone then fail ("AI capabilities required for " ++ purpose) else work

def ask (a : Task Aide Value) : Task Compiler Value := do
  return (← Task.ifThere aidePart a).getD .null

def fixed (places : Nat) (v : Value) : Except Fault String := do
  return Decimal.fixedText places (← v.toDouble)

def shownItem (v : Value) (k : String) (other : Value) : Except Fault String := do
  (← v.itemD k other).display

/-! ### Reports -/

def forceUpdate : Task Compiler Bool :=
  withAide "force update" do
    if !((← Task.self).aide.any Aide.shares) then fail "Self-improvement capabilities not available"
    else
      info "Forcing update to GitHub repository"
      let pushed := ((← Task.ifThere aidePart Aide.push).bind id).getD false
      if pushed then
        info "Successfully updated GitHub repository"
        return true
      else fail "Failed to update GitHub repository"

def printStats : Task Compiler Bool :=
  withAide "AI stats" do
    info "Showing AI statistics"
    let stats ← ask Aide.stats
    Job.printLine "\nGZ AI Statistics"
    Job.printLine "==============="
    Job.printLine ("Initialization time: " ++
      (← fixed 2 (← stats.itemD "initialization_time" (.int 0))) ++ " seconds")
    Job.printLine ("Code samples processed: " ++
      (← shownItem stats "code_samples_processed" (.int 0)))
    Job.printLine ("Corrections made: " ++ (← shownItem stats "corrections_made" (.int 0)))
    Job.printLine ("Optimizations applied: " ++ (← shownItem stats "optimizations_applied" (.int 0)))
    if ← stats.has "memory" then
      Job.printLine "\nMemory Statistics"
      Job.printLine "----------------"
      (← (← stats.item "memory").table "items").forM fun (category, numbers) => do
        Job.printLine (category ++ ": " ++ (← shownItem numbers "item_count" (.int 0)) ++ " items")
    if ← stats.has "self_improvement" then
      Job.printLine "\nSelf-Improvement Statistics"
      Job.printLine "--------------------------"
      let numbers ← stats.item "self_improvement"
      Job.printLine ("Total improvements: " ++ (← shownItem numbers "total_improvements" (.int 0)))
      Job.printLine ("Successful improvements: " ++
        (← shownItem numbers "successful_improvements" (.int 0)))
      Job.printLine ("Last improvement: " ++
        (← shownItem numbers "last_improvement" (.str "Never")))
    return true

def printShare (title : String) (progress : Value) (k : String) : Task Compiler Unit := do
  Job.printLine (title ++ ": " ++ (← fixed 2 (← progress.itemD k (.int 0))) ++ "%")

def printEvolution : Task Compiler Bool :=
  withAide "AI evolution stats" do
    info "Showing AI evolution statistics"
    match (← Task.ifThere aidePart Aide.evolution).bind id with
    | none => fail "Evolution statistics not available"
    | some stats =>
      Job.printLine "\nGZ AI Evolution Statistics"
      Job.printLine "========================="
      Job.printLine ("Learning iterations: " ++
        (← shownItem stats "learning_iterations" (.int 0)))
      Job.printLine ("Current learning rate: " ++
        (← fixed 6 (← stats.itemD "current_learning_rate" (.int 0))))
      Job.printLine ("Learning acceleration: " ++
        (← fixed 2 (← stats.itemD "learning_acceleration" (.float 1.0))) ++ "x")
      Job.printLine "\nLearning Progress"
      Job.printLine "----------------"
      let progress ← stats.item "learning_progress"
      printShare "Syntax understanding" progress "syntax_understanding"
      printShare "Optimization capability" progress "optimization_capability"
      printShare "Error correction" progress "error_correction"
      printShare "Code generation" progress "code_generation"
      Job.printLine "\nEvolution History"
      Job.printLine "----------------"
      let entries ← (← Value.lastItems 5 (← stats.item "evolution_history")).elements
      entries.zipIdx.forM fun (entry, i) => do
        Job.printLine (toString (i + 1) ++ ". " ++ (← shownItem entry "date" (.str "Unknown")) ++
          ": " ++ (← shownItem entry "description" (.str "Unknown")))
      return true

/-! ### Single files -/

def learnFile (path : String) : Task Compiler Bool :=
  withAide "learning" do
    info ("Learning from file: " ++ path)
    let work : Task Compiler Bool := do
      let code ← Job.readText path
      let result ← ask (Aide.process (.str code) (.dict [("source_file", .str path)]))
      let learned ← result.itemD "learning" (.dict [])
      Job.printLine "\nLearning Results"
      Job.printLine "==============="
      Job.printLine ("Learning iterations: " ++
        (← shownItem learned "learning_iterations" (.int 0)))
      Job.printLine ("Patterns learned: " ++ (← shownItem learned "patterns_learned" (.int 0)))
      return true
    work.orElse fun f => fail ("Error learning from file: " ++ f.message)

def writable : Value → Except Fault String
  | .str s => .ok s
  | v => .error (.wrongKind ("write() argument must be str, not " ++ v.kind.name))

/-- Write a value to a file, which is emptied first. -/
def writeValue (path : String) (v : Value) : Job Unit := do
  Job.writeText path ""
  Job.writeText path (← writable v)

def optimizeFile (path : String) : Task Compiler Bool :=
  withAide "optimization" do
    info ("Optimizing file: " ++ path)
    let work : Task Compiler Bool := do
      let code ← Job.readText path
      let o := (← Task.self).options
      let result ← ask (Aide.optimize (.str code) (.int o.level))
      Job.printLine "\nOptimization Results"
      Job.printLine "==================="
      let techniques ← (← result.itemD "techniques_applied" (.list [])).size
      Job.printLine ("Techniques applied: " ++ toString techniques)
      Job.printLine ("Code size reduction: " ++
        (← shownItem result "code_size_reduction" (.int 0)) ++ " bytes")
      let target := if o.output.isEmpty then path ++ ".opt" else o.output
      writeValue target (← result.itemD "optimized_code" (.str code))
      Job.printLine ("\nOptimized code written to: " ++ target)
      return true
    work.orElse fun f => fail ("Error optimizing file: " ++ f.message)

/-! ### Compilation -/

/-- The message in an answer that is only a message. -/
def failure? (answer : Value) : Except Fault (Option String) := do
  if ← answer.has "error" then return some (← (← answer.item "error").display) else return none

def generateCode (description : String) : Task Compiler Bool :=
  withAide "code generation" do
    info ("Generating code from description: " ++ description)
    let result ← ask (Aide.generate (.str description))
    match ← failure? result with
    | some message => fail ("Code generation failed: " ++ message)
    | none =>
      Task.update fun c =>
        if c.options.output.isEmpty || c.options.output = "a.out" then
          { c with options := { c.options with output := "generated.gz" } }
        else c
      let target := (← Task.self).options.output
      writeValue target (← result.itemD "code" (.str ""))
      info ("Generated code written to " ++ target)
      return true

def explainCode (path code : String) : Task Compiler Bool :=
  withAide "code explanation" do
    info ("Explaining code in " ++ path)
    let result ← ask (Aide.explain (.str code))
    match ← failure? result with
    | some message => fail ("Code explanation failed: " ++ message)
    | none =>
      Job.printLine (← shownItem result "explanation" (.str ""))
      return true

def correctCode (code : Value) : Task Compiler Value := do
  let c ← Task.self
  if c.aide.isNone || c.options.noCorrection then return code
  info "Applying AI auto-correction"
  let result ← ask (Aide.correct code)
  match ← failure? result with
  | some message =>
    let _ ← fail ("Auto-correction failed: " ++ message)
    return code
  | none =>
    if (← result.itemD "corrections_made" (.bool false)).isTrue then
      info "Auto-correction applied successfully"
      result.itemD "corrected_code" code
    else return code

def optimizeCode (code : Value) : Task Compiler Value := do
  let c ← Task.self
  if c.aide.isNone || c.options.noOptimization then return code
  info "Applying AI auto-optimization"
  let result ← ask (Aide.optimize code (.int c.options.level))
  match ← failure? result with
  | some message =>
    let _ ← fail ("Auto-optimization failed: " ++ message)
    return code
  | none =>
    let techniques ← (← result.itemD "techniques_applied" (.list [])).size
    info ("Auto-optimization applied successfully with " ++ toString techniques ++ " techniques")
    result.itemD "optimized_code" code

structure Finished where
  status : Nat
  out : String
  err : String

def runApart (path : String) : Job Finished :=
  Action.of fun w =>
    let (r, child) := (interpret false [path]).perform { w with out := "", err := "" }
    let finished : Finished := match r with
      | .ok exit => ⟨exit.getD 0, child.out, child.err⟩
      | .error f => ⟨1, child.out, child.err ++ f.report ++ "\n"⟩
    (.ok finished, { child with out := w.out, err := w.err })

def runProgram (inst : Installation) (path : String) : Task Compiler Bool := do
  info ("Running " ++ (← Task.self).options.output)
  if !inst.interpreter then
    fail ("Failed to run program: " ++ (Fault.file .noSuchFile "python").message)
  else
    let finished ← runApart path
    if finished.status = 0 then
      Job.printLine finished.out
      info "Program executed successfully"
      return true
    else
      Job.printLine finished.err
      fail ("Program execution failed with code " ++ toString finished.status)

/-- Put the program that builds the interface in the place of the interface sections. -/
def compileSections (path code : String) : Task Compiler String := do
  info ("Compiling UI code in " ++ path)
  return (Ui.Design.compile {} code).1.code

def compileCode (inst : Installation) (path code : String) : Task Compiler Bool := do
  let o := (← Task.self).options
  let code ← correctCode (.str code)
  if o.verbose then
    info ("Compiling " ++ path ++ " to " ++ o.output)
    info ("Optimization level: " ++ toString o.level)
    info ("Target: " ++ o.target)
  let code ← optimizeCode code
  let target := o.output ++ ".gz"
  writeValue target code
  if o.verbose then info ("Processed code saved to " ++ target)
  if o.run then
    if !(← runProgram inst target) then return false
  if (← Task.self).aide.isSome then
    info "Learning from code"
    let _ ← ask (Aide.process code (.dict [("source_file", .str path)]))
  return true

def compileFile (inst : Installation) (path : String) : Task Compiler Bool := do
  let o := (← Task.self).options
  if !(← Job.pathExists path) then fail ("Source file not found: " ++ path)
  else
    match ← (Task.job (Job.readText path)).outcome with
    | .error f => fail ("Failed to read source file: " ++ f.message)
    | .ok code =>
      if o.explain then explainCode path code
      else if !o.interface then compileCode inst path code
      else if !inst.interface then fail "UI compiler required for UI mode"
      else compileCode inst path (← compileSections path code)

def given? (s : Option String) : Option String :=
  s.filter fun t => !t.isEmpty

def compileOrGenerate (inst : Installation) : Task Compiler Bool := do
  let o := (← Task.self).options
  match o.generate, given? o.source with
  | none, none => fail "No source file specified and no code generation requested"
  | none, some path => compileFile inst path
  | some description, _ =>
    if !(← generateCode description) then return false
    if o.run then compileFile inst (← Task.self).options.output else return true

def work (inst : Installation) : Task Compiler Bool := do
  let o := (← Task.self).options
  if o.forceUpdate then forceUpdate
  else if o.stats then printStats
  else if o.evolution then printEvolution
  else
    match given? o.learn, given? o.optimize with
    | some path, _ => learnFile path
    | none, some path => optimizeFile path
    | none, none => compileOrGenerate inst

/-! ### The command -/

def aideConfig (o : Options) : Value :=
  .dict [("intelligence_level", .int o.intelligence), ("auto_update", .bool !o.noSharing),
    ("model_path", .str o.model)]

def startAide (inst : Installation) : Task Compiler Unit := do
  let o := (← Task.self).options
  match inst.aide with
  | none => pure ()
  | some kind =>
    if o.noLearning then pure ()
    else
      let aide ← Aide.start kind (aideConfig o)
      Task.update fun c => { c with aide := some aide }
      info ("AI capabilities initialized with intelligence level " ++ toString o.intelligence)

end Compiler

def noteMissing (inst : Installation) : Job Unit := do
  if inst.aide.isNone then
    Job.note "WARNING" "AI capabilities not available. Running in basic mode."
  if !inst.interface then
    Job.note "WARNING" "UI capabilities not available. UI compilation disabled."

def compile (inst : Installation) (args : List String) : Job Exit := do
  noteMissing inst
  match Options.ofArguments args with
  | .error .help =>
    Job.printLine ("usage: " ++ inst.program ++ " [options] [source_file]")
    return some 0
  | .error (.misuse message) =>
    Job.complain (inst.program ++ ": error: " ++ message)
    return some 2
  | .error (.fault f) => throw f
  | .ok options =>
    Task.from_ { options } do
      Compiler.startAide inst
      if inst.interface && options.interface then Job.note "INFO" "UI compiler initialized"
      let success ← Compiler.work inst
      let _ ← Task.ifThere Compiler.aidePart Aide.shutDown
      return some (if success then 0 else 1)

end GzLang.Command
