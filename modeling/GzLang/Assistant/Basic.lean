import GzLang.Answer
import GzLang.Assistant.Feature
import GzLang.Assistant.Rule
import GzLang.Collective.Update
import GzLang.Value.View

/-!
# The assistant

An assistant learns from code, corrects, optimizes, explains and generates it. It keeps its rules
and templates in a memory of its own, and passes what it sees on to the collective memory if there
is one.
-/

namespace GzLang

structure Assistant.Counters where
  setUpTime : Value := .int 0
  samples : Nat := 0
  optimizations : Nat := 0
  corrections : Nat := 0
  generated : Nat := 0
  transfers : Nat := 0
  improvements : Nat := 0
  rate : Value := .null
  deriving Inhabited

def Assistant.Counters.table (c : Counters) : Table Value :=
  [("initialization_time", c.setUpTime), ("code_samples_processed", .int c.samples),
    ("optimizations_applied", .int c.optimizations), ("corrections_made", .int c.corrections),
    ("code_generated", .int c.generated), ("knowledge_transfers", .int c.transfers),
    ("self_improvements", .int c.improvements),
    ("learning", .dict [("samples_processed", .int 0), ("current_learning_rate", c.rate),
      ("patterns_known", .int 0), ("knowledge_categories", .list []),
      ("high_confidence_patterns", .int 0), ("learning_acceleration", .float 1.0)])]

def Assistant.Counters.ofDocument (v : Value) : Counters where
  setUpTime := v.field "initialization_time"
  samples := (v.field "code_samples_processed").asInt.toNat
  optimizations := (v.field "optimizations_applied").asInt.toNat
  corrections := (v.field "corrections_made").asInt.toNat
  generated := (v.field "code_generated").asInt.toNat
  transfers := (v.field "knowledge_transfers").asInt.toNat
  improvements := (v.field "self_improvements").asInt.toNat
  rate := (v.field "learning").field "current_learning_rate"

structure Assistant where
  config : Value := .dict []
  initialized : Bool := false
  /-- Rules, templates and what was learned; a file may have put anything in it. -/
  memory : Table Value := [("syntax_patterns", .dict []), ("optimization_rules", .dict []),
    ("correction_rules", .dict []), ("code_templates", .dict []), ("learning_iterations", .int 0)]
  collective : Option Collective := none
  counters : Assistant.Counters := {}
  deriving Inhabited

namespace Assistant

def collectivePart : Part Assistant (Option Collective) :=
  ⟨Assistant.collective, fun c a => { a with collective := c }⟩

/-- The options that hold where a configuration says nothing. -/
def defaults : Table Value :=
  [("learning_rate", .float 0.01), ("acceleration_factor", .int 100),
    ("memory_file", .str (World.home ++ "/.gz/models/memory.json")),
    ("model_file", .str (World.home ++ "/.gz/models/gz_ai_model.bin")),
    ("optimization_level", .int 1), ("auto_update", .bool true)]

def option (name : String) : Task Assistant Value := do
  (← Task.self).config.item name

def part (name : String) : Task Assistant Value := do
  (Value.dict (← Task.self).memory).item name

def putPart (name : String) (v : Value) : Task Assistant Unit :=
  Task.update fun a => { a with memory := Table.put a.memory name v }

def count (f : Counters → Counters) : Task Assistant Unit :=
  Task.update fun a => { a with counters := f a.counters }

/-! ### The file -/

def load : Task Assistant Bool := do
  let read : Task Assistant Bool := do
    let path ← (← option "memory_file").text "exists"
    if !(← Job.pathExists path) then return false
    let loaded ← (← Json.load path).table "items"
    Task.update fun a => { a with memory := Table.merge a.memory loaded }
    return true
  read.orElse fun _ => pure false

def save : Task Assistant Bool := do
  let write : Task Assistant Bool := do
    let path ← (← option "memory_file").text "open"
    Job.makeDirectories (Disk.parent path)
    Json.save .indented path (.dict (← Task.self).memory)
    return true
  write.orElse fun _ => pure false

/-! ### Set-up -/

/-- Make an assistant from a configuration and its file. It shares what it learns if `sharing` and
its configuration say so. -/
def «open» (sharing : Bool) (config : Value) : Job Assistant := do
  let config ← config.orEmpty.withDefaults defaults
  Task.start { config } do
    let _ ← load
    if sharing && (← option "auto_update").isTrue then
      let c ← Collective.open (.dict [])
      Task.update fun a => { a with collective := some c }
    let rate ← option "learning_rate"
    count fun c => { c with rate }

def setUpRules : Task Assistant Unit := do
  putPart "correction_rules" (Rule.documents corrections)
  putPart "optimization_rules" (Rule.documents optimizations)
  putPart "code_templates" (.dict templates)

/-- A fault unless a value can name a file. -/
def checkPath : Value → Except Fault Unit
  | .str _ | .int _ | .bool _ => .ok ()
  | v => .error (.wrongKind
    ("stat: path should be string, bytes, os.PathLike or integer, not " ++ v.kind.name))

def setUp : Task Assistant Bool := do
  let start ← Job.seconds
  let work : Task Assistant Bool := do
    checkPath (← option "model_file")
    if !(← part "correction_rules").isTrue then setUpRules
    let time := (← Job.seconds) - start
    Task.update fun a => { a with initialized := true }
    count fun c => { c with setUpTime := .float time }
    return true
  work.orElse fun _ => pure false

def answering (a : Task Assistant Value) : Task Assistant Value :=
  Answer.guarded Assistant.initialized a

/-- Pass a learning on, if there is a collective memory. -/
def share (kind : String) (data : Table Value) : Task Assistant Unit := do
  let _ ← Task.ifThere collectivePart (Collective.addLearning (.str kind) (.dict data))

/-- Pass a learning on to the collective memory, which has to be there. -/
def mustShare (kind : String) (data : Table Value) : Task Assistant Unit := do
  match ← Task.ifThere collectivePart (Collective.addLearning (.str kind) (.dict data)) with
  | some _ => pure ()
  | none => throw (.noOperation .null "add_learning")

def now : Task Assistant Value := do
  return .float (← Job.seconds)

/-- Save the memory, and push the learnings that were not pushed yet. -/
def shutDown : Task Assistant Unit := do
  let _ ← save
  let _ ← Task.ifThere collectivePart do
    if ← (← Collective.part "improvement_count").relate .gt (.int 0) then
      let _ ← Collective.forceUpdate

end Assistant

end GzLang
