import GzLang.Improvement.Improver
import GzLang.Improvement.Timing
import GzLang.Json.File

/-!
# The improvement engine

An engine analyzes and improves every script below a directory, at once or whenever an interval has
passed, and keeps a history of its attempts in a file.
-/

namespace GzLang.Improvement

/-- An engine. The history has whatever shape its file had. -/
structure Engine where
  directory : String := "src"
  interval : Value := .int 3600
  analyzer : Analyzer := {}
  improver : Improver := {}
  timing : Timing := {}
  running : Bool := false
  history : Value := .list []
  lastCycle : Value := .int 0
  deriving Inhabited

def historyPath : String := "models/improvement_history.json"

namespace Engine

def analyzerPart : Part Engine Analyzer := ⟨Engine.analyzer, fun a e => { e with analyzer := a }⟩

def lastOf (v : Value) : Except Fault Value := do
  match v with
  | .dict _ => throw (.missingKey "-1")
  | v => v.element ((← v.size) - 1)

def lastAttempt (history : Value) : Except Fault Value := do
  let stamp ← (← lastOf history).item "timestamp"
  match stamp with
  | .str s =>
    match Calendar.ofIsoText? s with
    | some t => return .float (Calendar.toSeconds t)
    | none => throw (.badTimestamp s)
  | _ => throw (.wrongKind "fromisoformat: argument must be str")

def load : Task Engine Unit := do
  let read : Task Engine Unit := do
    if ← Job.pathExists historyPath then
      let history ← Json.load historyPath
      Task.update fun e => { e with history }
      if history.isTrue then
        let lastCycle ← lastAttempt history
        Task.update fun e => { e with lastCycle }
  read.orElse fun _ => pure ()

def save : Task Engine Unit := do
  let e ← Task.self
  (Task.job (Json.save .indented historyPath e.history)).orElse fun _ => pure ()

def «open» (directory : String) (interval : Value) : Job Engine := do
  let improver ← Improver.start "models/backups"
  Task.start { directory, interval, improver } load

def start : Task Engine Unit := Task.update fun e => { e with running := true }

def stop : Task Engine Unit := Task.update fun e => { e with running := false }

/-- Analyze a script, improve it if something was found, and record the attempt. -/
def improveFile (path : String) : Task Engine Unit := do
  let (metrics, found) ← Task.within analyzerPart (Analyzer.analyze path)
  if found.isEmpty then return ()
  let success ← (← Task.self).improver.apply path (.list found)
  let now ← Job.timestamp
  let attempt : List (String × Value) := [("timestamp", .str now), ("file", .str path),
    ("opportunities", .int found.length), ("success", .bool success), ("metrics_before", metrics)]
  let history ← (← Task.self).history.pushed (.dict attempt)
  Task.update fun e => { e with history }

def isScript (path : String) : Bool :=
  Text.endsWith ".py".toList path.toList

def scripts (directory : String) : Job (List String) := do
  let d := (← get).disk
  return (d.walk (d.length + 1) directory).filter isScript

def improveAll : Task Engine Unit := do
  (← scripts (← Task.self).directory).forM improveFile

def cycle : Task Engine Value := do
  improveAll
  let now ← Job.seconds
  Task.update fun e => { e with lastCycle := .float now }
  save
  return .int (← (← Task.self).history.size)

def nap : Float := 60

/-- Sleep; the engine is stopped when it has slept as often as it may. -/
def sleep : Task Engine Unit := do
  let stopped ← Task.job do
    Job.advance nap
    modify fun w => { w with naps := w.naps - 1 }
    return (← get).naps == 0
  if stopped then stop

def cycleIfDue : Task Engine Unit := do
  let e ← Task.self
  let now ← Job.seconds
  if ← (← Value.sub (.float now) e.lastCycle).relate .ge e.interval then
    improveAll
    Task.update fun e => { e with lastCycle := .float now }
    save

/-- The cycles of an engine, for as many naps as it may take. -/
def runFor : Nat → Task Engine Unit
  | 0 => pure ()
  | naps + 1 => do
    if (← Task.self).running then
      cycleIfDue
      sleep
      runFor naps

def run : Task Engine Unit := do
  runFor (← Task.job do return (← get).naps)

def countAttempt (counts : List (Value × Nat)) (attempt : Value) :
    Except Fault (List (Value × Nat)) := do
  let file ← attempt.item "file"
  let success ← attempt.itemD "success" (.bool false)
  let n := if success.isTrue then 1 else 0
  if counts.any fun c => c.1.equal file then
    return counts.map fun c => if c.1.equal file then (c.1, c.2 + n) else c
  else return counts ++ [(file, n)]

def most (counts : List (Value × Nat)) : Value × Nat :=
  match counts with
  | [] => (.null, 0)
  | c :: cs => cs.foldl (fun best c => if c.2 > best.2 then c else best) c

def stats (e : Engine) : Except Fault Value := do
  if !e.history.isTrue then
    return .dict [("total_improvements", .int 0), ("successful_improvements", .int 0),
      ("last_improvement", .null), ("most_improved_file", .null)]
  let attempts ← e.history.elements
  let successful ← attempts.filterM fun a => return (← a.itemD "success" (.bool false)).isTrue
  let counts ← attempts.foldlM countAttempt []
  let best := most counts
  return .dict [("total_improvements", .int (← e.history.size)),
    ("successful_improvements", .int successful.length),
    ("last_improvement", ← (← lastOf e.history).item "timestamp"),
    ("most_improved_file", best.1), ("most_improved_count", .int best.2)]

end Engine

end GzLang.Improvement
