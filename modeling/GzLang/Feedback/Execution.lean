import GzLang.Digest.Md5
import GzLang.Json.File
import GzLang.Value.Statistic

/-!
# Tracked executions

A tracker follows one execution at a time, from its start to its end, and keeps the ended ones in a
history, which is saved after every end. A history that cannot be read counts as empty, and one
that cannot be saved is kept in memory only.
-/

namespace GzLang.Feedback

/-- A tracker. The history has whatever shape its file had. -/
structure Tracker where
  path : String := "models/execution_history.json"
  executions : Value := .list []
  current : Value := .null
  deriving Inhabited

namespace Tracker

def load : Task Tracker Unit := do
  let path := (← Task.self).path
  let read : Task Tracker Value := do
    if ← Job.pathExists path then Json.load path else return (← Task.self).executions
  let executions ← read.orElse fun _ => pure (.list [])
  Task.update fun t => { t with executions }

def save : Task Tracker Unit := do
  let t ← Task.self
  let write : Job Unit := do
    Job.makeDirectories (Disk.parent t.path)
    Json.save .indented t.path t.executions
  write.orElse fun _ => pure ()

def «open» (path : String) : Job Tracker :=
  Task.start { path } load

def begin_ (code : Value) (source context : Value) : Task Tracker Value := do
  let hash := Md5.hex (← code.text "encode")
  let seconds := Calendar.nearestInt (Calendar.wholePart (← Job.seconds))
  let id : Value := .str ("exec_" ++ toString seconds ++ "_" ++ (hash.take 8).toString)
  let now ← Job.timestamp
  Task.update fun t => { t with current := .dict [("id", id), ("timestamp_start", .str now),
    ("code_hash", .str hash), ("source_file", source),
    ("context", if context.isTrue then context else .dict []), ("status", .str "running"),
    ("output", .list []), ("errors", .list []), ("execution_time", .int 0),
    ("memory_usage", .int 0), ("success", .null)] }
  return id

def addTo (list : String) (v : Value) : Task Tracker Unit := do
  let t ← Task.self
  if t.current.isTrue then
    let current ← t.current.changeItem list fun xs => xs.pushed v
    Task.update fun t => { t with current }

def addOutput : Value → Task Tracker Unit := addTo "output"

def addError : Value → Task Tracker Unit := addTo "errors"

def mark (field : String) (v : Value) : Task Tracker Unit := do
  let current ← (← Task.self).current.withItem field v
  Task.update fun t => { t with current }

/-- End the current execution and give its record, or nothing if there is none. -/
def end_ (success time usage : Value) : Task Tracker Value := do
  if !(← Task.self).current.isTrue then return .null
  mark "timestamp_end" (.str (← Job.timestamp))
  mark "status" (.str "completed")
  mark "success" success
  mark "execution_time" time
  mark "memory_usage" usage
  let t ← Task.self
  let executions ← t.executions.pushed t.current
  Task.update fun t => { t with executions }
  save
  Task.update fun t => { t with current := .null }
  return t.current

def execution (t : Tracker) (id : Value) : Except Fault Value := do
  let rec find : List Value → Except Fault Value
    | [] => .ok .null
    | e :: es => do if (← e.item "id").equal id then return e else find es
  find (← t.executions.elements)

def executionsOf (t : Tracker) (hash : Value) : Except Fault Value := do
  let es ← t.executions.elements
  return .list (← es.filterM fun e => return (← e.item "code_hash").equal hash)

def recent (t : Tracker) (limit : Int) : Except Fault Value := do
  let es ← t.executions.elements
  let sorted ← Value.sortDescending (fun e => e.item "timestamp_start") es
  return .list (Value.upTo limit sorted)

def stats (t : Tracker) : Except Fault Value := do
  if !t.executions.isTrue then
    return .dict [("total", .int 0), ("successful", .int 0), ("failed", .int 0),
      ("avg_execution_time", .int 0)]
  let es ← t.executions.elements
  let successful ← es.filterM fun e => return (← e.itemD "success" (.bool false)).isTrue
  let failed ← es.filterM fun e => do
    match ← e.itemD "success" .null with
    | .bool false => return true
    | _ => return false
  let times ← es.mapM fun e => e.itemD "execution_time" (.int 0)
  let times ← times.filterM fun x => x.relate .gt (.int 0)
  return .dict [("total", .int (← t.executions.size)), ("successful", .int successful.length),
    ("failed", .int failed.length),
    ("avg_execution_time", ← if times.isEmpty then pure (.int 0) else Value.mean times)]

end Tracker

end GzLang.Feedback
