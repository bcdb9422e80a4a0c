import GzLang.Feedback.Execution
import GzLang.Text.LowerCase

/-!
# What feedback has taught

An analyst counts, over all executions, how often each line succeeded and failed, groups errors that
differ only in details, and keeps the latest times and sizes. Its knowledge is saved after every
analysis and read back when an analyst starts; what cannot be read or saved is passed over.
-/

namespace GzLang.Feedback

structure Analyst where
  path : String := "models/feedback_knowledge.json"
  /-- For each line how often it succeeded and failed. -/
  outcomes : Table Value := []
  /-- For each group of errors their number and the first of them. -/
  errors : Table Value := []
  performance : Value := .dict [("execution_times", .list []), ("memory_usage", .list [])]
  digest : String → String := Md5.hex
  deriving Inhabited

def noOutcomes : Value := .dict [("success", .int 0), ("failure", .int 0)]

def noErrors : Value := .dict [("count", .int 0), ("examples", .list [])]

def noPerformance : Value := .dict [("execution_times", .list []), ("memory_usage", .list [])]

def outcomeKey (digest : String → String) (role line : Value) : Except Fault String := do
  let line ← line.text "encode"
  return (← role.display) ++ ":" ++ ((digest line).take 8).toString

def detailWords : List (List Char) :=
  ["line".toList, "variable".toList, "function".toList, "module".toList, "file".toList]

/-- Leave out the detail after a word: the text before the word, the word, and what follows the
detail up to the word's next place, without its blanks. -/
def dropDetail (s word : List Char) : List Char :=
  match Text.splitAll word s with
  | before :: after :: _ => before ++ word ++ " X".toList ++ ((Text.words after).drop 1).flatten
  | _ => s

def simplified (error : List Char) : List Char :=
  detailWords.foldl dropDetail (Text.lower error)

def errorKey (digest : String → String) (error : String) : String :=
  ((digest (String.ofList (simplified error.toList))).take 16).toString

def pairOf (v : Value) : Except Fault (Value × Value) :=
  match v.elements with
  | .ok [a, b] => .ok (a, b)
  | .ok xs =>
    .error (if xs.length < 2 then .tooFewParts 2 xs.length else .tooManyParts 2)
  | .error _ =>
    .error (.wrongKind ("cannot unpack non-iterable " ++ v.kind.name ++ " object"))

namespace Analyst

def document (a : Analyst) : Value :=
  .dict [("syntax_success", .dict a.outcomes), ("error_patterns", .dict a.errors),
    ("performance_metrics", a.performance)]

def load : Task Analyst Unit := do
  let path := (← Task.self).path
  let read : Task Analyst Unit := do
    if ← Job.pathExists path then
      let doc ← Json.load path
      let outcomes ← (← doc.itemD "syntax_success" (.dict [])).table "items"
      Task.update fun a => { a with outcomes }
      let errors ← (← doc.itemD "error_patterns" (.dict [])).table "items"
      Task.update fun a => { a with errors }
      let performance ← doc.itemD "performance_metrics" noPerformance
      Task.update fun a => { a with performance }
  read.orElse fun _ => pure ()

def save : Task Analyst Unit := do
  let a ← Task.self
  let write : Job Unit := do
    Job.makeDirectories (Disk.parent a.path)
    Json.save .indented a.path a.document
  write.orElse fun _ => pure ()

def «open» (path : String) (digest : String → String := Md5.hex) : Job Analyst :=
  Task.start { path, digest } load

def countLine (success : Bool) (pair : Value) : Task Analyst Unit := do
  let (role, line) ← pairOf pair
  let key ← outcomeKey (← Task.self).digest role line
  let field := if success then "success" else "failure"
  if !Table.has (← Task.self).outcomes key then
    Task.update fun a => { a with outcomes := Table.put a.outcomes key noOutcomes }
  let seen := (Table.get? (← Task.self).outcomes key).getD noOutcomes
  let seen ← seen.changeItem field Value.next
  Task.update fun a => { a with outcomes := Table.put a.outcomes key seen }

def putGroup (key : String) (group : Value) : Task Analyst Unit :=
  Task.update fun a => { a with errors := Table.put a.errors key group }

/-- Count one error and keep it as an example if there are fewer than five. -/
def countError (shown : Value) : Task Analyst Unit := do
  let error ← shown.itemD "error_message" (.str "")
  if !error.isTrue then return ()
  let key := errorKey (← Task.self).digest (← error.text "lower")
  if !Table.has (← Task.self).errors key then putGroup key noErrors
  let group := (Table.get? (← Task.self).errors key).getD noErrors
  let group ← group.changeItem "count" Value.next
  putGroup key group
  if (← (← group.item "examples").size) < 5 then
    let sample : Value :=
      .dict [("message", error), ("code_line", ← shown.itemD "code_line" .null)]
    putGroup key (← group.changeItem "examples" fun xs => xs.pushed sample)

/-- Keep a positive measurement as the latest of at most a thousand. -/
def keepLatest (field : String) (v : Value) : Task Analyst Unit := do
  if ← v.relate .gt (.int 0) then
    let longer ← (← Task.self).performance.changeItem field fun xs => xs.pushed v
    Task.update fun a => { a with performance := longer }
    let kept ← longer.changeItem field fun xs => xs.lastItems 1000
    Task.update fun a => { a with performance := kept }

def analyze (shown : Value) : Task Analyst Unit := do
  if !shown.isTrue then return ()
  let success ← (← shown.itemD "code_metrics" (.dict [])).itemD "success" (.bool false)
  let pairs ← (← shown.itemD "syntax_patterns" (.list [])).elements
  pairs.forM (countLine success.isTrue)
  let errors ← (← shown.itemD "error_patterns" (.list [])).elements
  errors.forM countError
  let cost ← shown.itemD "performance" (.dict [])
  let time ← cost.itemD "execution_time" (.int 0)
  let usage ← (← shown.itemD "performance" (.dict [])).itemD "memory_usage" (.int 0)
  keepLatest "execution_times" time
  keepLatest "memory_usage" usage
  save

/-- The share of successes among the outcomes of a line; a half if there are none. -/
def confidence (a : Analyst) (role line : Value) : Except Fault Value := do
  let key ← outcomeKey a.digest role line
  let seen := (Table.get? a.outcomes key).getD noOutcomes
  let success ← seen.item "success"
  let all ← success.add (← seen.item "failure")
  if all.equal (.int 0) then return .float 0.5
  success.div all

def commonErrors (a : Analyst) (limit : Int) : Except Fault (List Value) := do
  let groups ← a.errors.mapM fun (key, group) =>
    return (key, ← group.item "count", ← group.item "examples")
  let sorted ← Value.sortDescending (fun g => .ok g.2.1) groups
  return (Value.upTo limit sorted).map fun (key, count, examples) =>
    .dict [("id", .str key), ("count", count), ("examples", examples)]

/-- The mean, median, least and greatest of a list of measurements. -/
def summary (measurements : Value) : Except Fault Value := do
  if !measurements.isTrue then
    return .dict [("mean", .int 0), ("median", .int 0), ("min", .int 0), ("max", .int 0)]
  let xs ← measurements.elements
  return .dict [("mean", ← Value.mean xs), ("median", ← Value.median xs),
    ("min", ← Value.least xs), ("max", ← Value.greatest xs)]

def performanceStats (a : Analyst) : Except Fault Value := do
  let times ← a.performance.item "execution_times"
  let sizes ← a.performance.item "memory_usage"
  return .dict [("execution_time", ← summary times), ("memory_usage", ← summary sizes)]

end Analyst

end GzLang.Feedback
