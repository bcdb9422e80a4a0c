import GzLang.Json.File
import GzLang.Optimization.Level
import GzLang.Value.Statistic

/-!
# The progressive optimizer

An optimizer applies the techniques of all levels up to the current one, and counts what it does.
The counts are saved after every use and read back when an optimizer starts; the highest level whose
numbers they reach becomes the current one. A level can also be asked for.
-/

namespace GzLang.Optimization

/-- An optimizer. The counts have whatever shape their file had. -/
structure Optimizer where
  path : String := "models/optimization_stats.json"
  levels : List Level := Optimization.levels
  current : Int := 1
  counts : Value := .dict [("total_optimizations", .int 0), ("successful_optimizations", .int 0),
    ("code_size_reduction", .int 0), ("performance_improvement", .int 0), ("techniques", .dict [])]

namespace Optimizer

def load : Task Optimizer Unit := do
  let path := (← Task.self).path
  let read : Task Optimizer Unit := do
    if ← Job.pathExists path then
      let counts ← Json.load path
      Task.update fun o => { o with counts }
  read.orElse fun _ => pure ()

def save : Task Optimizer Unit := do
  let o ← Task.self
  let write : Job Unit := do
    Job.makeDirectories (Disk.parent o.path)
    Json.save .indented o.path o.counts
  write.orElse fun _ => pure ()

def «open» (path : String) : Job Optimizer :=
  Task.start { path } load

/-- The highest level that may be used; the first if none may. -/
def bestLevel (counts : Value) (levels : List Level) : Except Fault (Option Level) := do
  let rec find : List Level → Except Fault (Option Level)
    | [] => .ok none
    | l :: ls => do if ← l.available counts then return some l else find ls
  find (levels.mergeSort fun a b => a.number ≥ b.number)

def updateLevel : Task Optimizer Unit := do
  let o ← Task.self
  match ← bestLevel o.counts o.levels with
  | some l => Task.update fun o => { o with current := l.number }
  | none => pure ()

def count (f : Value → Except Fault Value) : Task Optimizer Unit := do
  let counts ← f (← Task.self).counts
  Task.update fun o => { o with counts }

def countTechnique (name : String) : Task Optimizer Unit := do
  if !(← (← (← Task.self).counts.item "techniques").has name) then
    count fun c => c.changeItem "techniques" fun ts =>
      ts.withItem name (.dict [("applications", .int 0), ("successes", .int 0)])
  count fun c => c.changeItem "techniques" fun ts =>
    ts.changeItem name fun t => t.changeItem "applications" Value.next
  count fun c => c.changeItem "techniques" fun ts =>
    ts.changeItem name fun t => t.changeItem "successes" Value.next

/-- A technique by its places; the optimizer itself stays as it is if there is none. -/
def techniquePart (i j : Nat) (other : Technique) : Part Optimizer Technique where
  get o := ((o.levels[i]?).bind fun l => l.techniques[j]?).getD other
  set t o := { o with levels := o.levels.modify i fun l =>
    { l with techniques := l.techniques.set j t } }

/-- Apply the techniques of one level, counting those that changed the code. -/
def applyLevel (i : Nat) : List (Technique × Nat) → Value → Task Optimizer (Value × List String)
  | [], code => pure (code, [])
  | (t, j) :: ts, code => do
    let after ← Task.within (techniquePart i j t) (Technique.apply code)
    let changed := !after.equal code
    if changed then countTechnique t.name
    let (code, names) ← applyLevel i ts after
    return (code, if changed then t.name :: names else names)

def applyLevels (limit : Value) : List (Level × Nat) → Value → Task Optimizer (Value × List String)
  | [], code => pure (code, [])
  | (l, i) :: ls, code => do
    if ← Value.relate .le (.int l.number) limit then
      let (code, names) ← applyLevel i l.techniques.zipIdx code
      let (code, more) ← applyLevels limit ls code
      return (code, names ++ more)
    else applyLevels limit ls code

def shrinkage (before after : Value) : Except Fault Value := do
  let n ← before.size
  let saved : Value := .int ((n : Int) - (← after.size))
  (← saved.div (.int n)).mul (.int 100)

/-- Optimize code, with the techniques up to a level or up to the current one. -/
def optimize (code : Value) (level : Value) : Task Optimizer Value := do
  let o ← Task.self
  let limit := if level.isNull then .int o.current else level
  let (after, names) ← applyLevels limit o.levels.zipIdx code
  count fun c => c.changeItem "total_optimizations" Value.next
  if !after.equal code then
    count fun c => c.changeItem "successful_optimizations" Value.next
    let percent ← shrinkage code after
    count fun c => c.changeItem "code_size_reduction" fun r => r.add percent
  save
  updateLevel
  return .dict [("optimized_code", after), ("techniques_applied", Value.texts names),
    ("optimization_level", limit),
    ("code_size_reduction", .int ((← code.size) - (← after.size)))]

def availableLevels (o : Optimizer) : Except Fault Value := do
  return .list (← o.levels.mapM fun l => do
    let available ← l.available o.counts
    return .dict [("level", .int l.number), ("name", .str l.name),
      ("description", .str l.description), ("available", .bool available),
      ("current", .bool (l.number == o.current)),
      ("techniques", Value.texts (l.techniques.map (·.name))),
      ("prerequisites", .dict l.prerequisites)])

def successRates (techniques : Table Value) : Except Fault (List Value) := do
  let rates ← techniques.mapM fun (_, t) => do
    if ← (← t.item "applications").relate .gt (.int 0) then
      return some (← (← t.item "successes").div (← t.item "applications"))
    else return none
  return rates.filterMap id

def stats (o : Optimizer) : Except Fault Value := do
  let rates ← successRates (← (← o.counts.item "techniques").table "items")
  let average ← if rates.isEmpty then pure (.int 0) else Value.mean rates
  let total ← o.counts.item "total_optimizations"
  let successful ← o.counts.item "successful_optimizations"
  let rate ← successful.div (← Value.greater (.int 1) total)
  let reduction ← (← o.counts.item "code_size_reduction").div
    (← Value.greater (.int 1) successful)
  return .dict [("current_level", .int o.current), ("total_optimizations", total),
    ("successful_optimizations", successful), ("success_rate", rate),
    ("avg_code_size_reduction", reduction), ("avg_technique_success_rate", average),
    ("techniques_count", .int (← (← o.counts.item "techniques").size))]

end Optimizer

end GzLang.Optimization
