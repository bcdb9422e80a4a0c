import GzLang.Decimal.Rounded
import GzLang.Digest.Md5
import GzLang.Improvement.Analyzer
import GzLang.Routine
import GzLang.Value.Display
import GzLang.Value.Statistic

/-!
# Timing routines

How long the calls of a routine took, and what its text and its times suggest about it.
-/

namespace GzLang.Improvement

structure Timing where
  history : Table Value := []
  deriving Inhabited

namespace Timing

def measure (r : Routine) (args : List Value) : Task Timing Value := do
  let start ← Job.seconds
  let result ← r.run args
  let time : Value := .float ((← Job.seconds) - start)
  if !Table.has (← Task.self).history r.name then
    Task.update fun t => ⟨Table.put t.history r.name (.list [])⟩
  let hash := Md5.hex (← Value.inner (.tuple args))
  let now ← Job.timestamp
  let calls ← ((Table.get? (← Task.self).history r.name).getD (.list [])).pushed
    (.dict [("execution_time", time), ("args_hash", .str hash), ("timestamp", .str now)])
  Task.update fun t => ⟨Table.put t.history r.name calls⟩
  return .tuple [result, time]

def suggestion (kind text priority : String) : Value :=
  .dict [("type", .str kind), ("description", .str text), ("priority", .str priority)]

/-- What the times of a routine suggest: more than five calls and a mean above a tenth of a
second. -/
def fromTimes (t : Timing) (name : String) : Except Fault (List Value) := do
  match Table.get? t.history name with
  | none => return []
  | some calls =>
    if (← calls.size) ≤ 5 then return []
    let mean ← Value.mean (← (← calls.elements).mapM fun c => c.item "execution_time")
    if ← mean.relate .gt (.float 0.1) then
      let seconds := Decimal.fixedText 4 (mean.toFloat?.getD 0)
      return [suggestion "performance" ("Function '" ++ name ++ "' takes " ++ seconds ++
        "s on average. Consider optimization.") "high"]
    else return []

def fromText (name : String) (text : List Char) : List Value :=
  (if Text.occurs "for".toList text && Text.occurs "append".toList text then
    [suggestion "list_comprehension"
      ("Consider using list comprehension instead of for loop with append in '" ++ name ++ "'.")
      "medium"]
  else []) ++
  (if occurrences "if".toList text > 3 then
    [suggestion "conditional_complexity"
      ("Function '" ++ name ++ "' has many conditional statements. Consider refactoring.")
      "medium"]
  else [])

def suggestions (t : Timing) (r : Routine) : Except Fault Value := do
  let text ← r.text
  return .list ((← t.fromTimes r.name) ++ fromText r.name text.toList)

end Timing

end GzLang.Improvement
