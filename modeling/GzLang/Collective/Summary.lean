import GzLang.Collective.Basic
import GzLang.Decimal.Rounded

/-!
# The summary of the learnings

A report for readers: the number of learnings, their kinds, and the ones seen last. It is written
piece by piece, so a learning that is not well formed cuts it short.
-/

namespace GzLang.Collective

abbrev Report := Action String

def write (s : String) : Report Unit := modify (· ++ s)

/-- The first and the last second that has a date of four digits. -/
def datedSeconds : Int × Int := (-62135596800, 253402300799)

def instantOf (v : Value) : Except Fault Instant := do
  let x ← v.toDouble
  if x.isNaN || x.isInf || x.abs > 1e15 then throw (.raised "year is out of range")
  let t := Calendar.ofSeconds x
  let seconds := t.fdiv 1000000
  if seconds < datedSeconds.1 || seconds > datedSeconds.2 then
    throw (.raised "year is out of range")
  return t

def writeLearning (l : Value) : Report Unit := do
  let kind ← (← l.item "type").display
  let date := Calendar.dateText (← instantOf (← l.item "created"))
  write ("### " ++ kind ++ " (" ++ date ++ ")\n")
  let frequency ← (← l.item "frequency").display
  write ("Frequency: " ++ frequency ++ ", Confidence: " ++
    (← Decimal.fixedText 2 <$> (← l.item "confidence").toDouble) ++ "\n\n")
  write "\x60\x60\x60\n"
  write (← Json.render .indented (← l.item "data"))
  write "\n\x60\x60\x60\n\n"

def recent (learnings : Value) : Except Fault (List Value) := do
  let sorted ← Value.sortDescending (fun l => l.item "last_seen")
    ((← learnings.table "items").map (·.2))
  return sorted.take 10

def writeReport (memory : Table Value) (pushes : Nat) (now : Instant) : Report Unit := do
  let learnings := (Value.dict memory).item "collective_learnings"
  write "# GZ Collective Learning Summary\n\n"
  write ("Last updated: " ++ Calendar.secondText now ++ "\n\n")
  write ("Total learnings: " ++ toString (← (← learnings).size) ++ "\n")
  write ("Updates pushed: " ++ toString pushes ++ "\n\n")
  let kinds ← kindCounts (← learnings)
  write "## Learning Types\n\n"
  kinds.forM fun (k, n) => do write ("- " ++ (← k.display) ++ ": " ++ toString n ++ "\n")
  write "\n## Recent Learnings\n\n"
  (← recent (← learnings)).forM writeLearning

/-- Write the learnings and the report to the directory of a repository, and say whether that could
be done. -/
def writeMemoryFiles (repository : String) : Task Collective Bool := do
  let work : Task Collective Bool := do
    let directory := Disk.join repository "models"
    Job.makeDirectories directory
    let target := Disk.join directory "collective_memory.json"
    Job.writeText target ""
    Json.save .indented target (← learnings)
    let report := Disk.join directory "learning_summary.md"
    Job.writeText report ""
    let c ← Task.self
    let (r, text) := (writeReport c.memory c.counters.pushes (← Job.instant)).perform ""
    Job.writeText report text
    Action.ofExcept r
    return true
  work.orElse fun _ => pure false

end GzLang.Collective
