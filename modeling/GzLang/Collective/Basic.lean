import GzLang.Digest.Md5
import GzLang.Json.File
import GzLang.Value.Document

/-!
# The collective memory

Learnings of all kinds are gathered in one document, each under the digest of its data, with how
often and when it was seen. The document is kept in a file.
-/

namespace GzLang

structure Collective.Counters where
  improvements : Nat := 0
  pushes : Nat := 0
  lastPush : Value := .int 0
  deriving Inhabited

def Collective.Counters.table (c : Counters) : Table Value :=
  [("improvements_made", .int c.improvements), ("updates_pushed", .int c.pushes),
    ("last_update_time", c.lastPush)]

structure Collective where
  config : Value := .dict []
  /-- The learnings and their counts; a file may have put anything in it. -/
  memory : Table Value := [("last_update", .int 0), ("collective_learnings", .dict []),
    ("improvement_count", .int 0), ("update_history", .list [])]
  counters : Collective.Counters := {}
  deriving Inhabited

namespace Collective

/-- The options that hold where a configuration says nothing. -/
def defaults : Table Value :=
  [("github_repo", .str "https://github.com/Zrald1/gzc.git"), ("github_branch", .str "main"),
    ("github_username", .str "Zrald1"), ("github_token_env", .str "GZ_GITHUB_TOKEN"),
    ("memory_file", .str (World.home ++ "/.gz/models/collective_memory.json")),
    ("update_interval", .int 86400), ("improvement_threshold", .int 10),
    ("auto_update", .bool true)]

def option (name : String) : Task Collective Value := do
  (← Task.self).config.item name

def part (name : String) : Task Collective Value := do
  (Value.dict (← Task.self).memory).item name

def putPart (name : String) (v : Value) : Task Collective Unit :=
  Task.update fun c => { c with memory := Table.put c.memory name v }

def learnings : Task Collective Value := part "collective_learnings"

/-! ### The file -/

def load : Task Collective Bool := do
  let read : Task Collective Bool := do
    let path ← (← option "memory_file").text "exists"
    if !(← Job.pathExists path) then return false
    let loaded ← (← Json.load path).table "items"
    Task.update fun c => { c with memory := Table.merge c.memory loaded }
    return true
  read.orElse fun _ => pure false

def save : Task Collective Bool := do
  let write : Task Collective Bool := do
    let path ← (← option "memory_file").text "open"
    Job.makeDirectories (Disk.parent path)
    Json.save .indented path (.dict (← Task.self).memory)
    return true
  write.orElse fun _ => pure false

def «open» (config : Value) : Job Collective := do
  Task.start { config := ← config.orEmpty.withDefaults defaults } do
    let _ ← load

/-! ### Learnings -/

def learningId (data : Value) : Except Fault String := do
  return Md5.hex (← Json.render .line data)

def newLearning (kind data : Value) (now : Float) : Value :=
  .dict [("type", kind), ("data", data), ("frequency", .int 1), ("confidence", .float 0.5),
    ("created", .float now), ("last_seen", .float now)]

def changeLearning (id : String) (f : Value → Except Fault Value) : Task Collective Unit := do
  putPart "collective_learnings" (← (← learnings).changeItem id f)

/-- Count a learning once more. It is not saved. -/
def seeAgain (id : String) : Task Collective Unit := do
  changeLearning id fun l => l.changeItem "frequency" Value.next
  let now ← Job.seconds
  changeLearning id fun l => l.withItem "last_seen" (.float now)

def addNew (id : String) (kind data : Value) : Task Collective Unit := do
  let now ← Job.seconds
  putPart "collective_learnings" (← (← learnings).withItem id (newLearning kind data now))
  putPart "improvement_count" (← (← part "improvement_count").next)
  Task.update fun c =>
    { c with counters := { c.counters with improvements := c.counters.improvements + 1 } }
  let _ ← save

/-! ### Numbers -/

/-- How many learnings there are of each kind, in the order of first appearance. -/
def kindCounts (learnings : Value) : Except Fault (List (Value × Nat)) := do
  (← learnings.table "items").foldlM (fun counts (_, l) => do
    let kind ← l.item "type"
    match kind with
    | .list _ | .dict _ => throw (.wrongKind ("unhashable type: '" ++ kind.kind.name ++ "'"))
    | _ =>
      if counts.any fun c => c.1.equal kind then
        return counts.map fun c => if c.1.equal kind then (c.1, c.2 + 1) else c
      else return counts ++ [(kind, 1)]) []

def stats (c : Collective) : Except Fault Value := do
  let memory : Value := .dict c.memory
  let learnings ← memory.item "collective_learnings"
  let total ← learnings.size
  let improvements ← memory.item "improvement_count"
  let pushes ← (← memory.item "update_history").size
  let kinds ← (← kindCounts learnings).mapM fun (k, n) => do return (← k.display, Value.int n)
  return .dict (c.counters.table ++
    [("memory", .dict [("total_learnings", .int total), ("improvement_count", improvements),
      ("updates_pushed", .int pushes)]), ("learning_types", .dict kinds)])

end Collective

end GzLang
