import GzLang.Digest.Md5
import GzLang.Json.File
import GzLang.Learning.Sample
import GzLang.Value.Document

/-!
# The learner

A learner weighs the features of the samples it has seen. Its rate grows with the number of
samples, up to a bound on the exponent; every feature has a weight, which the rate multiplies, and
a confidence, which results move by a tenth. Lines are listed by role in the known lines. All of
this is saved after every fifth sample and read back when a learner starts.
-/

namespace GzLang.Learning

/-- A learner. Whatever can be read from its file is kept as the file gave it. -/
structure Learner where
  baseRate : Value := .float 0.01
  acceleration : Value := .int 100
  path : String := "models/gz_memory"
  samples : Value := .int 0
  rate : Value := .float 0.01
  weights : Value := .dict []
  confidence : Value := .dict []
  known : Value := .dict []
  history : Value := .list []
  lastSave : Value := .float 0
  digest : String → String := Md5.hex
  deriving Inhabited

def featureId (digest : String → String) (role line : String) : String :=
  role ++ ":" ++ digest line

namespace Learner

def nextRate (l : Learner) : Except Fault Value := do
  if l.samples.equal (.int 0) then return l.baseRate
  let exponent ← (← l.samples.div (.int 100)).lesser (.int 10)
  l.baseRate.mul (← l.acceleration.pow exponent)

def file (l : Learner) : String := l.path ++ ".json"

def snapshot (l : Learner) : Except Fault Value := do
  return .dict [("samples_processed", l.samples), ("base_learning_rate", l.baseRate),
    ("acceleration_factor", l.acceleration), ("pattern_weights", l.weights),
    ("pattern_confidence", l.confidence), ("knowledge_graph", l.known),
    ("learning_history", ← l.history.lastItems 100)]

def save : Task Learner Unit := do
  let l ← Task.self
  Json.save .indented l.file (← l.snapshot)

def restore (l : Learner) (doc : Value) : Except Fault Learner := do
  return { l with
    samples := ← doc.itemD "samples_processed" (.int 0)
    baseRate := ← doc.itemD "base_learning_rate" l.baseRate
    acceleration := ← doc.itemD "acceleration_factor" l.acceleration
    weights := ← doc.itemD "pattern_weights" (.dict [])
    confidence := ← doc.itemD "pattern_confidence" (.dict [])
    known := ← doc.itemD "knowledge_graph" (.dict [])
    history := ← doc.itemD "learning_history" (.list []) }

def refreshRate : Task Learner Unit := do
  let rate ← (← Task.self).nextRate
  Task.update fun l => { l with rate }

/-- Read the learner back, and say whether there was something to read. -/
def load : Task Learner Bool := do
  let l ← Task.self
  match ← Json.load? l.file with
  | none => return false
  | some doc =>
    let l ← l.restore doc
    Task.update fun _ => l
    refreshRate
    return true

def start (baseRate acceleration : Value) (path : String) (digest : String → String := Md5.hex) :
    Job Learner := do
  let now ← Job.seconds
  let l : Learner :=
    { baseRate, acceleration, path, rate := baseRate, lastSave := .float now, digest }
  Task.start l do
    Job.makeDirectories (Disk.parent path)
    let _ ← load

def enrol (id : String) : Task Learner Unit := do
  let l ← Task.self
  if !(← l.weights.has id) then
    let weights ← l.weights.withItem id (.float 1.0)
    Task.update fun l => { l with weights }
    let confidence ← l.confidence.withItem id (.float 0.5)
    Task.update fun l => { l with confidence }

def weigh (id : String) : Task Learner Unit := do
  let l ← Task.self
  let weight ← l.weights.item id
  let weight ← weight.mul (← Value.add (.int 1) l.rate)
  let weights ← l.weights.withItem id weight
  Task.update fun l => { l with weights }

/-- Move the confidence of a feature by the result of a run. -/
def judge (id : String) (result : Value) : Task Learner Unit := do
  if result.isNull then return ()
  let l ← Task.self
  let c ← l.confidence.item id
  let c ←
    if result.equal (.str "success") then Value.lesser (.float 1.0) (← c.add (.float 0.1))
    else Value.greater (.float 0.1) (← c.sub (.float 0.1))
  let confidence ← l.confidence.withItem id c
  Task.update fun l => { l with confidence }

def listLine (role line : String) : Task Learner Unit := do
  if !(← (← Task.self).known.has role) then
    let known ← (← Task.self).known.withItem role (.list [])
    Task.update fun l => { l with known }
  let l ← Task.self
  let lines ← l.known.item role
  if !(← lines.has line) then
    let known ← l.known.withItem role (← lines.pushed (.str line))
    Task.update fun l => { l with known }

def learnFeature (result : Value) (role line : String) : Task Learner Unit := do
  let id := featureId (← Task.self).digest role line
  enrol id
  weigh id
  judge id result
  listLine role line

def isFifth : Value → Bool
  | .bool b => !b
  | .int i => i % 5 == 0
  | .float x => Value.isWhole x && Calendar.nearestInt x % 5 == 0
  | _ => false

def record (features : Table String) (result : Value) : Task Learner Unit := do
  let now ← Job.timestamp
  let l ← Task.self
  let history ← l.history.pushed (.dict [("timestamp", .str now),
    ("patterns_count", .int features.length), ("learning_rate", l.rate),
    ("execution_result", result)])
  Task.update fun l => { l with history }

def isDue (l : Learner) (now : Float) : Except Fault Bool := do
  if isFifth l.samples then return true
  (← Value.sub (.float now) l.lastSave).relate .gt (.int 300)

def saveIfDue : Task Learner Unit := do
  let now ← Job.seconds
  if ← (← Task.self).isDue now then
    save
    Task.update fun l => { l with lastSave := .float now }

def learn (code : String) (result : Value) : Task Learner Value := do
  let features := Learning.features code
  refreshRate
  features.forM fun e => learnFeature result e.1 e.2
  record features result
  let samples ← (← Task.self).samples.next
  Task.update fun l => { l with samples }
  saveIfDue
  let l ← Task.self
  return .dict [("samples_processed", l.samples), ("learning_rate", l.rate),
    ("patterns_learned", .int features.length), ("total_patterns_known", .int (← l.weights.size))]

/-- One line as a suggestion, if it is known well enough. -/
def suggestion? (l : Learner) (role : String) (threshold line : Value) :
    Except Fault (Option Value) := do
  let id := featureId l.digest role (← line.text "encode")
  if ← l.weights.has id then
    if ← (← l.confidence.item id).relate .ge threshold then
      return some (.dict [("pattern", line), ("weight", ← l.weights.itemD id (.float 1.0)),
        ("confidence", ← l.confidence.itemD id (.float 0.5))])
  return none

/-- The known lines of a role with at least the given confidence, the weightiest first. -/
def suggestions (l : Learner) (role : String) (threshold : Value) : Except Fault Value := do
  if !(← l.known.has role) then return .list []
  let lines ← (← l.known.item role).elements
  let found ← lines.mapM (l.suggestion? role threshold)
  let sorted ← Value.sortDescending
    (fun s => do (← s.item "weight").mul (← s.item "confidence")) (found.filterMap id)
  return .list sorted

def stats (l : Learner) : Except Fault Value := do
  let known ← l.weights.size
  let roles ← Table.keys <$> l.known.table "keys"
  let confidences ← Table.values <$> l.confidence.table "values"
  let high ← confidences.filterM fun c => c.relate .gt (.float 0.8)
  return .dict [("samples_processed", l.samples), ("current_learning_rate", l.rate),
    ("patterns_known", .int known), ("knowledge_categories", Value.texts roles),
    ("high_confidence_patterns", .int high.length),
    ("learning_acceleration", ← l.rate.div l.baseRate)]

end Learner

end GzLang.Learning
