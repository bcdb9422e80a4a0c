import GzLang.Feedback.Extraction
import GzLang.Feedback.Knowledge

/-!
# The feedback loop

A tracker and an analyst together: when an execution ends, what it shows is analyzed. The tracker
keeps no code, so of an ended execution only its errors and its cost are seen.
-/

namespace GzLang.Feedback

structure Loop where
  tracker : Tracker := {}
  analyst : Analyst := {}
  deriving Inhabited

namespace Loop

def trackerPart : Part Loop Tracker := ⟨Loop.tracker, fun t l => { l with tracker := t }⟩

def analystPart : Part Loop Analyst := ⟨Loop.analyst, fun a l => { l with analyst := a }⟩

/-- What stands for the code of an ended execution. -/
def missingCode : Value := .str "// Code not available"

def «open» : Job Loop := do
  let tracker ← Tracker.open "models/execution_history.json"
  let analyst ← Analyst.open "models/feedback_knowledge.json"
  return { tracker, analyst }

def track (code source context : Value) : Task Loop Value :=
  Task.within trackerPart (Tracker.begin_ code source context)

def recordOutput (v : Value) : Task Loop Unit :=
  Task.within trackerPart (Tracker.addOutput v)

def recordError (v : Value) : Task Loop Unit :=
  Task.within trackerPart (Tracker.addError v)

/-- End the current execution, take in what it shows, and give its identifier. -/
def complete (success time usage : Value) : Task Loop Value := do
  let result ← Task.within trackerPart (Tracker.end_ success time usage)
  if !result.isTrue then return .null
  let shown ← shown missingCode result
  Task.within analystPart (Analyst.analyze shown)
  result.item "id"

/-- What the outcomes of a line say about it. -/
def advice (l : Loop) (line role : Value) : Except Fault Value := do
  let confidence ← l.analyst.confidence role line
  let name ← role.display
  let verdict ←
    if ← confidence.relate .lt (.float 0.3) then pure "a low success rate. Consider revising."
    else if ← confidence.relate .gt (.float 0.8) then pure "a high success rate."
    else pure "a moderate success rate."
  return .dict [("confidence", confidence),
    ("suggestion", .str ("This " ++ name ++ " pattern has " ++ verdict)), ("alternative", .null)]

def errorInsights (l : Loop) : Except Fault (List Value) :=
  l.analyst.commonErrors 10

/-- The numbers on executions, their cost, and the three most frequent errors. -/
def summary (l : Loop) : Except Fault Value := do
  return .dict [("executions", ← l.tracker.stats), ("performance", ← l.analyst.performanceStats),
    ("top_errors", .list ((← l.errorInsights).take 3))]

end Loop

end GzLang.Feedback
