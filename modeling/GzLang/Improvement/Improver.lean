import GzLang.Improvement.Analyzer
import GzLang.Value.Document

/-!
# Improving a script

An improver looks at what was found about a script and keeps a copy of it. None of the findings has
a transformation yet, so the script is left as it is; when a finding is not well formed, the script
is written back from its copy.
-/

namespace GzLang.Improvement

structure Improver where
  backups : String := "models/backups"
  deriving Inhabited

namespace Improver

def start (backups : String) : Job Improver := do
  Job.makeDirectories backups
  return ⟨backups⟩

/-- Copy a file to the directory of copies, and give the path of the copy. -/
def copy (i : Improver) (path : String) : Job String := do
  let text ← Job.readText path
  let stamp := Calendar.stampText (← Job.instant)
  let target := Disk.join i.backups (Disk.baseName path ++ "." ++ stamp ++ ".bak")
  Job.writeText target text
  return target

def backUp (i : Improver) (path : String) : Job (Option String) :=
  (some <$> i.copy path).orElse fun _ => pure none

def lineOf (finding : Value) : Except Fault Int := do
  let location ← (← finding.item "location").text "split"
  match (Text.words location.toList)[1]? with
  | none => throw .noElement
  | some w =>
    match Text.readInt w with
    | .ok n => return n
    | .error _ => throw (.notAnInteger (String.ofList w))

def hasBranch (script : List Script.Stmt) : Bool :=
  (Script.nodes script).any fun n =>
    match n.stmt with
    | .branch .. => true
    | _ => false

/-- Look at a finding. The line of a condition is only read if the script has one. -/
def consider (script : List Script.Stmt) (finding : Value) : Except Fault Unit := do
  let kind ← finding.item "type"
  if kind.equal (.str "complex_conditional") && hasBranch script then
    let _ ← lineOf finding

def considerAll (path : String) (findings : Value) : Job Unit := do
  let code ← Job.readText path
  match Script.parse? code.toList with
  | none => throw (.raised "invalid syntax")
  | some script => (← findings.elements).forM fun f => consider script f

def restore (path copy : String) : Job Unit := do
  Job.writeText path (← Job.readText copy)

/-- Apply what was found about a file, and say whether it changed. -/
def apply (i : Improver) (path : String) (findings : Value) : Job Bool := do
  if !findings.isTrue then return false
  match ← i.backUp path with
  | none => return false
  | some copy =>
    (considerAll path findings).orElse fun _ => (restore path copy).orElse fun _ => pure ()
    return false

end Improver

end GzLang.Improvement
