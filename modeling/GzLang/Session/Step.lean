import GzLang.Json.File
import GzLang.Session.Subject

/-!
# The steps of a session

A session makes a component and drives it step by step. A fault in a step does not end the session,
and what the step had changed stays changed.
-/

namespace GzLang.Session

inductive Step where
  | call (operation : String) (args : Args)
  | get (path : String)
  | set (path : String) (v : Value)
  | renew (options : Value)
  | advance (seconds : Float)
  | read (path : String)
  | readDocument (path : String)
  | write (path : String) (n : Node)
  | remove (path : String)
  | listFiles

def Subject.step (sub : Subject σ) : Step → Task σ Value
  | .call operation args => sub.invoke operation args
  | .get path => do walk (sub.view (← Task.self)) (pathNames path)
  | .set path v => do
    match pathNames path with
    | [] => return .null
    | k :: ks =>
      let old := (sub.view (← Task.self)).field k
      done (Task.update (sub.assign k (putAt old v ks)))
  | .renew options => do
    let s ← sub.make options
    done (Task.update fun _ => s)
  | .advance seconds => done (Job.advance seconds)
  | .read path => return .str (← Job.readText path)
  | .readDocument path => Json.load path
  | .write path n => done (Task.job (modify fun w => { w with disk := w.disk.place path n }))
  | .remove path => done (Task.job (modify fun w => { w with disk := w.disk.removeTree path }))
  | .listFiles => Task.job do
    return Value.texts ((← get).disk.files.map Prod.fst)

/-- The world as a new step finds it: nothing is printed and no command is issued yet. -/
def fresh (w : World) : World :=
  { w with out := "", err := "", log := [], shell := { w.shell with issued := [], pushed := none } }

/-- Carry out steps, and give the outcome of each with the world after it. -/
def Subject.steps (sub : Subject σ) : List Step → σ × World → List (Except Fault Value × World)
  | [], _ => []
  | step :: rest, (s, w) =>
    let (r, (s, w)) := (sub.step step).perform (s, fresh w)
    (r, w) :: sub.steps rest (s, w)

end GzLang.Session
