import GzLang.Calendar
import GzLang.Disk

/-!
# The surroundings of a program

The disk, the clock, what was printed and logged, and the shell commands that were issued. Every
operation of the toolchain is an action on these surroundings, or on its own state beside them.
-/

namespace GzLang

structure Shell where
  /-- Commands that contain one of these texts fail. -/
  failing : List String := ["git clone"]
  cloned : Table String := []
  token : Option String := none
  issued : List String := []
  clone : String := ""
  pushed : Option (Table String) := none
  deriving Inhabited

def Shell.fails (s : Shell) (command : String) : Bool :=
  s.failing.any fun t => Text.occurs t.toList command.toList

structure World where
  disk : Disk := []
  clock : Float := 1700000000.0
  out : String := ""
  err : String := ""
  log : List String := []
  shell : Shell := {}
  /-- How many naps of the improvement loop are left before it is stopped. -/
  naps : Nat := 1
  deriving Inhabited

abbrev Job := Action World

/-- An action of a component with a state of its own. -/
abbrev Task (σ : Type) := Action (σ × World)

namespace World

def diskPart : Part World Disk := ⟨World.disk, fun d w => { w with disk := d }⟩

def home : String := "home"

end World

namespace Job

def seconds : Job Float := do return (← get).clock

def instant : Job Instant := do return Calendar.ofSeconds (← get).clock

def timestamp : Job String := do return Calendar.isoText (← instant)

def advance (dt : Float) : Job Unit := modify fun w => { w with clock := w.clock + dt }

def pathExists (path : String) : Job Bool := do return (← get).disk.has path

def readText (path : String) : Job String := do
  Action.ofExcept ((← get).disk.readText path)

def writeText (path text : String) : Job Unit := do
  let d ← Action.ofExcept ((← get).disk.writeText path text)
  modify fun w => { w with disk := d }

def readRows (path : String) : Job (List (Table Value)) := do
  Action.ofExcept ((← get).disk.readRows path)

def writeRows (path : String) (rs : List (Table Value)) : Job Unit := do
  let d ← Action.ofExcept ((← get).disk.writeRows path rs)
  modify fun w => { w with disk := d }

def makeDirectories (path : String) : Job Unit :=
  Action.on World.diskPart (Disk.makeDirectories path)

/-- Issue a shell command. A clone writes its files; a push records those of the clone. -/
def command (c : String) : Job Unit := do
  modify fun w => { w with shell := { w.shell with issued := w.shell.issued ++ [c] } }
  let shell := (← get).shell
  if shell.fails c then throw (.commandFailed c 1)
  if Text.occurs "git clone".toList c.toList then
    let target := String.ofList ((Text.words c.toList).getLastD [])
    modify fun w => { w with
      disk := shell.cloned.foldl (fun d (k, s) => d.place (Disk.join target k) (.file (.text s))) w.disk
      shell := { w.shell with clone := target } }
  else if Text.occurs "git push".toList c.toList then
    modify fun w => { w with
      shell := { w.shell with pushed := some (w.disk.textsBelow w.shell.clone) } }

def print (s : String) : Job Unit := modify fun w => { w with out := w.out ++ s }

def printLine (s : String) : Job Unit := print (s ++ "\n")

def complain (s : String) : Job Unit := modify fun w => { w with err := w.err ++ s ++ "\n" }

def note (level text : String) : Job Unit :=
  modify fun w => { w with log := w.log ++ [level ++ " " ++ text] }

end Job

namespace Task

variable {σ τ α : Type}

def self : Task σ σ := do return (← get).1

def update (f : σ → σ) : Task σ Unit := modify fun s => (f s.1, s.2)

def job (a : Job α) : Task σ α :=
  Action.on ⟨Prod.snd, fun w s => (s.1, w)⟩ a

instance : MonadLift (Action World) (Action (σ × World)) := ⟨job⟩

/-- Give a component its first state, let it set itself up, and end with it. -/
def start (s : σ) (setUp : Task σ Unit) : Job σ :=
  Action.of fun w =>
    match setUp.perform (s, w) with
    | (.ok _, (s, w)) => (.ok s, w)
    | (.error f, (_, w)) => (.error f, w)

/-- Carry out an action of a component that is then let go. -/
def from_ (s : σ) (a : Task σ α) : Job α :=
  Action.of fun w =>
    let (r, (_, w)) := a.perform (s, w)
    (r, w)

def within (p : Part σ τ) (a : Task τ α) : Task σ α :=
  Action.on ⟨fun s => (p.get s.1, s.2), fun t s => (p.set t.1 s.1, t.2)⟩ a

/-- Carry out an action of a part of the component if it has that part. -/
def ifThere (p : Part σ (Option τ)) (a : Task τ α) : Task σ (Option α) :=
  Action.of fun (s, w) =>
    match p.get s with
    | none => (.ok none, (s, w))
    | some t =>
      let (r, (t, w)) := a.perform (t, w)
      (r.map some, (p.set (some t) s, w))

end Task

end GzLang
