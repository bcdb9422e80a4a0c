import Mathlib.Logic.Relation
import GzLang.Proofs.Machine

/-!
# Activations, line by line

An activation is one run of the body of a function. Its position says which lines of the innermost
block are still to run, or which value that block ended with, and what is left of the blocks
around it. A step runs one line or leaves one block.

* `Position`, `step`, `Next`, `Reaches`: the steps of an activation;
* `finish_eq_step`: a step keeps what the activation comes to, so that steps compute what
  `execBlock` computes (`Reaches.finish_eq`);
* `leadsTo_execLine`: all a line can lead to.
-/

namespace GzLang.Activation

open Action Relation

variable {c d : Position × Machine} {rest : List Line}

/-- What is left of a block when the block of one of its lines has ended. -/
inductive Frame where
  | after (rest : List Line)
  /-- The rounds of a loop that are left, from the integer `next` on, and the lines behind it. -/
  | loop (name : String) (body : List Line) (count : Nat) (next : Int) (rest : List Line)

/-- What an activation does next. -/
inductive Control where
  | lines (block : List Line)
  | gave (v : Value)

structure Position where
  control : Control
  frames : List Frame

namespace Position

def start (body : List Line) : Position := ⟨.lines body, []⟩

def line? : Position → Option Line
  | ⟨.lines (l :: _), _⟩ => some l
  | _ => none

def ended : Position → Bool
  | ⟨.gave _, []⟩ => true
  | _ => false

end Position

open Position

/-- Go on behind a block that ended with nothing. -/
def proceed (fs : List Frame) : Frame → Run Position
  | .after rest => pure ⟨.lines rest, fs⟩
  | .loop _ _ 0 _ rest => pure ⟨.lines rest, fs⟩
  | .loop name body (count + 1) i rest => do
    Machine.assign name (.int i)
    return ⟨.lines body, .loop name body count (i + 1) rest :: fs⟩

/-- Execute a line, with the lines behind it and the frames around it. A loop starts as if a round
had just ended. -/
def execLine (call : Caller) (l : Line) (rest : List Line) (fs : List Frame) : Run Position := do
  Machine.atLine l.number
  match Statement.parse l.content.toList with
  | .giveBack e =>
    if e.isEmpty then return ⟨.gave .null, fs⟩
    else
      let v ← evaluate call e
      return ⟨.gave v, fs⟩
  | .print args =>
    printLine (← evalPrintArgs call args)
    return ⟨.lines rest, fs⟩
  | .branch c =>
    let v ← evaluate call c
    if v.isTrue then
      return ⟨.lines (Line.block l.indent rest), .after (Line.afterBlock l.indent rest) :: fs⟩
    else return ⟨.lines (Line.afterBlock l.indent rest), fs⟩
  | .loop name bounds =>
    let (lo, hi) ← Action.ofExcept bounds
    return ⟨.gave .null, .loop name (Line.block l.indent rest) (hi + 1 - lo).toNat lo
      (Line.afterBlock l.indent rest) :: fs⟩
  | .assign name e =>
    let v ← evaluate call e
    Machine.assign name v
    return ⟨.lines rest, fs⟩
  | .evaluate e =>
    let _ ← evaluate call e
    return ⟨.lines rest, fs⟩
  | .skip => return ⟨.lines rest, fs⟩

/-- One step. An activation that has ended stays where it is. -/
def step (call : Caller) : Position → Run Position
  | ⟨.lines [], fs⟩ => pure ⟨.gave .null, fs⟩
  | ⟨.lines (l :: rest), fs⟩ => execLine call l rest fs
  | ⟨.gave v, []⟩ => pure ⟨.gave v, []⟩
  | ⟨.gave v, f :: fs⟩ => if v.isNull then proceed fs f else pure ⟨.gave v, fs⟩

/-- A step of an activation that has not ended, from one machine to the next. -/
def Next (call : Caller) (c d : Position × Machine) : Prop :=
  c.1.ended = false ∧ (step call c.1).perform c.2 = (.ok d.1, d.2)

abbrev Reaches (call : Caller) : Position × Machine → Position × Machine → Prop :=
  ReflTransGen (Next call)

/-! ### Steps compute what blocks compute -/

/-- What a frame comes to when the block inside ended with nothing. -/
def resume (call : Caller) : Frame → Run Value
  | .after rest => execBlock call rest
  | .loop name body count i rest => do
    let r ← repeatBlock name (execBlock call body) count i
    if r.isNull then execBlock call rest else return r

/-- What the frames come to when the block inside ended with a value. -/
def unwind (call : Caller) : List Frame → Value → Run Value
  | [], v => pure v
  | f :: fs, v => if v.isNull then resume call f >>= unwind call fs else unwind call fs v

def finish (call : Caller) : Position → Run Value
  | ⟨.lines block, fs⟩ => execBlock call block >>= unwind call fs
  | ⟨.gave v, fs⟩ => unwind call fs v

variable {call : Caller}

theorem unwind_null (f : Frame) (fs : List Frame) :
    unwind call (f :: fs) .null = resume call f >>= unwind call fs := rfl

theorem unwind_cons_of_not_null {v : Value} (hv : v.isNull = false) (f : Frame) (fs : List Frame) :
    unwind call (f :: fs) v = unwind call fs v := by
  simp [unwind, hv]

theorem unwind_of_not_null {v : Value} (hv : v.isNull = false) (fs : List Frame) : unwind call fs v = pure v := by
  induction fs with
  | nil => rfl
  | cons f fs ih => rw [unwind_cons_of_not_null hv, ih]

theorem eq_null_of_isNull {v : Value} (h : v.isNull) : v = .null := by
  cases v with
  | null => rfl
  | _ => cases h

theorem unwind_eq (f : Frame) (fs : List Frame) (r : Value) :
    (if r.isNull then resume call f else pure r) >>= unwind call fs = unwind call (f :: fs) r := by
  cases hr : r.isNull with
  | true => simp [unwind, hr]
  | false => simp [unwind, hr]

theorem resume_eq_proceed (f : Frame) (fs : List Frame) :
    resume call f >>= unwind call fs = proceed fs f >>= finish call := by
  match f with
  | .after rest => rfl
  | .loop name body 0 i rest => rfl
  | .loop name body (count + 1) i rest =>
    simp only [resume, repeatBlock, proceed, finish, bind_assoc, pure_bind]
    congr 1
    funext _
    congr 1
    funext r
    rw [← unwind_eq]
    cases hr : r.isNull with
    | true => simp [resume]
    | false => simp [hr]

/-- **A step keeps what the activation comes to.** -/
theorem finish_eq_step (call : Caller) (p : Position) : finish call p = step call p >>= finish call := by
  match p with
  | ⟨.lines [], fs⟩ => simp [finish, step, execBlock]
  | ⟨.gave v, []⟩ => simp [finish, step]
  | ⟨.gave v, f :: fs⟩ =>
    cases hv : v.isNull with
    | true =>
      rw [eq_null_of_isNull hv]
      exact resume_eq_proceed f fs
    | false => simp [finish, step, unwind, hv]
  | ⟨.lines (l :: rest), fs⟩ =>
    simp only [finish, step, execLine]
    rw [execBlock]
    simp only [bind_assoc]
    congr 1
    funext _
    cases Statement.parse l.content.toList with
    | giveBack e =>
      dsimp only
      split <;> simp [finish]
    | print args => simp [finish]
    | branch c =>
      simp only [bind_assoc]
      congr 1
      funext v
      split
      · simp only [bind_assoc, pure_bind, finish]
        congr 1
        funext r
        exact unwind_eq (.after _) fs r
      · simp [finish]
    | loop name bounds => simp [finish, unwind_null, resume]
    | assign name e => simp [finish]
    | evaluate e => simp [finish]
    | skip => simp [finish]

theorem Next.finish_eq (h : Next call c d) : (finish call c.1).perform c.2 = (finish call d.1).perform d.2 := by
  rw [finish_eq_step, bind_of_ok h.2]

theorem Reaches.finish_eq (h : Reaches call c d) : (finish call c.1).perform c.2 = (finish call d.1).perform d.2 := by
  induction h with
  | refl => rfl
  | tail _ hd ih => rw [ih, hd.finish_eq]

def Position.inside (fs : List Frame) (p : Position) : Position := ⟨p.control, p.frames ++ fs⟩

theorem execLine_inside (l : Line) (rest : List Line) (fs : List Frame) :
    execLine call l rest fs = inside fs <$> execLine call l rest [] := by
  simp only [execLine, map_bind]
  congr 1
  funext _
  cases Statement.parse l.content.toList with
  | giveBack e =>
    dsimp only
    split <;> simp [inside]
  | branch c =>
    simp only [map_bind]
    congr 1
    funext v
    split <;> simp [inside]
  | print args => simp [inside]
  | loop name bounds => simp [inside]
  | assign name e => simp [inside]
  | evaluate e => simp [inside]
  | skip => simp [inside]

theorem perform_step_line {l : Line} {m : Machine} {o : Except Fault Position × Machine}
    (h : (execLine call l rest []).perform m = o) (fs : List Frame) :
    (step call ⟨.lines (l :: rest), fs⟩).perform m = (o.1.map (inside fs), o.2) := by
  subst h
  simp only [step]
  rw [execLine_inside, map_eq_pure_bind, perform_bind]
  rcases (execLine call l rest []).perform m with ⟨e | p, m'⟩ <;> rfl

/-- Where a line can lead: to the lines behind it, to those behind its block, out of the innermost
block, or into its own block. -/
inductive LeadsTo (l : Line) (rest : List Line) : Position → Prop where
  | next : LeadsTo l rest ⟨.lines rest, []⟩
  | past : LeadsTo l rest ⟨.lines (Line.afterBlock l.indent rest), []⟩
  | out (v : Value) : LeadsTo l rest ⟨.gave v, []⟩
  | branch : LeadsTo l rest
      ⟨.lines (Line.block l.indent rest), [.after (Line.afterBlock l.indent rest)]⟩
  | loop (name : String) (count : Nat) (i : Int) : LeadsTo l rest
      ⟨.gave .null, [.loop name (Line.block l.indent rest) count i (Line.afterBlock l.indent rest)]⟩

theorem leadsTo_execLine {l : Line} {m m' : Machine} {p : Position}
    (h : (execLine call l rest []).perform m = (.ok p, m')) : LeadsTo l rest p := by
  obtain ⟨_, m1, -, h⟩ := bind_eq_ok.1 h
  cases hs : Statement.parse l.content.toList <;> simp only [hs] at h
  case giveBack e =>
    split at h
    · cases h
      exact .out _
    · obtain ⟨v, m2, -, h⟩ := bind_eq_ok.1 h
      cases h
      exact .out v
  case print args =>
    obtain ⟨vs, m2, -, h⟩ := bind_eq_ok.1 h
    obtain ⟨_, m3, -, h⟩ := bind_eq_ok.1 h
    cases h
    exact .next
  case branch c =>
    obtain ⟨v, m2, -, h⟩ := bind_eq_ok.1 h
    split at h
    · cases h
      exact .branch
    · cases h
      exact .past
  case loop name bounds =>
    obtain ⟨b, m2, -, h⟩ := bind_eq_ok.1 h
    cases h
    exact .loop name _ _
  case assign name e =>
    obtain ⟨v, m2, -, h⟩ := bind_eq_ok.1 h
    obtain ⟨_, m3, -, h⟩ := bind_eq_ok.1 h
    cases h
    exact .next
  case evaluate e =>
    obtain ⟨v, m2, -, h⟩ := bind_eq_ok.1 h
    cases h
    exact .next
  case skip =>
    cases h
    exact .next

end GzLang.Activation
