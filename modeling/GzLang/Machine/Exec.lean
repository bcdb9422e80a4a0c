import GzLang.Machine.Eval

/-!
# Running blocks and functions

A block runs line by line and gives the value that a line gave back; nothing stands for a block
that ran to its end, so a line that gives back nothing ends its own block only. A call binds the
parameters that have an argument, runs the body, and then restores the variables. Calls nest to
a depth that is a parameter of `callAt`.
-/

namespace GzLang

/-- Run a block for `count` integers from `i` on, until it gives a value. -/
def repeatBlock (name : String) (body : Run Value) : Nat → Int → Run Value
  | 0, _ => pure .null
  | count + 1, i => do
    Machine.assign name (.int i)
    let v ← body
    if v.isNull then repeatBlock name body count (i + 1) else return v

def execBlock (call : Caller) (block : List Line) : Run Value :=
  match block with
  | [] => pure .null
  | l :: rest => do
    Machine.atLine l.number
    match Statement.parse l.content.toList with
    | .giveBack expr =>
      if expr.isEmpty then return .null else evaluate call expr
    | .print args =>
      printLine (← evalPrintArgs call args)
      execBlock call rest
    | .branch condition =>
      let v ← evaluate call condition
      if v.isTrue then
        let r ← execBlock call (Line.block l.indent rest)
        if r.isNull then execBlock call (Line.afterBlock l.indent rest) else return r
      else execBlock call (Line.afterBlock l.indent rest)
    | .loop name bounds =>
      let (lo, hi) ← Action.ofExcept bounds
      let r ← repeatBlock name (execBlock call (Line.block l.indent rest)) (hi + 1 - lo).toNat lo
      if r.isNull then execBlock call (Line.afterBlock l.indent rest) else return r
    | .assign name expr =>
      let v ← evaluate call expr
      Machine.assign name v
      execBlock call rest
    | .evaluate expr =>
      let _ ← evaluate call expr
      execBlock call rest
    | .skip => execBlock call rest
termination_by block.length
decreasing_by
  all_goals simp only [List.length_cons]
  all_goals
    have h1 := Line.length_block_le l.indent rest
    have h2 := Line.length_afterBlock_le l.indent rest
    omega

/-- Bind parameters to arguments; a parameter without an argument keeps what it had. -/
def bindParams : List String → List Value → Table Value → Table Value
  | p :: ps, v :: vs, t => bindParams ps vs (Table.put t p v)
  | _, _, t => t

/-- Run a function on arguments. The variables are restored when it ends with a value. -/
def invoke (call : Caller) (f : Function) (args : List Value) : Run Value := do
  let saved := (← get).bindings
  modify fun m => { m with bindings := bindParams f.params args m.bindings }
  let v ← execBlock call f.body
  modify fun m => { m with bindings := saved }
  return v

/-- Call a function, with at most `depth` calls inside one another. -/
def callAt (depth : Nat) : Caller := fun name args => do
  match Table.get? (← get).functions name with
  | none => reportUndefined name
  | some f =>
    match depth with
    | 0 => throw .tooDeep
    | depth + 1 => invoke (callAt depth) f args

end GzLang
