import GzLang.Machine.State
import GzLang.Source.Expr
import GzLang.Source.PrintArg
import GzLang.Source.Statement
import GzLang.Value.Arithmetic
import GzLang.Value.Display

/-!
# Evaluating expressions

Evaluation takes the meaning of calls as a parameter. A node with a text of its own has the value
of the variable of that name, if there is one. A name without a value is reported and gives
nothing.
-/

namespace GzLang

/-- The meaning of calls: what calling a function on arguments does. -/
abbrev Caller := String → List Value → Run Value

def Operator.apply : Operator → Value → Value → Except Fault Value
  | .add, v, w => v.add w
  | .sub, v, w => v.sub w
  | .mul, v, w => v.mul w
  | .div, v, w => v.div w
  | .le, v, w => (Value.relate .le v w).map .bool
  | .ge, v, w => (Value.relate .ge v w).map .bool
  | .eq, v, w => .ok (.bool (v.equal w))
  | .ne, v, w => .ok (.bool (!v.equal w))
  | .lt, v, w => (Value.relate .lt v w).map .bool
  | .gt, v, w => (Value.relate .gt v w).map .bool

/-- The value of the variable of the given name, or else of a computation. -/
def orVariable (source : String) (other : Run Value) : Run Value := do
  match ← Machine.lookup source with
  | some v => return v
  | none => other

def reportUndefined (name : String) : Run Value := do
  Machine.report ("Function '" ++ name ++ "' not defined")
  return .null

/-- Call a function if it is known, else report. -/
def callKnown (call : Caller) (name : String) (args : List Value) : Run Value := do
  if Table.has (← get).functions name then call name args else reportUndefined name

namespace Expr

mutual

def eval (call : Caller) : Expr → Run Value
  | .text s => pure (.str s)
  | .digits s => do
    let i ← Action.ofExcept (Statement.integer s)
    return .int i
  | .constant v => pure v
  | .call source name args =>
    orVariable source do
      let vs ← evalAll call args
      callKnown call name vs
  | .binary source op l r =>
    orVariable source do
      let v ← eval call l
      let w ← eval call r
      Action.ofExcept (op.apply v w)
  | .other source =>
    orVariable source do
      Machine.report ("Cannot evaluate expression: " ++ source)
      return .null

def evalAll (call : Caller) : List Expr → Run (List Value)
  | [] => pure []
  | e :: es => do
    let v ← eval call e
    let vs ← evalAll call es
    return v :: vs

end

end Expr

def evaluate (call : Caller) (s : List Char) : Run Value :=
  (Expr.parse s).eval call

def PrintArg.eval (call : Caller) : PrintArg → Run Value
  | .text s => pure (.str s)
  | .expr s => evaluate call s

def evalPrintArgs (call : Caller) (s : List Char) : Run (List Value) :=
  (PrintArg.ofText s).mapM (PrintArg.eval call)

/-- Print values with spaces between them. A value without a text stops the printing there. -/
def printValues : List Value → Run Unit
  | [] => pure ()
  | [v] => do Machine.write (← Action.ofExcept v.display)
  | v :: vs => do
    Machine.write (← Action.ofExcept v.display)
    Machine.write " "
    printValues vs

def printLine (vs : List Value) : Run Unit := do
  printValues vs
  Machine.write "\n"

end GzLang
