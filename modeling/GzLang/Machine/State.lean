import GzLang.Action
import GzLang.Source.Line

/-!
# The state of a running program

A machine holds the variables, the functions, the number of the current line, and what was
printed. A run changes the machine and ends with a value or a fault; what it changed before a
fault stays changed.
-/

namespace GzLang

structure Function where
  params : List String
  body : List Line
  deriving DecidableEq, Repr, Inhabited

structure Machine where
  bindings : Table Value := []
  functions : Table Function := []
  line : Nat := 0
  out : String := ""
  err : String := ""
  deriving Inhabited

abbrev Run := Action Machine

namespace Machine

def lookup (name : String) : Run (Option Value) := do
  return Table.get? (← get).bindings name

def assign (name : String) (v : Value) : Run Unit :=
  modify fun m => { m with bindings := Table.put m.bindings name v }

def atLine (number : Nat) : Run Unit :=
  modify fun m => { m with line := number }

def write (s : String) : Run Unit :=
  modify fun m => { m with out := m.out ++ s }

def report (message : String) : Run Unit :=
  modify fun m =>
    { m with err := m.err ++ ("Error at line " ++ toString m.line ++ ": " ++ message ++ "\n") }

end Machine

end GzLang
