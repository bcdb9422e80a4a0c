import GzLang.Table

/-!
# Values

The values that programs compute with and that stores keep: nothing, truth values, unbounded
integers, doubles, texts, lists and tables. A `tuple` is a list of fixed shape and a `statistic`
is a double that a mean or a median gave; both differ from their plain forms only in their text.
An `object` is anything else: it can be held, but it has no written form.
-/

namespace GzLang

inductive Value where
  | null
  | bool (b : Bool)
  | int (i : Int)
  | float (x : Float)
  | str (s : String)
  | list (items : List Value)
  | dict (entries : List (String × Value))
  | tuple (items : List Value)
  | statistic (x : Float)
  | object (name : String)
  deriving Inhabited

inductive Kind where
  | null
  | bool
  | int
  | float
  | str
  | list
  | dict
  | tuple
  | statistic
  | object (name : String)
  deriving DecidableEq, Repr

def Kind.name : Kind → String
  | .null => "NoneType"
  | .bool => "bool"
  | .int => "int"
  | .float => "float"
  | .str => "str"
  | .list => "list"
  | .dict => "dict"
  | .tuple => "tuple"
  | .statistic => "numpy.float64"
  | .object name => name

namespace Value

def kind : Value → Kind
  | .null => .null
  | .bool _ => .bool
  | .int _ => .int
  | .float _ => .float
  | .str _ => .str
  | .list _ => .list
  | .dict _ => .dict
  | .tuple _ => .tuple
  | .statistic _ => .statistic
  | .object name => .object name

/-- Whether a value counts as true: everything but nothing, zero, and what is empty. -/
def isTrue : Value → Bool
  | .null => false
  | .bool b => b
  | .int i => i != 0
  | .float x => x != 0
  | .str s => s != ""
  | .list xs => !xs.isEmpty
  | .dict es => !es.isEmpty
  | .tuple xs => !xs.isEmpty
  | .statistic x => x != 0
  | .object _ => true

def isNull : Value → Bool
  | .null => true
  | _ => false

/-- The integer a value stands for in arithmetic; truth values count as 0 and 1. -/
def toInt? : Value → Option Int
  | .bool b => some (if b then 1 else 0)
  | .int i => some i
  | _ => none

def toFloat? : Value → Option Float
  | .float x => some x
  | .statistic x => some x
  | _ => none

def texts (ss : List String) : Value := .list (ss.map .str)

end Value

end GzLang
