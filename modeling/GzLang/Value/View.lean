import GzLang.Decimal.Binary64
import GzLang.Value.Basic

/-!
# Reading documents leniently

A view of a value as a text, a list or a table: what is not there, or has another shape, reads as
the empty one.
-/

namespace GzLang

namespace Value

def field? (v : Value) (k : String) : Option Value :=
  match v with
  | .dict es => Table.get? es k
  | _ => none

def field (v : Value) (k : String) : Value :=
  (v.field? k).getD .null

def asText : Value → String
  | .str s => s
  | _ => ""

def asList : Value → List Value
  | .list xs => xs
  | _ => []

def asTable : Value → Table Value
  | .dict es => es
  | _ => []

def asInt : Value → Int
  | .int i => i
  | _ => 0

def asFloat (other : Float) : Value → Float
  | .int i => Decimal.ofInt i
  | .float x => x
  | _ => other

def textD (v : Value) (k other : String) : String :=
  match v.field? k with
  | some (.str s) => s
  | _ => other

end Value

def Table.document (f : α → Value) (t : Table α) : Value :=
  .dict (t.map fun (k, x) => (k, f x))

def Table.ofDocument (f : Value → α) (v : Value) : Table α :=
  v.asTable.map fun (k, x) => (k, f x)

end GzLang
