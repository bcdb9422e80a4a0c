import GzLang.Decimal.Shortest
import GzLang.Fault

/-!
# The text of a value

`display` is what printing a value shows; inside lists and tables texts stand in quotes
(`inner`). An integer with too many digits has no text.
-/

namespace GzLang.Value

def intText (i : Int) : Except Fault String :=
  let s := toString i.natAbs
  if s.length > 4300 then .error .integerTooLong else .ok (toString i)

mutual

def inner : Value → Except Fault String
  | .null => .ok "None"
  | .bool b => .ok (if b then "True" else "False")
  | .int i => intText i
  | .float x => .ok (Decimal.shortestText x)
  | .statistic x => .ok ("np.float64(" ++ Decimal.shortestText x ++ ")")
  | .str s => .ok (quote s)
  | .object name => .ok ("<" ++ name ++ " object>")
  | .list xs => do
    let ts ← innerList xs
    return "[" ++ String.intercalate ", " ts ++ "]"
  | .tuple xs => do
    let ts ← innerList xs
    match ts with
    | [t] => return "(" ++ t ++ ",)"
    | _ => return "(" ++ String.intercalate ", " ts ++ ")"
  | .dict es => do
    let ts ← innerEntries es
    return "\x7b" ++ String.intercalate ", " ts ++ "\x7d"

def innerList : List Value → Except Fault (List String)
  | [] => .ok []
  | x :: xs => do
    let t ← inner x
    let ts ← innerList xs
    return t :: ts

def innerEntries : List (String × Value) → Except Fault (List String)
  | [] => .ok []
  | (k, v) :: es => do
    let t ← inner v
    let ts ← innerEntries es
    return (quote k ++ ": " ++ t) :: ts

end

def display : Value → Except Fault String
  | .str s => .ok s
  | .statistic x => .ok (Decimal.shortestText x)
  | v => inner v

end GzLang.Value
