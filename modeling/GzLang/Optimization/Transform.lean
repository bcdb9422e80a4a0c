import GzLang.Pattern.Template
import GzLang.Text.Segment
import GzLang.Text.Split
import GzLang.Value.Arithmetic
import GzLang.Value.Display

/-!
# Transformations of code

Two transformations that look at the text of a program. `removeUnused` drops lines that declare a name
which no line mentions. `foldConstants` replaces an operation on two integer literals by its result,
if both literals are well formed and the result can be written.
-/

namespace GzLang.Optimization

/-! ### Unused declarations -/

def declared? (line : List Char) : Option String :=
  if Text.startsWith "kung".toList (Text.trim line) then none
  else (Text.cutFirst ['='] line).map fun (left, _) => String.ofList (Text.trim left)

def isPassive (line : List Char) : Bool :=
  (Text.trim line).isEmpty || Text.startsWith "//".toList (Text.trim line)

def wordsOf (line : List Char) : List String :=
  (Text.findAll (Text.many1? Text.isWord) line).map String.ofList

/-- What the lines so far declare, each name with its last line, and the names that they mention. -/
structure Usage where
  declared : Table Nat := []
  mentioned : List String := []

def Usage.add (u : Usage) (line : List Char × Nat) : Usage :=
  if isPassive line.1 then u
  else
    let declared :=
      match declared? line.1 with
      | some name => Table.put u.declared name line.2
      | none => u.declared
    ⟨declared, u.mentioned ++ (wordsOf line.1).filter (Table.has declared)⟩

/-- Whether a line is the last declaration of a name that no line mentions. -/
def Usage.drops (u : Usage) (line : List Char × Nat) : Bool :=
  match declared? line.1 with
  | some name => Table.get? u.declared name == some line.2 && !u.mentioned.contains name
  | none => false

def removeUnused (code : List Char) : List Char :=
  let lines := (Text.lines code).zipIdx
  let usage := lines.foldl Usage.add {}
  List.intercalate ['\n'] ((lines.filter fun l => !usage.drops l).map Prod.fst)

/-! ### Constant operations -/

/-- An operation on two literals, as it is written. -/
structure Operation where
  left : List Char
  leftGap : List Char
  op : Char
  rightGap : List Char
  right : List Char

def Operation.text (o : Operation) : List Char :=
  o.left ++ o.leftGap ++ o.op :: (o.rightGap ++ o.right)

def isSign (c : Char) : Bool :=
  c = '+' || c = '-' || c = '*' || c = '/'

def operation? (s : List Char) : Option (Operation × List Char) := do
  let (left, s) ← Text.many1? Text.isDecimal s
  let leftGap := s.takeWhile Text.isBlank
  match s.dropWhile Text.isBlank with
  | [] => none
  | op :: s =>
    if isSign op then
      let rightGap := s.takeWhile Text.isBlank
      let (right, s) ← Text.many1? Text.isDecimal (s.dropWhile Text.isBlank)
      return (⟨left, leftGap, op, rightGap, right⟩, s)
    else none

/-- The number of a literal: ASCII digits, and no zero before others. -/
def literal? (s : List Char) : Option Nat :=
  if s.all Char.isDigit && (s.head? ≠ some '0' || s.all (· = '0')) &&
      s.length ≤ Text.maxLiteralDigits then
    some (Text.ofDigits (s.map fun c => c.toNat - 48))
  else none

def isGap (s : List Char) : Bool :=
  s.all fun c => c = ' ' || c = '\t' || c = '\x0c'

def operate (op : Char) (m n : Nat) : Except Fault Value :=
  if op = '+' then Value.add (.int m) (.int n)
  else if op = '-' then Value.sub (.int m) (.int n)
  else if op = '*' then Value.mul (.int m) (.int n)
  else Value.div (.int m) (.int n)

def Operation.result? (o : Operation) : Option (List Char) := do
  let m ← literal? o.left
  let n ← literal? o.right
  if isGap o.leftGap && isGap o.rightGap then
    let t ← (operate o.op m n >>= Value.display).toOption
    return t.toList
  else none

def foldConstants (code : List Char) : List Char :=
  Text.replaceFound operation? (fun o => o.result?.getD o.text) code

end GzLang.Optimization
