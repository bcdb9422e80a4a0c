import GzLang.Text.LowerCase
import GzLang.Text.Split
import GzLang.Table

/-!
# What a sample of code shows

Every line of a sample is of at most one role. The features of a sample are, for each role, the
last line that has it, and the name of a well-known algorithm that the text mentions.
-/

namespace GzLang.Learning

def role? (line : List Char) : Option String :=
  if line.isEmpty || Text.startsWith "//".toList line then none
  else if Text.startsWith "simula ".toList line then some "function_definition"
  else if Text.occurs " = ".toList line && !Text.startsWith "kung ".toList line then
    some "variable_assignment"
  else if Text.startsWith "sulat ".toList line then some "print_statement"
  else if Text.startsWith "kung ".toList line then some "conditional"
  else if Text.startsWith "para ".toList line || Text.startsWith "habang ".toList line then
    some "loop"
  else if Text.startsWith "balik ".toList line then some "return_statement"
  else none

/-- The algorithm that a text mentions; the first of this order counts. -/
def algorithm? (code : List Char) : Option String :=
  let s := Text.lower code
  if Text.occurs "fibonacci".toList s then some "fibonacci"
  else if Text.occurs "factorial".toList s then some "factorial"
  else if Text.occurs "prime".toList s then some "prime_numbers"
  else if Text.occurs "sort".toList s then some "sorting"
  else none

def addLine (features : Table String) (line : List Char) : Table String :=
  let line := Text.trim line
  match role? line with
  | some role => Table.put features role (String.ofList line)
  | none => features

def features (code : String) : Table String :=
  let t := (Text.lines code.toList).foldl addLine []
  match algorithm? code.toList with
  | some name => Table.put t "algorithm" name
  | none => t

end GzLang.Learning
