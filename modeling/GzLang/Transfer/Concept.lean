import GzLang.Pattern.Parse
import GzLang.Pattern.Match
import GzLang.Text.LowerCase
import GzLang.Text.Split

/-!
# Concepts in code

A concept is recognised by a pattern, and counted by the places where the pattern fits. The kind of
algorithm that code implements is guessed from the words it mentions.
-/

namespace GzLang.Transfer

structure Concept where
  name : String
  pattern : String

def concepts : List Concept :=
  [⟨"recursion", "simula\\s+(\\w+).*\\n.*\\1\\s*\\("⟩,
    ⟨"iteration", "para\\s+|habang\\s+"⟩,
    ⟨"conditional", "kung\\s+|kundi\\s+"⟩,
    ⟨"function_definition", "simula\\s+\\w+"⟩,
    ⟨"variable_assignment", "\\w+\\s*=\\s*"⟩,
    ⟨"arithmetic", "[+\\-*/]"⟩,
    ⟨"string_manipulation", "\\\".*\\\""⟩,
    ⟨"list_operation", "\\[\\s*\\]|\\[\\s*\\w+\\s*\\]"⟩,
    ⟨"error_handling", "try\\s+|catch\\s+|except\\s+"⟩,
    ⟨"file_io", "open\\s*\\(|read\\s*\\(|write\\s*\\("⟩,
    ⟨"sorting", "sort\\s*\\(|sorted\\s*\\("⟩,
    ⟨"searching", "find\\s*\\(|search\\s*\\(|index\\s*\\("⟩,
    ⟨"matrix_operation", "\\w+\\s*\\[\\s*\\w+\\s*\\]\\s*\\[\\s*\\w+\\s*\\]"⟩]

def Concept.count (c : Concept) (code : String) : Nat :=
  match Pattern.parse c.pattern with
  | .ok p => (p.findAll code.toList).length
  | .error _ => 0

/-- The concepts that occur in a piece of code, each with how often it does. -/
def conceptsOf (code : String) : Table Nat :=
  concepts.filterMap fun c =>
    let n := c.count code
    if n = 0 then none else some (c.name, n)

def algorithmWords : List (String × List String) :=
  [("sorting", ["sort", "bubble", "quick", "merge", "insertion"]),
    ("searching", ["search", "find", "binary search", "linear search"]),
    ("graph", ["graph", "node", "edge", "vertex", "adjacency"]),
    ("dynamic_programming", ["dynamic", "memoization", "memo", "fibonacci"]),
    ("recursion", ["recursion", "recursive"]),
    ("mathematical", ["math", "factorial", "prime", "number"]),
    ("string_processing", ["string", "substring", "concatenate"]),
    ("data_structure", ["list", "array", "stack", "queue", "tree", "hash"])]

def score (words : List String) (text : List Char) : Nat :=
  (words.filter fun w => Text.occurs w.toList text).length

def unknownAlgorithm : String := "unknown"

/-- The kind of algorithm with most words in a piece of code, the first of several. -/
def algorithmOf (code : String) : String :=
  let text := Text.lower code.toList
  (algorithmWords.foldl (fun (best : String × Nat) (name, words) =>
    let n := score words text
    if n > best.2 then (name, n) else best) (unknownAlgorithm, 0)).1

end GzLang.Transfer
