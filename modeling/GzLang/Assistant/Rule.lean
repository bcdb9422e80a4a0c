import GzLang.Pattern.Template
import GzLang.Value.Display
import GzLang.Value.Document

/-!
# Rules

A rule replaces what its pattern matches and says why. Rules are tried one after another, each on
what the ones before it made of the code.
-/

namespace GzLang.Assistant

structure Rule where
  name : String
  pattern : String
  replacement : String
  explanation : String

def Rule.entry (r : Rule) : String × Value :=
  (r.name, .dict [("pattern", .str r.pattern), ("replacement", .str r.replacement),
    ("explanation", .str r.explanation)])

def Rule.documents (rs : List Rule) : Value :=
  .dict (rs.map Rule.entry)

/-- The rules that correct code, as long as nothing else was learned. -/
def corrections : List Rule :=
  [⟨"parentheses_in_function_def", "simula\\s+(\\w+)\\s*\\(", "simula \\1 ",
      "In GZ, function declarations don't use parentheses"⟩,
    ⟨"parentheses_in_function_call", "sulat\\s*\\(", "sulat ",
      "In GZ, function calls don't use parentheses"⟩,
    ⟨"function_call_with_parentheses", "(\\w+)\\s*\\(([^)]*)\\)", "\\1 \\2",
      "In GZ, function calls don't use parentheses"⟩,
    ⟨"parentheses_in_conditional", "kung\\s*\\(", "kung ",
      "In GZ, conditionals don't use parentheses"⟩,
    ⟨"c_style_for_loop",
      "para\\s*\\((\\w+)\\s*=\\s*([^;]+);\\s*\\1\\s*<=\\s*([^;]+);\\s*\\1\\+\\+\\)",
      "para \\1 \\2 \\3", "In GZ, for loops use 'para variable start end' syntax"⟩,
    ⟨"semicolons", ";", "", "In GZ, statements don't end with semicolons"⟩,
    ⟨"braces", "[\x7b\x7d]", "", "In GZ, blocks are defined by indentation, not braces"⟩]

/-- The rules that optimize code, as long as nothing else was learned. -/
def optimizations : List Rule :=
  [⟨"compound_assignment", "(\\w+)\\s*=\\s*\\1\\s*\\+\\s*([^;]+)", "\\1 += \\2",
      "Use compound assignment for increment"⟩,
    ⟨"boolean_simplification", "kung\\s+(\\w+)\\s*==\\s*tama", "kung \\1",
      "Simplify boolean comparison"⟩,
    ⟨"loop_range", "para\\s+(\\w+)\\s*=\\s*(\\d+)\\s*hanggang\\s*(\\d+)", "para \\1 \\2 \\3",
      "Use simplified loop syntax"⟩]

/-- The templates of code, as long as nothing else was learned. -/
def templates : Table Value :=
  [("hello_world", .str "\nsimula main\n    sulat \"Hello, World!\"\n    balik 0\n"),
    ("factorial", .str ("\nsimula factorial n\n    kung n <= 1\n        balik 1\n" ++
      "    balik n * factorial(n-1)\n\nsimula main\n    para i 1 5\n" ++
      "        sulat i, \"! =\", factorial(i)\n    balik 0\n")),
    ("average", .str ("\nsimula calculate_average a b c\n    sum = a + b + c\n" ++
      "    average = sum / 3\n    balik average\n\nsimula main\n    num1 = 10\n    num2 = 20\n" ++
      "    num3 = 30\n\n    avg = calculate_average(num1, num2, num3)\n\n" ++
      "    sulat \"The average of\", num1, \",\", num2, \"and\", num3, \"is\", avg\n" ++
      "    balik 0\n"))]

/-- The text of a pattern or of code; a pattern is looked at first. -/
def patternText : Value → Except Fault String
  | .str s => .ok s
  | .list _ => .error (.wrongKind "unhashable type: 'list'")
  | .dict _ => .error (.wrongKind "unhashable type: 'dict'")
  | _ => .error (.wrongKind "first argument must be string or compiled pattern")

def subjectText : Value → Except Fault String
  | .str s => .ok s
  | v => .error (.notText v.kind)

/-- The code that a rule makes of code, if its pattern occurs in it. -/
def applyRule (rule code : Value) : Except Fault (Option Value) := do
  let pattern ← rule.item "pattern"
  let replacement ← rule.item "replacement"
  let p ← Pattern.parse (← patternText pattern)
  let s ← subjectText code
  if p.occursIn s.toList then
    match replacement with
    | .str t =>
      let t ← Template.parse p.groupCount t
      return some (.str (String.ofList (p.replace t.fill s.toList)))
    | v => throw (.wrongKind ("decoding to str: need a bytes-like object, " ++ v.kind.name ++ " found"))
  else return none

/-- What the rules of a table make of code, and those that were applied. -/
def applyRules : Table Value → Value → Except Fault (Value × Table Value)
  | [], code => .ok (code, [])
  | (name, rule) :: rules, code => do
    match ← applyRule rule code with
    | none => applyRules rules code
    | some after =>
      let (code, applied) ← applyRules rules after
      return (code, (name, rule) :: applied)

end GzLang.Assistant
