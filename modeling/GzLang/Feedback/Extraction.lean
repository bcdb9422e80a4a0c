import GzLang.Text.Digit
import GzLang.Text.LowerCase
import GzLang.Value.Document

/-!
# What an execution shows

From a piece of code and the record of its execution: measures of the code, the lines that have a
role with the role of each, the errors with the line that each of them names, and the cost.
-/

namespace GzLang.Feedback

structure Role where
  name : String
  fits : List Char → Bool

def startsWithWord (word : String) (line : List Char) : Bool :=
  Text.startsWith (word ++ " ").toList line

/-- The roles; a line has the first one that fits. -/
def roles : List Role :=
  [⟨"function_definition", startsWithWord "simula"⟩,
    ⟨"variable_assignment", fun l => Text.occurs " = ".toList l && !startsWithWord "kung" l⟩,
    ⟨"print_statement", startsWithWord "sulat"⟩,
    ⟨"conditional", startsWithWord "kung"⟩,
    ⟨"loop", fun l => startsWithWord "para" l || startsWithWord "habang" l⟩,
    ⟨"return_statement", startsWithWord "balik"⟩]

def isIdle (line : List Char) : Bool :=
  line.isEmpty || Text.startsWith "//".toList line

def roledLines (lines : List (List Char)) : List (String × String) :=
  lines.filterMap fun line =>
    let line := Text.trim line
    if isIdle line then none
    else (roles.find? (·.fits line)).map fun r => (r.name, String.ofList line)

def stripChar (c : Char) (s : List Char) : List Char :=
  Text.dropEndWhile (· = c) (s.dropWhile (· = c))

/-- The line number that an error names: the integer after the first "line". -/
def lineNumber? (error : List Char) : Option Int :=
  if Text.occurs "line".toList (Text.lower error) then
    match Text.splitAll "line".toList error with
    | _ :: part :: _ =>
      match Text.words part with
      | word :: _ => (Text.readInt (stripChar ':' word)).toOption
      | [] => none
    | _ => none
  else none

def lineAt (lines : List (List Char)) (number : Option Int) : Value :=
  match number with
  | some n =>
    if 0 < n && n ≤ lines.length then
      match lines[n.toNat - 1]? with
      | some l => .str (String.ofList (Text.trim l))
      | none => .null
    else .null
  | none => .null

def errorShown (lines : List (List Char)) (error : Value) : Except Fault Value := do
  let number := lineNumber? (← error.text "lower").toList
  return .dict [("error_message", error), ("line_number", (number.map Value.int).getD .null),
    ("code_line", lineAt lines number)]

def errorsShown (lines : List (List Char)) (success result : Value) :
    Except Fault (List (String × Value)) := do
  if success.isTrue then return []
  if !(← result.itemD "errors" .null).isTrue then return []
  let errors ← (← result.item "errors").elements
  return [("error_patterns", .list (← errors.mapM (errorShown lines)))]

def shown (code : Value) (result : Value) : Except Fault Value := do
  if !result.isTrue then return .dict []
  let success ← result.itemD "success" (.bool false)
  let lines := Text.lines (← code.text "split").toList
  let measures : Value := .dict [("length", .int lines.length),
    ("non_empty_lines", .int (lines.filter fun l => !(Text.trim l).isEmpty).length),
    ("success", success)]
  let pairs : Value := .list ((roledLines lines).map fun (r, l) => .tuple [.str r, .str l])
  let errors ← errorsShown lines success result
  let time ← result.itemD "execution_time" (.int 0)
  let usage ← result.itemD "memory_usage" (.int 0)
  return .dict ([("code_metrics", measures), ("syntax_patterns", pairs)] ++ errors ++
    [("performance", .dict [("execution_time", time), ("memory_usage", usage)])])

end GzLang.Feedback
