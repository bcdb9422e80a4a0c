import GzLang.Assistant.Basic
import GzLang.Text.LowerCase

/-!
# Rules from experience

What a correction or an optimization did suggests rules for the collective memory. A fault on the
way only ends the search for more of them.
-/

namespace GzLang.Assistant

def shareRule (kind : String) (r : Rule) : Task Assistant Unit :=
  mustShare kind [("name", .str r.name), ("pattern", .str r.pattern),
    ("replacement", .str r.replacement), ("explanation", .str r.explanation)]

def definitionPattern : String := "simula\\s+(\\w+)\\s*\\("

def comparisonPattern : String := "kung\\s+(\\w+)\\s*==\\s*tama"

def rangePattern : String := "para\\s+(\\w+)\\s*=\\s*(\\d+)\\s*hanggang\\s*(\\d+)"

def unexpectedToken? (message : String) : Option String :=
  (captures "unexpected token ['\"]([^'\"]+)['\"]" message).head?

def shareFromMessage (message : Value) : Task Assistant Unit := do
  let text := String.ofList (Text.lower (← message.text "lower").toList)
  if Text.occurs "unexpected token".toList text.toList then
    match unexpectedToken? text with
    | some token =>
      shareRule "correction_rule" ⟨"unexpected_" ++ token, "\\" ++ token, "",
        "Remove unexpected token '" ++ token ++ "'"⟩
    | none => pure ()
  else if Text.occurs "indentation".toList text.toList then
    shareRule "correction_rule" ⟨"fix_indentation", "^(\\S+)", "    \\1", "Add proper indentation"⟩

/-- Whether a pattern occurs in code before a change and no more after it. -/
def vanished (pattern : String) (before after : Value) : Except Fault Bool := do
  if shows pattern (← subjectText before) then return !shows pattern (← subjectText after)
  else return false

def learnCorrection (before after message : Value) : Task Assistant Unit := do
  let work : Task Assistant Unit := do
    shareFromMessage message
    if !before.equal after then
      if ← before.has ";" then
        if !(← after.has ";") then
          shareRule "correction_rule" ⟨"remove_semicolons", ";", "", "Remove semicolons"⟩
      if ← vanished definitionPattern before after then
        shareRule "correction_rule" ⟨"function_def_no_parentheses", definitionPattern,
          "simula \\1 ", "Remove parentheses in function definitions"⟩
  work.orElse fun _ => pure ()

/-- The assignments that change a variable by an operation: variable, operation and operand. -/
def updates (code : String) : List (String × String × String) :=
  match Pattern.parse "(\\w+)\\s*=\\s*\\1\\s*([+\\-*/])\\s*(\\w+)" with
  | .ok p => (p.findAll code.toList).map fun m =>
    (String.ofList (m.group 1), String.ofList (m.group 2), String.ofList (m.group 3))
  | .error _ => []

def learnOptimization (before after : Value) : Task Assistant Unit := do
  let work : Task Assistant Unit := do
    (updates (← subjectText before)).forM fun (name, op, operand) =>
      shareRule "optimization_rule" ⟨"compound_" ++ op,
        "(" ++ name ++ ")\\s*=\\s*\\1\\s*\\" ++ op ++ "\\s*(" ++ operand ++ ")",
        "\\1 " ++ op ++ "= \\2", "Use compound assignment for " ++ op ++ " operation"⟩
    if !before.equal after then
      if ← vanished comparisonPattern before after then
        shareRule "optimization_rule" ⟨"simplify_boolean_comparison", comparisonPattern,
          "kung \\1", "Simplify boolean comparison with 'tama'"⟩
      if ← vanished rangePattern before after then
        shareRule "optimization_rule" ⟨"simplify_loop", rangePattern, "para \\1 \\2 \\3",
          "Simplify loop syntax"⟩
  work.orElse fun _ => pure ()

end GzLang.Assistant
