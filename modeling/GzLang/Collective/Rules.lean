import GzLang.Collective.Basic
import GzLang.Pattern.Template

/-!
# Rules in a script

A script may hold tables of correction rules, optimization rules and code templates. Learnings that
are confident enough are added to these tables: the entries that the table had, and then the new
ones. The new table is a replacement text, so a backslash in it has a meaning.
-/

namespace GzLang.Collective

def rulesFile : String := "gz_ai_integration.py"

structure RuleTable where
  name : String
  kind : String
  least : Float
  /-- The entry of a learning, unless the table has it already. -/
  entry : (known : List Char) → (data : Value) → Except Fault String

/-- The assignment of a table, up to its first closing brace. -/
def RuleTable.pattern (t : RuleTable) : String :=
  "self\\.memory\\[\"" ++ t.name ++ "\"\\]\\s*=\\s*\x7b([^\x7d]*)\x7d"

def mentions (known : List Char) (name : String) : Bool :=
  Text.occurs ("\"" ++ name ++ "\"").toList known

def unnamedRule : String := "rule_1000"

def ruleEntry (what : String) (known : List Char) (data : Value) : Except Fault String := do
  if !(← data.has "pattern") then return ""
  if !(← data.has "replacement") then return ""
  let name ← (← data.itemD "name" (.str unnamedRule)).display
  if mentions known name then return ""
  let pattern ← (← data.item "pattern").display
  let replacement ← (← data.item "replacement").display
  let explanation ←
    if ← data.has "explanation" then (← data.item "explanation").display
    else pure ("Auto-generated " ++ what ++ " rule")
  return ",\n            \"" ++ name ++ "\": \x7b\n" ++
    "                \"pattern\": r\"" ++ pattern ++ "\",\n" ++
    "                \"replacement\": r\"" ++ replacement ++ "\",\n" ++
    "                \"explanation\": \"" ++ explanation ++ "\"\n            \x7d"

def templateEntry (known : List Char) (data : Value) : Except Fault String := do
  if !(← data.has "name") then return ""
  if !(← data.has "code") then return ""
  let name ← (← data.item "name").display
  if mentions known name then return ""
  let code ← (← data.item "code").text "replace"
  let quoted := Text.replaceAll "\"\"\"".toList "\\\"\\\"\\\"".toList code.toList
  return ",\n            \"" ++ name ++ "\": \"\"\"\n" ++ String.ofList quoted ++ "\n\"\"\""

def ruleTables : List RuleTable :=
  [⟨"correction_rules", "correction_rule", 0.6, ruleEntry "correction"⟩,
    ⟨"optimization_rules", "optimization_rule", 0.6, ruleEntry "optimization"⟩,
    ⟨"code_templates", "code_template", 0.7, templateEntry⟩]

def RuleTable.select (t : RuleTable) (learnings : Value) : Except Fault (List Value) := do
  ((← learnings.table "items").map (·.2)).filterM fun l => do
    if (← l.item "type").equal (.str t.kind) then
      (← l.item "confidence").relate .gt (.float t.least)
    else return false

/-- A script with learnings added to a table; nothing if the script has no such table. -/
def RuleTable.extend (t : RuleTable) (learnings : List Value) (script : String) :
    Except Fault (Option String) := do
  let p ← Pattern.parse t.pattern
  match p.search? script.toList with
  | none => return none
  | some m =>
    let known := m.group 1
    let entries ← learnings.mapM fun l => do t.entry known (← l.item "data")
    let table := "        self.memory[\"" ++ t.name ++ "\"] = \x7b\n" ++ String.ofList known ++
      String.join entries ++ "\n        \x7d"
    let replacement ← Template.parse p.groupCount table
    return some (String.ofList (p.replace replacement.fill script.toList))

/-- Add the learnings to a table of the script in a directory, if it is there. -/
def extendTable (directory : String) (t : RuleTable) : Task Collective Unit := do
  let found ← t.select (← learnings)
  if found.isEmpty then return ()
  let path := Disk.join directory rulesFile
  if !(← Job.pathExists path) then return ()
  match ← t.extend found (← Job.readText path) with
  | none => return ()
  | some script => Job.writeText path script

/-- Add the learnings to the script of a repository, and say whether that could be done. -/
def extendScript (repository : String) : Task Collective Bool := do
  let work : Task Collective Bool := do
    let directory := Disk.join (Disk.join repository "src") "ai"
    Job.makeDirectories directory
    ruleTables.forM (extendTable directory)
    return true
  work.orElse fun _ => pure false

end GzLang.Collective
