import GzLang.Collective.Rules
import GzLang.Collective.Summary

/-!
# Sharing the learnings

The learnings are pushed to a repository: it is cloned, its files are brought up to date, and the
change is committed and pushed. That happens on demand, or when enough time has passed and enough
was learned since the last time.
-/

namespace GzLang.Collective

def cloneDirectory : String :=
  World.home ++ "/.gz/temp/repo_00000000-0000-0000-0000-000000000000"

def authorCommand (directory user : String) : String :=
  "cd " ++ directory ++ " && git config user.name '" ++ user ++ "' && git config user.email '" ++
    user ++ "@users.noreply.github.com'"

/-- Commit; a commit that fails is followed by an empty one. -/
def commit (directory : String) : Task Collective Unit := do
  let count ← (← part "improvement_count").display
  let message := "Auto-update: Added " ++ count ++ " new learnings [AI-generated]"
  (Task.job (Job.command ("cd " ++ directory ++ " && git commit -m \"" ++ message ++ "\""))).orElse
    fun _ => Job.command ("cd " ++ directory ++
      " && git commit --allow-empty -m \"Auto-update: No new learnings [AI-generated]\"")

/-- The secret in the environment, if the configuration names the right variable. -/
def secret? : Task Collective (Option String) := do
  let name ← (← option "github_token_env").text "encode"
  let token := (← Task.job get).shell.token
  if name = "GZ_GITHUB_TOKEN" then return token.filter fun t => !t.isEmpty
  else return none

def pushClone (directory : String) : Task Collective Unit := do
  let target ← match ← secret? with
    | some token => do
      let repository ← (← option "github_repo").text "replace"
      let user ← (← option "github_username").display
      pure (String.ofList (Text.replaceAll "https://".toList
        ("https://" ++ user ++ ":" ++ token ++ "@").toList repository.toList))
    | none => pure "origin"
  let branch ← (← option "github_branch").display
  Job.command ("cd " ++ directory ++ " && git push " ++ target ++ " " ++ branch)

/-- Bring the repository up to date, and say whether that could be done. -/
def publish : Task Collective Bool := do
  let directory := cloneDirectory
  let work : Task Collective Bool := do
    Job.makeDirectories (Disk.parent directory)
    Job.makeDirectories directory
    let repository ← (← option "github_repo").display
    Job.command ("git clone " ++ repository ++ " " ++ directory)
    let _ ← writeMemoryFiles directory
    let _ ← extendScript directory
    let user ← (← option "github_username").display
    Job.command (authorCommand directory user)
    Job.command ("cd " ++ directory ++ " && git add .")
    commit directory
    pushClone directory
    Task.job (modify fun w => { w with disk := w.disk.removeTree directory })
    return true
  work.orElse fun _ => pure false

def recordPush (now : Float) : Task Collective Unit := do
  putPart "improvement_count" (.int 0)
  putPart "last_update" (.float now)
  let c ← Task.self
  putPart "update_history" (← (← part "update_history").pushed (.dict [("timestamp", .float now),
    ("improvements", .int c.counters.improvements), ("success", .bool true)]))
  Task.update fun c => { c with
    counters := { c.counters with pushes := c.counters.pushes + 1, lastPush := .float now } }
  let _ ← save

/-- Push the learnings now, and say whether that could be done. -/
def forceUpdate : Task Collective Bool := do
  if ← publish then
    recordPush (← Job.seconds)
    return true
  else return false

def isDue (now : Float) : Task Collective Bool := do
  let waited ← (Value.float now).sub (← part "last_update")
  if ← waited.relate .ge (← option "update_interval") then
    (← part "improvement_count").relate .ge (← option "improvement_threshold")
  else return false

/-- Push the learnings if it is time, and say whether that was done. -/
def checkForUpdate : Task Collective Bool := do
  if !(← option "auto_update").isTrue then return false
  let now ← Job.seconds
  if ← isDue now then
    if ← publish then
      recordPush now
      return true
  return false

/-- Add a learning and give its identifier, or nothing if it could not be added. -/
def addLearning (kind data : Value) : Task Collective Value := do
  let work : Task Collective Value := do
    let id ← learningId data
    if ← (← learnings).has id then
      seeAgain id
    else
      addNew id kind data
      let _ ← checkForUpdate
    return .str id
  work.orElse fun _ => pure .null

end GzLang.Collective
