import GzLang.Json.Read
import GzLang.Json.Write
import GzLang.World

/-!
# JSON documents on the disk

Saving opens the file first, which empties it, and then writes; a document that cannot be written
whole leaves its first part in the file.
-/

namespace GzLang.Json

def load (path : String) : Job Value := do
  parse (← Job.readText path)

/-- The document in a file, if the file is there and its document is well formed. -/
def load? (path : String) : Job (Option Value) :=
  (some <$> load path).orElse fun f => if f.isNoDocument then pure none else throw f

def save (l : Layout) (path : String) (v : Value) : Job Unit := do
  Job.writeText path ""
  let (r, s) := dump l v
  Job.writeText path s
  Action.ofExcept r

end GzLang.Json
