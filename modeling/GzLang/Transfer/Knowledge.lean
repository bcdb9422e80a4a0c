import GzLang.Json.File
import GzLang.Transfer.Concept
import GzLang.Transfer.Embedding

/-!
# Knowledge from code

A knowledge base keeps snippets of code by their hashes, examples of concepts and of kinds of
algorithms, and transformations from one snippet to another. It is saved after every change and
read back when it is opened; the vectors of the snippets are not saved.
-/

namespace GzLang.Transfer

/-- A knowledge base. The document has whatever shape its file had. -/
structure Knowledge where
  path : String := "models/transfer_knowledge.json"
  space : Space := {}
  base : Value := .dict [("code_snippets", .dict []), ("concepts", .dict []),
    ("algorithms", .dict []), ("patterns", .dict []), ("transformations", .list [])]
  deriving Inhabited

def countsValue (counts : Table Nat) : Value :=
  .dict (counts.map fun (k, n) => (k, .int n))

def valueUnder (v k : Value) : Except Fault Value :=
  match k with
  | .str k => v.item k
  | .int i => v.element i.toNat
  | _ => .error (.wrongKind ("unhashable type: '" ++ k.kind.name ++ "'"))

/-- The code of a snippet, or nothing if there is none under the hash. -/
def snippetCode (snippets hash : Value) : Except Fault Value := do
  if ← snippets.holds hash then (← valueUnder snippets hash).item "code" else return .null

def codeText (code : Value) : Except Fault String :=
  code.text "encode"

namespace Knowledge

def load : Task Knowledge Unit := do
  let path := (← Task.self).path
  let read : Task Knowledge Unit := do
    if ← Job.pathExists path then
      let base ← Json.load path
      Task.update fun k => { k with base }
  read.orElse fun _ => pure ()

def save : Task Knowledge Unit := do
  let k ← Task.self
  let write : Job Unit := do
    Job.makeDirectories (Disk.parent k.path)
    Json.save .indented k.path k.base
  write.orElse fun _ => pure ()

def «open» (path : String) (digest : String → String := Md5.hex) : Job Knowledge :=
  Task.start { path, space := { digest } } load

def part (name : String) : Task Knowledge Value := do
  (← Task.self).base.item name

def change (name : String) (f : Value → Except Fault Value) : Task Knowledge Unit := do
  let base ← (← Task.self).base.changeItem name f
  Task.update fun k => { k with base }

def vector (code : String) : Task Knowledge (List Float) := do
  let (x, space) := (← Task.self).space.code code
  Task.update fun k => { k with space }
  return x

def hash (code : String) : Task Knowledge String := do
  return (← Task.self).space.digest code

/-- Add a snippet to the examples of an entry, which is made if it is missing, and to its count. -/
def addExample (partName entry hash countName : String) (count : Nat) : Task Knowledge Unit := do
  if !(← (← part partName).has entry) then
    change partName fun p =>
      p.withItem entry (.dict [("examples", .list []), (countName, .int 0)])
  let examples ← (← (← part partName).item entry).item "examples"
  if (← examples.size) < 5 then
    change partName fun p => p.changeItem entry fun e =>
      e.changeItem "examples" fun xs => xs.pushed (.str hash)
  change partName fun p => p.changeItem entry fun e =>
    e.changeItem countName fun n => n.add (.int count)

def learn (code metadata : Value) : Task Knowledge Value := do
  let text ← codeText code
  let hash ← hash text
  let found := conceptsOf text
  let algorithm := algorithmOf text
  let now ← Job.timestamp
  change "code_snippets" fun s => s.withItem hash (.dict [("code", .str text),
    ("concepts", countsValue found), ("algorithm_type", .str algorithm),
    ("metadata", if metadata.isTrue then metadata else .dict []), ("timestamp", .str now)])
  found.forM fun (concept, count) => addExample "concepts" concept hash "total_occurrences" count
  if algorithm ≠ unknownAlgorithm then addExample "algorithms" algorithm hash "count" 1
  let _ ← vector text
  save
  return .dict [("code_hash", .str hash), ("concepts", countsValue found),
    ("algorithm_type", .str algorithm)]

def learnIfNew (code : String) : Task Knowledge Unit := do
  if !(← (← part "code_snippets").has (← hash code)) then
    let _ ← learn (.str code) .null

def learnTransformation (source target : Value) (kind metadata : Value) : Task Knowledge Value := do
  let source ← codeText source
  let target ← codeText target
  let now ← Job.timestamp
  let transformation : Value := .dict [("source_hash", .str (← hash source)),
    ("target_hash", .str (← hash target)), ("transformation_type", kind),
    ("metadata", if metadata.isTrue then metadata else .dict []), ("timestamp", .str now)]
  change "transformations" fun ts => ts.pushed transformation
  learnIfNew source
  learnIfNew target
  save
  return transformation

/-- The snippet under a hash, if there is one, with its similarity to something. -/
def similarSnippet? (hash : String) (similarity : Value) : Task Knowledge (Option Value) := do
  if ← (← part "code_snippets").has hash then
    let snippet ← (← part "code_snippets").item hash
    return some (Value.dict [("code_hash", .str hash), ("similarity", similarity),
      ("code", ← snippet.item "code"), ("concepts", ← snippet.item "concepts"),
      ("algorithm_type", ← snippet.item "algorithm_type")])
  else return none

def similarCode (code threshold : Value) (limit : Int) : Task Knowledge (List Value) := do
  let (near, space) := (← Task.self).space.similarCode (← codeText code) threshold limit
  Task.update fun k => { k with space }
  let results ← (← near).mapM fun e => similarSnippet? e.1 e.2
  return results.filterMap id

/-- A transformation whose source is similar to a vector. -/
def applicable? (x : List Float) (threshold t : Value) : Task Knowledge (Option Value) := do
  let hash ← t.item "source_hash"
  if !(← (← part "code_snippets").holds hash) then return none
  let source ← (← valueUnder (← part "code_snippets") hash).item "code"
  let y ← vector (← codeText source)
  let d ← similarity x y
  if ← d.relate .ge threshold then
    let target ← snippetCode (← part "code_snippets") (← t.item "target_hash")
    return some (.dict [("transformation_type", ← t.item "transformation_type"),
      ("similarity", d), ("source_code", source), ("target_code", target),
      ("metadata", ← t.item "metadata")])
  else return none

/-- The transformations whose sources are similar to a piece of code, the most similar first. -/
def applicable (code threshold : Value) (limit : Int) : Task Knowledge (List Value) := do
  let x ← vector (← codeText code)
  let found ← (← (← part "transformations").elements).mapM (applicable? x threshold)
  let sorted ← Value.sortDescending (fun t => t.item "similarity") (found.filterMap id)
  return Value.upTo limit sorted

def similarSuggestion (s : Value) : Except Fault Value := do
  let n ← (← s.item "concepts").size
  return .dict [("type", .str "similar_code"), ("confidence", ← s.item "similarity"),
    ("description", .str ("Found similar code with " ++ toString n ++ " concepts")),
    ("example", ← s.item "code")]

def transformationSuggestion (t : Value) : Except Fault Value := do
  let kind ← (← t.item "transformation_type").display
  return .dict [("type", .str "transformation"), ("confidence", ← t.item "similarity"),
    ("description", .str ("Suggested transformation: " ++ kind)),
    ("source", ← t.item "source_code"), ("target", ← t.item "target_code")]

def conceptSuggestion? (concept : String) (count : Nat) : Task Knowledge (Option Value) := do
  if !(← (← part "concepts").has concept) then return none
  let examples ← (← (← part "concepts").item concept).item "examples"
  if !examples.isTrue then return none
  let code ← snippetCode (← part "code_snippets") (← examples.element 0)
  return some (.dict [("type", .str "concept"), ("confidence", .float 0.8),
    ("description", .str ("Concept '" ++ concept ++ "' identified (" ++ toString count ++
      " occurrences)")), ("example", code)])

/-- Suggestions for a piece of code: similar snippets, transformations, examples of concepts. -/
def suggestions (code : Value) : Task Knowledge Value := do
  let text ← match code with
    | .str s => pure s
    | v => throw (.notText v.kind)
  let similar ← similarCode code (.float 0.6) 3
  let transformations ← applicable code (.float 0.6) 3
  let fromSimilar ← similar.mapM (similarSuggestion ·)
  let fromTransformations ← transformations.mapM (transformationSuggestion ·)
  let fromConcepts ← (conceptsOf text).mapM fun e => conceptSuggestion? e.1 e.2
  return .list (fromSimilar ++ fromTransformations ++ fromConcepts.filterMap id)

/-- A snippet of a context with its similarity to a piece of code, if it is similar enough. -/
def contextMatch? (code : String) (context snippet : Value) : Task Knowledge (Option Value) := do
  let tags ← (← snippet.itemD "metadata" (.dict [])).itemD "context" (.str "")
  if !(← tags.holds context) then return none
  let x ← vector code
  let other ← snippet.item "code"
  let y ← vector (← codeText other)
  let d ← similarity x y
  if ← d.relate .ge (.float 0.5) then
    return some (.dict [("code", other), ("similarity", d), ("concepts", ← snippet.item "concepts")])
  else return none

/-- The snippet of a context that is most similar to a piece of code; the code itself if none is
similar enough. -/
def transfer (code context : Value) : Task Knowledge Value := do
  let text ← match code with
    | .str s => pure s
    | v => throw (.notText v.kind)
  let sourceConcepts := countsValue (conceptsOf text)
  let snippets ← (← part "code_snippets").table "items"
  let found ← snippets.mapM fun (_, s) => contextMatch? text context s
  let sorted ← Value.sortDescending (fun s => s.item "similarity") (found.filterMap id)
  match sorted with
  | best :: _ =>
    return .dict [("adapted_code", ← best.item "code"), ("similarity", ← best.item "similarity"),
      ("source_concepts", sourceConcepts), ("target_concepts", ← best.item "concepts")]
  | [] =>
    return .dict [("adapted_code", code), ("similarity", .int 0),
      ("source_concepts", sourceConcepts), ("target_concepts", .dict [])]

/-- The five entries of a part with the greatest counts. -/
def top (entries : Value) (countName : String) : Except Fault Value := do
  let counted ← (← entries.table "items").mapM fun (name, e) =>
    return (name, ← e.item countName)
  let sorted ← Value.sortDescending (fun e => .ok e.2) counted
  return .list ((sorted.take 5).map fun (name, n) => .tuple [.str name, n])

def stats (k : Knowledge) : Except Fault Value := do
  return .dict [("code_snippets", .int (← (← k.base.item "code_snippets").size)),
    ("concepts", .int (← (← k.base.item "concepts").size)),
    ("algorithms", .int (← (← k.base.item "algorithms").size)),
    ("transformations", .int (← (← k.base.item "transformations").size)),
    ("top_concepts", ← top (← k.base.item "concepts") "total_occurrences"),
    ("top_algorithms", ← top (← k.base.item "algorithms") "count")]

end Knowledge

end GzLang.Transfer
