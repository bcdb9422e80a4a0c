import GzLang.Json.File
import GzLang.Text.LowerCase
import GzLang.Value.Document

/-!
# The memory

A store keeps items by category and key: a value with a confidence, how often it was used, and
notes about it. Storing a known key never lowers its confidence, and removing one only marks it with
the least confidence. The items live in memory and are saved, by `sync` or when a minute has passed
since the last time, to one file for each category or to one database. A database keeps less: the
times of an item are not read back.
-/

namespace GzLang.Memory

inductive Backend where
  | files
  | database
  deriving DecidableEq, Repr, Inhabited

structure Store where
  directory : String
  backend : Backend
  /-- For each category the document with its items by key. -/
  cache : Table Value := []
  lastSync : Float
  /-- Rows written to the database and not yet made permanent. -/
  pending : Option (List (Table Value)) := none
  closed : Bool := false
  deriving Inhabited

def categories : List String :=
  ["syntax_patterns", "optimization_rules", "correction_rules", "code_templates",
    "algorithm_patterns", "error_patterns", "user_preferences"]

def syncInterval : Float := 60

def removedConfidence : Value := .float 0.01

def highConfidence : Value := .float 0.8

def checkCategory (category : String) : Except Fault Unit :=
  if category ∈ categories then .ok () else .error (.unknownCategory category)

/-! ### Items -/

def newItem (now : String) (value confidence metadata : Value) : Value :=
  .dict [("value", value), ("confidence", confidence), ("usage_count", .int 1),
    ("created", .str now), ("last_used", .str now),
    ("metadata", if metadata.isTrue then metadata else .dict [])]

def mergeNotes (notes more : Value) : Except Fault Value :=
  match notes, more with
  | .dict es, .dict fs => .ok (.dict (Table.merge es fs))
  | .dict es, .list [] => .ok (.dict es)
  | .dict _, v => .error (.wrongKind ("'" ++ v.kind.name ++ "' object is not iterable"))
  | v, _ => .error (.noOperation v.kind "update")

def renewItem (now : String) (item value confidence metadata : Value) : Except Fault Value := do
  let confidence ← confidence.greater (← item.itemD "confidence" (.float 0.0))
  let usage ← (← item.itemD "usage_count" (.int 0)).next
  let notes ← item.itemD "metadata" (.dict [])
  let notes ← if metadata.isTrue then mergeNotes notes metadata else pure notes
  return .dict [("value", value), ("confidence", confidence), ("usage_count", usage),
    ("last_used", .str now), ("metadata", notes)]

def found (key : String) (item : Value) : Except Fault Value := do
  return .dict [("key", .str key), ("value", ← item.item "value"),
    ("confidence", ← item.itemD "confidence" (.float 1.0)),
    ("usage_count", ← item.itemD "usage_count" (.int 0)),
    ("last_used", ← item.itemD "last_used" (.str "")),
    ("metadata", ← item.itemD "metadata" (.dict []))]

/-- Whether a text occurs in another, letters of either case alike. -/
def mentions (query text : String) : Bool :=
  Text.occurs (Text.lower query.toList) (Text.lower text.toList)

/-- Whether an item fits a query: its key or its text mentions it. An empty query fits all. -/
def fits (query : Value) (key : String) (item : Value) : Except Fault Bool := do
  if !query.isTrue then return true
  let query ← query.text "lower"
  match ← item.item "value" with
  | .str s => return mentions query key || mentions query s
  | _ => return mentions query key

/-- The items of a document that fit a query, as a search shows them. -/
def matching (query least : Value) (items : Table Value) : Except Fault (List Value) := do
  let hits ← items.mapM fun (key, item) => do
    if ← (← item.itemD "confidence" (.float 0.0)).relate .lt least then return none
    if ← fits query key item then return some (← found key item) else return none
  return hits.filterMap id

def rank (hit : Value) : Except Fault Value := do
  return .tuple [← hit.item "confidence", ← hit.item "usage_count"]

/-- The items that fit a query, the most confident and most used first. -/
def bestMatches (query least limit : Value) (items : Table Value) : Except Fault Value := do
  let hits ← Value.sortDescending rank (← matching query least items)
  if ← limit.relate .gt (.int 0) then
    return .list (hits.take (limit.toInt?.getD 0).toNat)
  else return .list hits

def valuesFrom (least : Value) (items : Table Value) : Except Fault Value := do
  let kept ← items.mapM fun (key, item) => do
    if ← (← item.itemD "confidence" (.float 0.0)).relate .ge least then
      return some (key, ← item.item "value")
    else return none
  return .dict (kept.filterMap id)

def categoryStats (items : Value) : Except Fault Value := do
  let count ← items.size
  let items ← Table.values <$> items.table "values"
  let high ← items.mapM fun i => do (← i.itemD "confidence" (.int 0)).relate .gt highConfidence
  let usage ← Value.total (← items.mapM fun i => i.itemD "usage_count" (.int 0))
  let confidence ← Value.total (← items.mapM fun i => i.itemD "confidence" (.int 0))
  return .dict [("item_count", .int count), ("high_confidence_items", .int (high.count true)),
    ("total_usage", usage), ("avg_confidence", ← confidence.div (.int (max 1 count)))]

/-! ### Rows of the database -/

def integerCell (column : Nat) : Value → Except Fault Value
  | .bool b => .ok (.int (if b then 1 else 0))
  | .int i => if i.natAbs < Nat.pow 2 63 then .ok (.int i) else .error .integerNotStorable
  | .float x =>
    if x != x then .ok .null
    else if Value.isWhole x && x.abs < 9e18 then .ok (.int (Calendar.nearestInt x))
    else .ok (.float x)
  | .null => .ok .null
  | .str s => .ok (.str s)
  | v => .error (.notStorable column v.kind)

def realCell (column : Nat) (v : Value) : Except Fault Value := do
  match ← integerCell column v with
  | .int i => return .float (Decimal.ofInt i)
  | v => return v

def rowOf (category key : String) (item : Value) : Except Fault (Table Value) := do
  let value ← item.item "value"
  let metadata ← item.itemD "metadata" (.dict [])
  let _ ← Json.render .line metadata
  let confidence ← realCell 5 (← item.itemD "confidence" (.float 1.0))
  let usage ← integerCell 6 (← item.itemD "usage_count" (.int 0))
  return [("category", .str category), ("key", .str key), ("value", value),
    ("confidence", confidence), ("usage_count", usage), ("metadata", metadata)]

def rowIn (category : String) (row : Table Value) : Bool :=
  match Table.get? row "category" with
  | some (.str c) => c == category
  | _ => false

def itemOf (row : Table Value) : String × Value :=
  let cell k := (Table.get? row k).getD .null
  (match cell "key" with
    | .str k => k
    | _ => "",
   .dict [("value", cell "value"), ("confidence", cell "confidence"),
    ("usage_count", cell "usage_count"), ("metadata", cell "metadata")])

namespace Store

/-! ### Saving and loading -/

def filePath (s : Store) (category : String) : String :=
  Disk.join s.directory (category ++ ".json")

def databasePath (s : Store) : String :=
  Disk.join s.directory "gz_memory.db"

def rows : Task Store (List (Table Value)) := do
  let s ← Task.self
  if s.closed then throw .databaseClosed
  match s.pending with
  | some rs => return rs
  | none => Job.readRows s.databasePath

def commit (rs : List (Table Value)) : Task Store Unit := do
  Job.writeRows (← Task.self).databasePath rs
  Task.update fun s => { s with pending := none }

def putCategory (category : String) (items : Value) : Task Store Unit :=
  Task.update fun s => { s with cache := Table.put s.cache category items }

def category (category : String) : Task Store Value := do
  match Table.get? (← Task.self).cache category with
  | some v => return v
  | none => throw (.missingKey category)

/-- Load a category. A file that is missing or not well formed is made anew. -/
def loadCategory (category : String) : Task Store Unit := do
  checkCategory category
  let s ← Task.self
  match s.backend with
  | .database =>
    let rs := (← rows).filter (rowIn category)
    putCategory category (.dict (Table.ofList (rs.map itemOf)))
  | .files =>
    match ← Json.load? (s.filePath category) with
    | some v => putCategory category v
    | none =>
      putCategory category (.dict [])
      Json.save .line (s.filePath category) (.dict [])

/-- Write the rows of items, one after the other. -/
def insertRows (category : String) : Table Value → Task Store Unit
  | [] => pure ()
  | (key, item) :: items => do
    let row ← rowOf category key item
    let rs ← rows
    Task.update fun s => { s with pending := some (rs ++ [row]) }
    insertRows category items

/-- Save a category: its file, or its rows of the database, are written anew. -/
def saveCategory (category : String) : Task Store Unit := do
  checkCategory category
  let s ← Task.self
  match s.backend with
  | .database =>
    let kept := (← rows).filter fun r => !rowIn category r
    Task.update fun s => { s with pending := some kept }
    let document ← Store.category category
    let items ← document.table "items"
    insertRows category items
    let usage ← Value.total (← items.mapM fun e => e.2.itemD "usage_count" (.int 0))
    let _ ← integerCell 4 usage
    commit (← rows)
  | .files =>
    -- The file is emptied before the document is looked up.
    Job.writeText (s.filePath category) ""
    Json.save .indented (s.filePath category) (← Store.category category)

def sync : Task Store Unit := do
  categories.forM fun c => do
    if Table.has (← Task.self).cache c then saveCategory c
  let now ← Job.seconds
  Task.update fun s => { s with lastSync := now }

def prepare : Task Store Unit := do
  let s ← Task.self
  match s.backend with
  | .database => commit (← rows)
  | .files =>
    categories.forM fun c => do
      if !(← Job.pathExists (s.filePath c)) then Json.save .line (s.filePath c) (.dict [])

def «open» (directory : String) (backend : Backend) : Job Store := do
  let s : Store := { directory, backend, lastSync := ← Job.seconds }
  Job.makeDirectories directory
  Task.start s do
    prepare
    categories.forM loadCategory

def close : Task Store Unit := do
  sync
  Task.update fun s => { s with closed := s.backend == .database }

/-! ### Items -/

/-- Put a value under a key: as a new item, or over the one that is there. -/
def putItem (category key : String) (value confidence metadata : Value) : Task Store Unit := do
  checkCategory category
  if !Table.has (← Task.self).cache category then putCategory category (.dict [])
  let items ← Store.category category
  let now ← Job.timestamp
  let item ←
    if ← items.has key then renewItem now (← items.item key) value confidence metadata
    else pure (newItem now value confidence metadata)
  putCategory category (← items.withItem key item)

def syncIfDue : Task Store Unit := do
  if (← Job.seconds) - (← Task.self).lastSync > syncInterval then sync

def store (category key : String) (value : Value) (confidence : Value := .float 1.0)
    (metadata : Value := .null) : Task Store Unit := do
  putItem category key value confidence metadata
  syncIfDue

/-- The value under a key; asking for it counts as a use. -/
def retrieve (category key : String) (other : Value := .null) : Task Store Value := do
  checkCategory category
  if !Table.has (← Task.self).cache category then return other
  let items ← Store.category category
  if !(← items.has key) then return other
  let item ← items.item key
  let usage ← (← item.itemD "usage_count" (.int 0)).next
  let item ← item.withItem "usage_count" usage
  let item ← item.withItem "last_used" (.str (← Job.timestamp))
  putCategory category (← items.withItem key item)
  item.item "value"

/-- The items that fit a query, the most confident and most used first. -/
def search (category : String) (query : Value := .null) (least : Value := .float 0.0)
    (limit : Value := .int 10) : Task Store Value := do
  checkCategory category
  if !Table.has (← Task.self).cache category then return .list []
  bestMatches query least limit (← (← Store.category category).table "items")

def getAll (category : String) (least : Value := .float 0.0) : Task Store Value := do
  checkCategory category
  if !Table.has (← Task.self).cache category then return .dict []
  valuesFrom least (← (← Store.category category).table "items")

/-- Mark an item as removed, and say whether there was one. -/
def remove (category key : String) : Task Store Bool := do
  checkCategory category
  if !Table.has (← Task.self).cache category then return false
  let items ← Store.category category
  if !(← items.has key) then return false
  let item ← (← items.item key).withItem "confidence" removedConfidence
  putCategory category (← items.withItem key item)
  return true

def stats : Task Store Value := do
  let cache := (← Task.self).cache
  let present := categories.filterMap fun c => (Table.get? cache c).map fun v => (c, v)
  return .dict (← present.mapM fun (c, v) => return (c, ← categoryStats v))

end Store

end GzLang.Memory
