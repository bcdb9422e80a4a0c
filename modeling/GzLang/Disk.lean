import GzLang.Action
import GzLang.Text.Split
import GzLang.Text.Utf8

/-!
# The disk

A tree of directories and files, given as a table from paths to nodes. Paths are lists of names
from the working directory; every directory on the way to a node is itself in the table. Names of
files in messages are those that were asked for.
-/

namespace GzLang

/-- What a file holds: a text, bytes that are no text, or the rows of a database. -/
inductive Content where
  | text (s : String)
  | bytes (bs : List Nat)
  | rows (rs : List (Table Value))
  deriving Inhabited

def Content.ofBytes (bs : List Nat) : Content :=
  match Text.decodeUtf8 bs with
  | .ok s => .text (String.ofList s)
  | .error _ => .bytes bs

inductive Node where
  | file (content : Content)
  | directory
  deriving Inhabited

/-- A directory tree; names of nodes are joined by slashes. -/
abbrev Disk := Table Node

namespace Disk

/-- The names on a path; dots and empty names do not count, two dots go up. -/
def names (path : String) : List String :=
  ((Text.splitAll ['/'] path.toList).foldl (fun acc n =>
    if n.isEmpty || n = ['.'] then acc
    else if n = ['.', '.'] then acc.tail
    else String.ofList n :: acc) []).reverse

def key (path : String) : String :=
  String.intercalate "/" (names path)

/-- The path of the directory that a path lies in: what stands before the last slash. -/
def parent (path : String) : String :=
  let s := path.toList.reverse.dropWhile (· ≠ '/')
  let kept := s.dropWhile (· = '/')
  String.ofList (if kept.isEmpty then s.reverse else kept.reverse)

def baseName (path : String) : String :=
  String.ofList (path.toList.reverse.takeWhile (· ≠ '/')).reverse

def join (directory name : String) : String :=
  if Text.startsWith ['/'] name.toList then name
  else if directory.isEmpty || Text.endsWith ['/'] directory.toList then directory ++ name
  else directory ++ "/" ++ name

/-- The node at a path. The working directory is always there. -/
def node? (d : Disk) (path : String) : Option Node :=
  if path.isEmpty then none
  else
    let k := key path
    if k.isEmpty then some .directory else Table.get? d k

def has (d : Disk) (path : String) : Bool :=
  (node? d path).isSome

def hasDirectory (d : Disk) (path : String) : Bool :=
  match node? d path with
  | some .directory => true
  | _ => false

/-- The keys of the directories on the way to a path, from the top. -/
def ancestors (path : String) : List String :=
  let ns := (names path).dropLast
  (List.range ns.length).map fun i => String.intercalate "/" (ns.take (i + 1))

/-- Why no node can be at a path: a file, or nothing, stands on the way. -/
def obstacle? (d : Disk) (path : String) : Option FileFault :=
  if path.isEmpty then some .noSuchFile
  else
    (ancestors path).findSome? fun a =>
      match Table.get? d a with
      | some .directory => none
      | some (.file _) => some .notADirectory
      | none => some .noSuchFile

/-- Put a node at a path together with the directories on the way. -/
def place (d : Disk) (path : String) (n : Node) : Disk :=
  let d := (ancestors path).foldl (fun d a => if Table.has d a then d else Table.put d a .directory) d
  Table.put d (key path) n

def content (d : Disk) (path : String) : Except Fault Content :=
  match obstacle? d path with
  | some f => .error (.file f path)
  | none =>
    match node? d path with
    | some (.file c) => .ok c
    | some .directory => .error (.file .isADirectory path)
    | none => .error (.file .noSuchFile path)

/-- The text of the file at a path, with line feeds at the ends of lines. -/
def readText (d : Disk) (path : String) : Except Fault String := do
  match ← content d path with
  | .text s => return String.ofList (Text.foldNewlines s.toList)
  | .bytes bs =>
    let s ← Text.decodeUtf8 bs
    return String.ofList (Text.foldNewlines s)
  | .rows _ => .error (.file .isADatabase path)

def writeText (d : Disk) (path text : String) : Except Fault Disk :=
  match obstacle? d path with
  | some f => .error (.file f path)
  | none =>
    match node? d path with
    | some .directory => .error (.file .isADirectory path)
    | _ => .ok (Table.put d (key path) (.file (.text text)))

/-- The rows of the database at a path; a file that is not there, or empty, has none. -/
def readRows (d : Disk) (path : String) : Except Fault (List (Table Value)) :=
  match content d path with
  | .ok (.rows rs) => .ok rs
  | .ok (.text "") => .ok []
  | .ok _ => .error (.file .notADatabase path)
  | .error (.file .noSuchFile _) => .ok []
  | .error f => .error f

def writeRows (d : Disk) (path : String) (rs : List (Table Value)) : Except Fault Disk := do
  let d ← writeText d path ""
  return Table.put d (key path) (.file (.rows rs))

def makeOne (d : Disk) (path : String) : Except Fault Disk :=
  match obstacle? d path with
  | some f => .error (.file f path)
  | none =>
    match node? d path with
    | some _ => .error (.file .exists_ path)
    | none => .ok (Table.put d (key path) .directory)

/-- Make the directory at a path and those on the way to it; it may be there already. What was
made before a fault stays. `fuel` bounds the length of the path. -/
def makeAll : Nat → String → Action Disk Unit
  | 0, _ => pure ()
  | fuel + 1, path => do
    let up := parent path
    if !up.isEmpty && !(baseName path).isEmpty then
      if !has (← get) up then makeAll fuel up
    match makeOne (← get) path with
    | .ok d => set d
    | .error f => if hasDirectory (← get) path then pure () else throw f

def makeDirectories (path : String) : Action Disk Unit :=
  makeAll (path.length + 1) path

def removeTree (d : Disk) (path : String) : Disk :=
  let k := key path
  let below := (k ++ "/").toList
  d.filter fun e => e.1 ≠ k && !below.isPrefixOf e.1.toList

def files (d : Disk) : List (String × Content) :=
  (d.filterMap fun (k, n) =>
    match n with
    | .file c => some (k, c)
    | .directory => none).mergeSort fun a b => a.1 ≤ b.1

/-- The texts of the files below a directory, by their paths from there. -/
def textsBelow (d : Disk) (path : String) : Table String :=
  d.files.filterMap fun (k, c) =>
    match (key path ++ "/").toList.isPrefixOf? k.toList, c with
    | some rest, .text s => some (String.ofList rest, s)
    | _, _ => none

/-- The names in the directory at a path, in the order of code points. -/
def entries (d : Disk) (path : String) : List (String × Node) :=
  let up := names path
  ((d.filterMap fun (k, n) =>
    let ns := names k
    match ns.getLast? with
    | some last => if ns.dropLast = up then some (last, n) else none
    | none => none)).mergeSort fun a b => a.1 ≤ b.1

/-- The paths of all files below a directory: those of the directory itself first, then those of its
directories in order. `fuel` bounds the depth. -/
def walk (d : Disk) : Nat → String → List String
  | 0, _ => []
  | fuel + 1, path =>
    if !hasDirectory d path then []
    else
      let es := entries d path
      let here := es.filterMap fun (n, k) =>
        match k with
        | .file _ => some (join path n)
        | .directory => none
      let below := es.flatMap fun (n, k) =>
        match k with
        | .file _ => []
        | .directory => walk d fuel (join path n)
      here ++ below

end Disk

end GzLang
