import GzLang.Value.Display

/-!
# Writing JSON documents

A value is written either on one line or indented by two spaces per level. Characters outside
ASCII are escaped by their UTF-16 units. Writing stops at an object, which has no written form;
what was written up to there stays written (`Written`).
-/

namespace GzLang.Json

inductive Layout where
  | line
  /-- Every element on its own line, indented by two spaces for each level. -/
  | indented
  deriving DecidableEq, Repr

def unitText (u : Nat) : List Char :=
  '\\' :: 'u' :: Text.hexPadded 4 u

def escaped (c : Char) : List Char :=
  let n := c.toNat
  if c = '"' then ['\\', '"']
  else if c = '\\' then ['\\', '\\']
  else if c = '\n' then ['\\', 'n']
  else if c = '\r' then ['\\', 'r']
  else if c = '\t' then ['\\', 't']
  else if n = 8 then ['\\', 'b']
  else if n = 12 then ['\\', 'f']
  else if 32 ≤ n && n < 127 then [c]
  else if n < 0x10000 then unitText n
  else
    let m := n - 0x10000
    unitText (0xD800 + m / 0x400) ++ unitText (0xDC00 + m % 0x400)

def textOf (s : String) : String :=
  String.ofList ('"' :: (s.toList.flatMap escaped ++ ['"']))

def floatText (x : Float) : String :=
  match Decimal.decode x with
  | .nan => "NaN"
  | .infinite negative => if negative then "-Infinity" else "Infinity"
  | .finite .. => Decimal.shortestText x

/-- Text written so far, and the fault that stopped the writing if there was one. -/
abbrev Written := ExceptT Fault (StateM String)

def emit (s : String) : Written Unit :=
  modify (· ++ s)

/-- What stands between an opening bracket and the first element, at a level. -/
def Layout.open (l : Layout) (level : Nat) : String :=
  match l with
  | .line => ""
  | .indented => "\n" ++ "".pushn ' ' (2 * level)

def Layout.between (l : Layout) (level : Nat) : String :=
  match l with
  | .line => ", "
  | .indented => "," ++ l.open level

mutual

def write (l : Layout) (level : Nat) : Value → Written Unit
  | .null => emit "null"
  | .bool b => emit (if b then "true" else "false")
  | .int i =>
    match Value.intText i with
    | .ok s => emit s
    | .error e => throw e
  | .float x => emit (floatText x)
  | .statistic x => emit (floatText x)
  | .str s => emit (textOf s)
  | .object name => throw (.wrongKind ("Object of type " ++ name ++ " is not JSON serializable"))
  | .list [] => emit "[]"
  | .tuple [] => emit "[]"
  | .dict [] => emit "\x7b\x7d"
  | .list (x :: xs) => do
    emit ("[" ++ l.open (level + 1))
    write l (level + 1) x
    writeItems l (level + 1) xs
    emit (l.open level ++ "]")
  | .tuple (x :: xs) => do
    emit ("[" ++ l.open (level + 1))
    write l (level + 1) x
    writeItems l (level + 1) xs
    emit (l.open level ++ "]")
  | .dict ((k, v) :: es) => do
    emit ("\x7b" ++ l.open (level + 1) ++ textOf k ++ ": ")
    write l (level + 1) v
    writeMembers l (level + 1) es
    emit (l.open level ++ "\x7d")

/-- Write the elements of a list after the first. -/
def writeItems (l : Layout) (level : Nat) : List Value → Written Unit
  | [] => pure ()
  | x :: xs => do
    emit (l.between level)
    write l level x
    writeItems l level xs

/-- Write the members of a table after the first. -/
def writeMembers (l : Layout) (level : Nat) : List (String × Value) → Written Unit
  | [] => pure ()
  | (k, v) :: es => do
    emit (l.between level ++ textOf k ++ ": ")
    write l level v
    writeMembers l level es

end

/-- The text of a value, or the part of it before a fault. -/
def dump (l : Layout) (v : Value) : Except Fault Unit × String :=
  (write l 0 v).run ""

def render (l : Layout) (v : Value) : Except Fault String :=
  match dump l v with
  | (.ok _, s) => .ok s
  | (.error e, _) => .error e

end GzLang.Json
