import GzLang.Fault
import GzLang.Source.Line
import GzLang.Text.Digit

/-!
# Statements

What a line says is decided by the keyword it starts with, then by an assignment sign with blanks
around it, then by a pair of brackets. A line that says none of these does nothing.
-/

namespace GzLang

inductive Statement where
  | giveBack (expr : List Char)
  | print (args : List Char)
  | branch (condition : List Char)
  /-- Run the lines below for every integer of a range. -/
  | loop (name : String) (bounds : Except Fault (Int × Int))
  | assign (name : String) (expr : List Char)
  | evaluate (expr : List Char)
  | skip

namespace Statement

def after? (keyword : String) (s : List Char) : Option (List Char) :=
  let k := keyword.toList ++ [' ']
  if k.isPrefixOf s then some (s.drop k.length) else none

def integer (s : List Char) : Except Fault Int :=
  match Text.readInt s with
  | .ok i => .ok i
  | .error .malformed => .error (.notAnInteger (String.ofList s))
  | .error (.tooLong n) => .error (.literalTooLong n)

/-- The bounds of a loop: both in the first word around two dots, or one in each word. -/
def bounds (first second : List Char) : Except Fault (Int × Int) :=
  if Text.occurs ['.', '.'] first then
    match Text.splitAll ['.', '.'] first with
    | [a, b] => do
      let lo ← integer a
      let hi ← integer b
      return (lo, hi)
    | _ => .error (.tooManyParts 2)
  else do
    let lo ← integer first
    let hi ← integer second
    return (lo, hi)

/-- What a loop header says; with fewer than three words it says nothing. -/
def loopHeader (s : List Char) : Statement :=
  match Text.words s with
  | name :: first :: second :: _ => .loop (String.ofList name) (bounds first second)
  | _ => .skip

def plain (s : List Char) : Statement :=
  match Text.cutFirst [' ', '=', ' '] s with
  | some (l, r) => .assign (String.ofList (Text.trim l)) r
  | none => if s.contains '(' && s.contains ')' then .evaluate s else .skip

def parse (s : List Char) : Statement :=
  match after? "balik" s with
  | some r => .giveBack (Text.trim r)
  | none =>
    match after? "sulat" s with
    | some r => .print r
    | none =>
      match after? "kung" s with
      | some r => .branch (Text.trim r)
      | none =>
        match after? "para" s with
        | some r => loopHeader r
        | none => plain s

end Statement

end GzLang
