import GzLang.Pattern.Match
import GzLang.Pattern.Parse

/-!
# Replacement texts

What is written in the place of a match: a text in which `\1` or `\g<1>` stand for the text of a
group and a backslash before some letters for a control character. A backslash before any other
ASCII letter is a fault.
-/

namespace GzLang

inductive TemplatePart where
  | char (c : Char)
  | group (n : Nat)
  deriving DecidableEq, Repr

abbrev Template := List TemplatePart

namespace Template

def fill (t : Template) (m : Match) : List Char :=
  t.flatMap fun
    | .char c => [c]
    | .group n => m.group n

def isOctal (c : Char) : Bool := '0' ≤ c && c ≤ '7'

def octal (ds : List Char) : Nat :=
  ds.foldl (fun n d => 8 * n + (d.toNat - '0'.toNat)) 0

def reference (groups n position : Nat) : Except Fault TemplatePart :=
  if n > groups then
    .error (Pattern.faultAt ("invalid group reference " ++ toString n) position)
  else .ok (.group n)

/-- The name between angle brackets, after `\g`. -/
def groupName (groups position : Nat) (s : List Char) : Except Fault (TemplatePart × List Char) :=
  match s with
  | '<' :: t =>
    let name := t.takeWhile (· ≠ '>')
    match t.dropWhile (· ≠ '>') with
    | '>' :: u =>
      if name.isEmpty then .error (Pattern.faultAt "missing group name" (position + 3))
      else if name.all Pattern.isAsciiDigit then do
        let part ← reference groups (Pattern.decimal name) (position + 3)
        return (part, u)
      else if name.all Text.isWord then
        .error (.badPattern ("unknown group name " ++ quote (String.ofList name)))
      else
        .error (Pattern.faultAt ("bad character in group name " ++ quote (String.ofList name))
          (position + 3))
    | _ => .error (Pattern.faultAt "missing >, unterminated name" (position + 3))
  | _ => .error (Pattern.faultAt "missing <" (position + 2))

/-- A part that starts with a backslash and the character `c`; `s` is the text behind them. -/
def escape (groups position : Nat) (c : Char) (s : List Char) :
    Except Fault (List TemplatePart × List Char) :=
  if c = 'g' then (groupName groups position s).map fun (p, s) => ([p], s)
  else if c = '0' then
    let ds := (s.take 2).takeWhile isOctal
    .ok ([.char (Char.ofNat (octal ds % 256))], s.drop ds.length)
  else if Pattern.isAsciiDigit c then
    match s with
    | d :: t =>
      if Pattern.isAsciiDigit d then
        match t with
        | e :: u =>
          if isOctal c && isOctal d && isOctal e then
            .ok ([.char (Char.ofNat (octal [c, d, e]))], u)
          else (reference groups (Pattern.decimal [c, d]) (position + 1)).map fun p => ([p], t)
        | [] => (reference groups (Pattern.decimal [c, d]) (position + 1)).map fun p => ([p], t)
      else (reference groups (Pattern.decimal [c]) (position + 1)).map fun p => ([p], s)
    | [] => (reference groups (Pattern.decimal [c]) (position + 1)).map fun p => ([p], s)
  else if c = '\\' then .ok ([.char '\\'], s)
  else if c = 'b' then .ok ([.char '\x08'], s)
  else
    match Pattern.control? c with
    | some x => .ok ([.char x], s)
    | none =>
      if Pattern.isLetter c then
        .error (Pattern.faultAt ("bad escape \\" ++ String.ofList [c]) position)
      else .ok ([.char '\\', .char c], s)

/-- The parts of a text from the left; `fuel` bounds its length. -/
def partsFrom (groups total : Nat) : Nat → List Char → Except Fault Template
  | 0, _ => .ok []
  | _, [] => .ok []
  | fuel + 1, c :: s =>
    if c = '\\' then
      let position := total - (s.length + 1)
      match s with
      | [] => .error (Pattern.faultAt "bad escape (end of pattern)" position)
      | d :: t => do
        let (ps, rest) ← escape groups position d t
        let more ← partsFrom groups total fuel rest
        return ps ++ more
    else (partsFrom groups total fuel s).map (.char c :: ·)

def parse (groups : Nat) (text : String) : Except Fault Template :=
  let s := text.toList
  partsFrom groups s.length s.length s

end Template

namespace Pattern

def substitute (pattern replacement code : String) : Except Fault String := do
  let p ← parse pattern
  let t ← Template.parse p.groupCount replacement
  return String.ofList (p.replace t.fill code.toList)

def occurs (pattern code : String) : Except Fault Bool := do
  let p ← parse pattern
  return p.occursIn code.toList

end Pattern

end GzLang
