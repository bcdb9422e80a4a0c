import GzLang.Fault
import GzLang.Pattern.Basic

/-!
# Reading patterns

The text form of patterns: a backslash before a letter names a class or a control character, `.`
is any character, `[…]` a set, `(…)` a group, `|` separates alternatives, and `*`, `+`, `?` and
`{m,n}` repeat. A fault names the place in the text.
-/

namespace GzLang.Pattern

structure Reading where
  rest : List Char
  total : Nat
  groups : Nat
  opened : List Nat

namespace Reading

def position (r : Reading) : Nat := r.total - r.rest.length

def skip (r : Reading) (rest : List Char) : Reading := { r with rest := rest }

end Reading

def faultAt (reason : String) (position : Nat) : Fault :=
  .badPattern (reason ++ " at position " ++ toString position)

def control? : Char → Option Char
  | 'a' => some '\x07'
  | 'f' => some '\x0c'
  | 'n' => some '\n'
  | 'r' => some '\r'
  | 't' => some '\t'
  | 'v' => some '\x0b'
  | _ => none

def classEscape? : Char → Option (CharClass × Bool)
  | 'w' => some (.word, false)
  | 'W' => some (.word, true)
  | 'd' => some (.digit, false)
  | 'D' => some (.digit, true)
  | 's' => some (.blank, false)
  | 'S' => some (.blank, true)
  | _ => none

def isLetter (c : Char) : Bool := c.isAlpha

def isAsciiDigit (c : Char) : Bool := '0' ≤ c && c ≤ '9'

def decimal (ds : List Char) : Nat :=
  ds.foldl (fun n d => 10 * n + (d.toNat - '0'.toNat)) 0

/-- An escape inside a set; `r` stands at the backslash. -/
def setEscape (r : Reading) : Except Fault (SetItem × Reading) :=
  match r.rest with
  | _ :: c :: s =>
    match classEscape? c with
    | some (k, negated) => .ok (.named k negated, r.skip s)
    | none =>
      if c = 'b' then .ok (.char '\x08', r.skip s)
      else
        match control? c with
        | some x => .ok (.char x, r.skip s)
        | none =>
          if isLetter c then
            .error (faultAt ("bad escape \\" ++ String.ofList [c]) r.position)
          else .ok (.char c, r.skip s)
  | _ => .error (faultAt "bad escape (end of pattern)" r.position)

/-- One end of a range or a single member of a set. -/
def setMember (r : Reading) : Except Fault (SetItem × Reading) :=
  match r.rest with
  | '\\' :: _ => setEscape r
  | c :: s => .ok (.char c, r.skip s)
  | [] => .error (faultAt "unterminated character set" r.position)

/-- The members of a set up to its closing bracket. `start` is the position of the opening one and
`first` says whether no member was read yet. -/
def setItems (start : Nat) : Nat → Bool → List SetItem → Reading →
    Except Fault (List SetItem × Reading)
  | 0, _, _, _ => .error (faultAt "unterminated character set" start)
  | fuel + 1, first, acc, r =>
    match r.rest with
    | [] => .error (faultAt "unterminated character set" start)
    | ']' :: s =>
      if first then setItems start fuel false (.char ']' :: acc) (r.skip s)
      else .ok (acc.reverse, r.skip s)
    | _ => do
      let here := r.position
      let (lo, r) ← setMember r
      match r.rest with
      | '-' :: ']' :: s => return ((SetItem.char '-' :: lo :: acc).reverse, r.skip s)
      | '-' :: s =>
        if s.isEmpty then throw (faultAt "unterminated character set" start)
        let (hi, r) ← setMember (r.skip s)
        match lo, hi with
        | .char a, .char b =>
          if b < a then
            throw (faultAt ("bad character range " ++ String.ofList [a, '-', b]) here)
          setItems start fuel false (.range a b :: acc) r
        | _, _ => throw (faultAt "bad character range" here)
      | _ => setItems start fuel false (lo :: acc) r

/-- A set; `r` stands behind its opening bracket. -/
def charSet (r : Reading) : Except Fault (Pattern × Reading) := do
  let start := r.position - 1
  let (negated, r) :=
    match r.rest with
    | '^' :: s => (true, r.skip s)
    | _ => (false, r)
  let (items, r) ← setItems start (r.rest.length + 1) true [] r
  return (.set negated items, r)

/-- A reference to a group; `r` stands at the backslash. -/
def reference (n : Nat) (behind : List Char) (r : Reading) : Except Fault (Pattern × Reading) :=
  if n > r.groups then
    .error (faultAt ("invalid group reference " ++ toString n) (r.position + 1))
  else if r.opened.contains n then .error (faultAt "cannot refer to an open group" r.position)
  else .ok (.backref n, r.skip behind)

/-- An escape outside a set; `r` stands at the backslash. -/
def escape (r : Reading) : Except Fault (Pattern × Reading) :=
  match r.rest with
  | _ :: c :: s =>
    match classEscape? c with
    | some (k, negated) => .ok (.set false [.named k negated], r.skip s)
    | none =>
      match control? c with
      | some x => .ok (.char x, r.skip s)
      | none =>
        if c = 'b' then .ok (.wordEdge false, r.skip s)
        else if c = 'B' then .ok (.wordEdge true, r.skip s)
        else if c = 'A' then .ok (.textStart, r.skip s)
        else if c = 'Z' then .ok (.veryEnd, r.skip s)
        else if c = '0' then .ok (.char (Char.ofNat 0), r.skip s)
        else if isAsciiDigit c then
          match s with
          | d :: t =>
            if isAsciiDigit d then reference (decimal [c, d]) t r
            else reference (decimal [c]) s r
          | [] => reference (decimal [c]) s r
        else if isLetter c then
          .error (faultAt ("bad escape \\" ++ String.ofList [c]) r.position)
        else .ok (.char c, r.skip s)
  | _ => .error (faultAt "bad escape (end of pattern)" r.position)

/-- The bounds of a repetition in braces, if the text behind the opening one gives them. -/
def bounds? (s : List Char) : Option (Nat × Option Nat × List Char) :=
  let lo := s.takeWhile isAsciiDigit
  match s.dropWhile isAsciiDigit with
  | '\x7d' :: t => if lo.isEmpty then none else some (decimal lo, some (decimal lo), t)
  | ',' :: t =>
    let hi := t.takeWhile isAsciiDigit
    match t.dropWhile isAsciiDigit with
    | '\x7d' :: u => some (decimal lo, if hi.isEmpty then none else some (decimal hi), u)
    | _ => none
  | _ => none

def quantifier? : List Char → Option (Nat × Option Nat × List Char)
  | '*' :: s => some (0, none, s)
  | '+' :: s => some (1, none, s)
  | '?' :: s => some (0, some 1, s)
  | '\x7b' :: s => bounds? s
  | _ => none

def isPlace : Pattern → Bool
  | .textStart | .textEnd | .veryEnd | .wordEdge _ => true
  | _ => false

def isRep : Pattern → Bool
  | .rep .. => true
  | _ => false

def sequence : List Pattern → Pattern
  | [] => .empty
  | [p] => p
  | p :: ps => .seq p (sequence ps)

/-- Repeat the last of the patterns read so far, which are in reverse. -/
def repeatLast (items : List Pattern) (least : Nat) (most : Option Nat) (behind : List Char)
    (r : Reading) : Except Fault (List Pattern × Reading) :=
  match items with
  | [] => .error (faultAt "nothing to repeat" r.position)
  | p :: ps =>
    if isPlace p then .error (faultAt "nothing to repeat" r.position)
    else if isRep p then .error (faultAt "multiple repeat" r.position)
    else
      match behind with
      | '?' :: s => .ok (.rep p least most false :: ps, r.skip s)
      | s => .ok (.rep p least most true :: ps, r.skip s)

mutual

/-- Alternatives, up to the end of the text or a closing bracket. -/
def alternatives : Nat → Reading → Except Fault (Pattern × Reading)
  | 0, r => .error (faultAt "pattern too long" r.position)
  | fuel + 1, r => do
    let (p, r) ← items fuel [] r
    match r.rest with
    | '|' :: s =>
      let (q, r) ← alternatives fuel (r.skip s)
      return (.alt p q, r)
    | _ => return (p, r)

/-- A sequence, after the patterns read so far, which are in reverse. -/
def items : Nat → List Pattern → Reading → Except Fault (Pattern × Reading)
  | 0, _, r => .error (faultAt "pattern too long" r.position)
  | fuel + 1, acc, r =>
    match r.rest with
    | [] => .ok (sequence acc.reverse, r)
    | '|' :: _ => .ok (sequence acc.reverse, r)
    | ')' :: _ => .ok (sequence acc.reverse, r)
    | c :: s =>
      match quantifier? r.rest with
      | some (least, most, behind) => do
        let (acc, r) ← repeatLast acc least most behind r
        items fuel acc r
      | none =>
        if c = '\\' then do
          let (p, r) ← escape r
          items fuel (p :: acc) r
        else if c = '[' then do
          let (p, r) ← charSet (r.skip s)
          items fuel (p :: acc) r
        else if c = '(' then do
          let (p, r) ← bracketed fuel r
          items fuel (p :: acc) r
        else
          let p : Pattern :=
            if c = '.' then .any else if c = '^' then .textStart
            else if c = '$' then .textEnd else .char c
          items fuel (p :: acc) (r.skip s)

/-- A group; `r` stands at its opening bracket. -/
def bracketed : Nat → Reading → Except Fault (Pattern × Reading)
  | 0, r => .error (faultAt "pattern too long" r.position)
  | fuel + 1, r =>
    let start := r.position
    match r.rest with
    | '(' :: '?' :: ':' :: s => do
      let (p, r) ← alternatives fuel (r.skip s)
      match r.rest with
      | ')' :: s => return (.seq .empty p, r.skip s)
      | _ => throw (faultAt "missing ), unterminated subpattern" start)
    | '(' :: '?' :: s =>
      .error (faultAt ("unknown extension ?" ++ String.ofList (s.take 1)) (start + 1))
    | '(' :: s => do
      let n := r.groups + 1
      let opened := r.opened
      let (p, r) ← alternatives fuel { r with rest := s, groups := n, opened := n :: opened }
      match r.rest with
      | ')' :: s => return (.group n p, { r with rest := s, opened := opened })
      | _ => throw (faultAt "missing ), unterminated subpattern" start)
    | _ => .error (faultAt "pattern expected" start)

end

def parse (text : String) : Except Fault Pattern := do
  let s := text.toList
  let (p, r) ← alternatives (3 * s.length + 3) ⟨s, s.length, 0, []⟩
  match r.rest with
  | [] => return p
  | _ => throw (faultAt "unbalanced parenthesis" r.position)

end GzLang.Pattern
