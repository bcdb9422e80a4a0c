import GzLang.Pattern.Basic

/-!
# Matching patterns

Matching tries the ways to match in a fixed order and takes the first that leads to an end: the
first alternative before the second, one more repetition before none for a greedy one. `run`
takes what is to be matched afterwards as a continuation. A repetition that consumes nothing is
not repeated.
-/

namespace GzLang

/-- A place in a text, with the groups remembered on the way. -/
structure Cursor where
  previous : Option Char
  rest : List Char
  left : Nat
  /-- The remembered groups, the latest first. -/
  groups : List (Nat × List Char)

namespace Cursor

def start (s : List Char) : Cursor := ⟨none, s, s.length, []⟩

def behind (c : Cursor) (x : Char) (rest : List Char) : Cursor :=
  { c with previous := some x, rest := rest, left := c.left - 1 }

/-- Remember the text from an earlier place up to here. -/
def remember (c : Cursor) (n : Nat) (from_ : Cursor) : Cursor :=
  { c with groups := (n, from_.rest.take (from_.left - c.left)) :: c.groups }

def group? (c : Cursor) (n : Nat) : Option (List Char) :=
  (c.groups.find? (·.1 == n)).map (·.2)

def atWordEdge (c : Cursor) : Bool :=
  let before := (c.previous.map Text.isWord).getD false
  let after := (c.rest.head?.map Text.isWord).getD false
  before != after

end Cursor

abbrev Continuation := Cursor → Option Cursor

namespace Pattern

def one (p : Char → Bool) (c : Cursor) (k : Continuation) : Option Cursor :=
  match c.rest with
  | x :: r => if p x then k (c.behind x r) else none
  | [] => none

def literal : List Char → Cursor → Continuation → Option Cursor
  | [], c, k => k c
  | x :: xs, c, k => one (· == x) c fun c => literal xs c k

def first (a : Option Cursor) (b : Unit → Option Cursor) : Option Cursor :=
  match a with
  | some c => some c
  | none => b ()

/-- Repeat a step at least `least` and at most `most` times; `fuel` bounds the number of
repetitions. -/
def repeatStep (step : Cursor → Continuation → Option Cursor) (greedy : Bool) :
    Nat → Nat → Option Nat → Cursor → Continuation → Option Cursor
  | 0, _, _, c, k => k c
  | fuel + 1, least, most, c, k =>
    let more (_ : Unit) : Option Cursor :=
      if most = some 0 then none
      else step c fun d =>
        if d.left < c.left || least > 0 then
          repeatStep step greedy fuel (least - 1) (most.map (· - 1)) d k
        else none
    if least > 0 then more ()
    else if greedy then first (more ()) fun _ => k c
    else first (k c) more

def run : Pattern → Cursor → Continuation → Option Cursor
  | .empty, c, k => k c
  | .char x, c, k => one (· == x) c k
  | .any, c, k => one (· != '\n') c k
  | .set negated items, c, k => one (fun x => (items.any (·.covers x)) != negated) c k
  | .seq p q, c, k => run p c fun c => run q c k
  | .alt p q, c, k => first (run p c k) fun _ => run q c k
  | .rep p least most greedy, c, k =>
    repeatStep (run p) greedy (c.left + least + 1) least most c k
  | .group n p, c, k => run p c fun d => k (d.remember n c)
  | .backref n, c, k =>
    match c.group? n with
    | some s => literal s c k
    | none => none
  | .textStart, c, k => if c.previous.isNone then k c else none
  | .textEnd, c, k => if c.rest.isEmpty || c.rest == ['\n'] then k c else none
  | .veryEnd, c, k => if c.rest.isEmpty then k c else none
  | .wordEdge negated, c, k => if c.atWordEdge != negated then k c else none

/-- Match a pattern at a place; the match must not be empty if `advance` is set. -/
def runAt (p : Pattern) (c : Cursor) (advance : Bool) : Option Cursor :=
  run p { c with groups := [] } fun d => if advance && d.left == c.left then none else some d

end Pattern

structure Match where
  text : List Char
  groups : List (Nat × List Char)

def Match.group? (m : Match) (n : Nat) : Option (List Char) :=
  if n = 0 then some m.text else (m.groups.find? (·.1 == n)).map (·.2)

def Match.group (m : Match) (n : Nat) : List Char :=
  (m.group? n).getD []

/-- A piece of a text: a match, or a character between matches. -/
inductive Piece where
  | found (m : Match)
  | char (c : Char)

namespace Pattern

/-- The pieces of a text from a place on. After an empty match the next one at the same place must
not be empty. -/
def piecesFrom (p : Pattern) (c : Cursor) (advance : Bool) : List Piece :=
  match runAt p c advance with
  | some d =>
    let m : Match := ⟨c.rest.take (c.left - d.left), d.groups⟩
    if _h : d.rest.length < c.rest.length then .found m :: piecesFrom p d false
    else if advance then
      match _h : c.rest with
      | [] => []
      | x :: r => .char x :: piecesFrom p (c.behind x r) false
    else .found m :: piecesFrom p c true
  | none =>
    match _h : c.rest with
    | [] => []
    | x :: r => .char x :: piecesFrom p (c.behind x r) false
termination_by (c.rest.length, if advance then 0 else 1)
decreasing_by
  · exact Prod.Lex.left _ _ _h
  · exact Prod.Lex.left _ _ (by simp [Cursor.behind, _h])
  · simp_all [Prod.lex_def]
  · exact Prod.Lex.left _ _ (by simp [Cursor.behind, _h])

def pieces (p : Pattern) (s : List Char) : List Piece :=
  piecesFrom p (Cursor.start s) false

def findAll (p : Pattern) (s : List Char) : List Match :=
  (pieces p s).filterMap fun
    | .found m => some m
    | .char _ => none

/-- The first match at or after a place; `fuel` bounds the number of places. -/
def searchFrom (p : Pattern) : Nat → Cursor → Option Match
  | 0, _ => none
  | fuel + 1, c =>
    match runAt p c false with
    | some d => some ⟨c.rest.take (c.left - d.left), d.groups⟩
    | none =>
      match c.rest with
      | [] => none
      | x :: r => searchFrom p fuel (c.behind x r)

def search? (p : Pattern) (s : List Char) : Option Match :=
  searchFrom p (s.length + 1) (Cursor.start s)

def occursIn (p : Pattern) (s : List Char) : Bool :=
  (search? p s).isSome

def replace (p : Pattern) (write : Match → List Char) (s : List Char) : List Char :=
  (pieces p s).flatMap fun
    | .found m => write m
    | .char c => [c]

end Pattern

end GzLang
