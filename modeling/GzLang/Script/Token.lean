import GzLang.Text.Split
import GzLang.Text.Word
import GzLang.Text.Digit

/-!
# Tokens of a script

A script is a module of the toolchain's own language. Its logical lines end where no bracket is
open; the indentation of a line that starts one opens and closes blocks. Blank lines and comments
give no tokens. Tabs fill up to the next multiple of eight columns, and mixtures that depend on this
width are refused.
-/

namespace GzLang.Script

inductive Lexeme where
  | word (s : String)
  | number (n : Nat)
  | sign (s : String)
  | newline
  | indent
  | dedent
  deriving DecidableEq, Repr

structure Token where
  lexeme : Lexeme
  line : Nat
  deriving DecidableEq, Repr

/-- The width of an indentation: with tabs to multiples of eight, and with tabs as one column. -/
structure Width where
  columns : Nat
  chars : Nat
  deriving DecidableEq, Repr

def Width.front : Width → List Char → Width × List Char
  | w, ' ' :: s => Width.front ⟨w.columns + 1, w.chars + 1⟩ s
  | w, '\t' :: s => Width.front ⟨(w.columns / 8 + 1) * 8, w.chars + 1⟩ s
  | _, '\x0c' :: s => Width.front ⟨0, 0⟩ s
  | w, s => (w, s)

def isEnd : List Char → Bool
  | [] => true
  | c :: _ => c = '#'

def doubleSigns : List (List Char) :=
  [['=', '='], ['!', '='], ['<', '='], ['>', '=']]

def singleSigns : List Char :=
  ['(', ')', ':', ',', ';', '=', '<', '>']

/-- The value of an integer literal: ASCII digits without a zero before others. -/
def literal? (s : List Char) : Option Nat :=
  if s.all Char.isDigit && (s.head? ≠ some '0' || s.all (· = '0')) then
    some (Text.ofDigits (s.map fun c => c.toNat - 48))
  else none

/-- The lexeme at the front of a text that starts with neither a blank nor a comment. -/
def lexeme? (s : List Char) : Option (Lexeme × List Char) :=
  match s with
  | [] => none
  | c :: t =>
    if Text.isWord c then
      let run := s.takeWhile Text.isWord
      let rest := s.dropWhile Text.isWord
      if c.isDigit then (literal? run).map fun n => (.number n, rest)
      else some (.word (String.ofList run), rest)
    else if s.take 2 ∈ doubleSigns then some (.sign (String.ofList (s.take 2)), s.drop 2)
    else if c ∈ singleSigns then some (.sign (String.singleton c), t)
    else none

/-- How many brackets are open behind a lexeme; none if it closes one that is not open. -/
def depthAfter? (depth : Nat) : Lexeme → Option Nat
  | .sign "(" => some (depth + 1)
  | .sign ")" => if depth = 0 then none else some (depth - 1)
  | _ => some depth

/-- The lexemes of the rest of a line, and how many brackets are open behind it. `fuel` bounds the
length of the rest. -/
def lexemes? : Nat → Nat → List Char → Option (List Lexeme × Nat)
  | 0, _, _ => none
  | fuel + 1, depth, s =>
    let s := s.dropWhile fun c => c = ' ' || c = '\t' || c = '\x0c'
    if isEnd s then some ([], depth)
    else do
      let (x, rest) ← lexeme? s
      let depth ← depthAfter? depth x
      let (xs, depth) ← lexemes? fuel depth rest
      return (x :: xs, depth)

/-- Close the blocks that are deeper than a width: how many, and the blocks left. The width must be
that of a block that is open. -/
def close? (w : Width) : List Width → Option (Nat × List Width)
  | [] => if w.columns = 0 && w.chars = 0 then some (0, []) else none
  | b :: bs =>
    if w.columns < b.columns then (close? w bs).map fun (n, left) => (n + 1, left)
    else if w = b then some (0, b :: bs)
    else none

/-- The block tokens before a line of the given width, and the blocks that are then open. -/
def blockTokens? (w : Width) (blocks : List Width) : Option (List Lexeme × List Width) :=
  let top := blocks.headD ⟨0, 0⟩
  if w.columns > top.columns then
    if w.chars > top.chars then some ([.indent], w :: blocks) else none
  else (close? w blocks).map fun (n, left) => (List.replicate n .dedent, left)

/-- What the lexer carries from line to line. -/
structure Layout where
  blocks : List Width := []
  depth : Nat := 0

def lineTokens? (l : Layout) (number : Nat) (line : List Char) : Option (List Token × Layout) := do
  let (w, rest) := Width.front ⟨0, 0⟩ line
  let opens := l.depth = 0
  if opens && isEnd rest then return ([], l)
  let (before, blocks) ← if opens then blockTokens? w l.blocks else some ([], l.blocks)
  let (xs, depth) ← lexemes? (line.length + 1) l.depth rest
  let after := if depth = 0 then [.newline] else []
  return ((before ++ xs ++ after).map (⟨·, number⟩), ⟨blocks, depth⟩)

def tokensFrom? (l : Layout) (number : Nat) : List (List Char) → Option (List Token)
  | [] =>
    if l.depth = 0 then some (l.blocks.map fun _ => ⟨.dedent, number⟩) else none
  | line :: lines => do
    let (ts, l) ← lineTokens? l number line
    let more ← tokensFrom? l (number + 1) lines
    return ts ++ more

def tokens? (code : List Char) : Option (List Token) :=
  tokensFrom? {} 1 (Text.lines code)

end GzLang.Script
