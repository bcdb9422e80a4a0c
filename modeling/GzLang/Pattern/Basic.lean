import GzLang.Text.Digit
import GzLang.Text.Word

/-!
# Patterns

Patterns describe texts: characters and classes of characters, sequences, alternatives, repetition,
groups that remember what they matched, and references to them.
-/

namespace GzLang

inductive CharClass where
  | word
  | digit
  | blank
  deriving DecidableEq, Repr

def CharClass.holds : CharClass → Char → Bool
  | .word, c => Text.isWord c
  | .digit, c => Text.isDecimal c
  | .blank, c => Text.isBlank c

inductive SetItem where
  | char (c : Char)
  | range (lo hi : Char)
  | named (k : CharClass) (negated : Bool)
  deriving DecidableEq, Repr

def SetItem.covers : SetItem → Char → Bool
  | .char x, c => x == c
  | .range lo hi, c => lo ≤ c && c ≤ hi
  | .named k negated, c => k.holds c != negated

inductive Pattern where
  | empty
  | char (c : Char)
  | any
  /-- A character in a set, or outside it. -/
  | set (negated : Bool) (items : List SetItem)
  | seq (p q : Pattern)
  /-- The first of two patterns that matches. -/
  | alt (p q : Pattern)
  /-- A pattern repeated, as often as possible or as seldom. -/
  | rep (p : Pattern) (least : Nat) (most : Option Nat) (greedy : Bool)
  /-- A pattern whose text is remembered under a number. -/
  | group (n : Nat) (p : Pattern)
  /-- The text remembered under a number. -/
  | backref (n : Nat)
  | textStart
  /-- The end of the text, or the place before a line feed at its end. -/
  | textEnd
  /-- The very end of the text. -/
  | veryEnd
  /-- A place between a word character and another one. -/
  | wordEdge (negated : Bool)
  deriving Repr, Inhabited

namespace Pattern

def groupCount : Pattern → Nat
  | .seq p q => groupCount p + groupCount q
  | .alt p q => groupCount p + groupCount q
  | .rep p _ _ _ => groupCount p
  | .group _ p => groupCount p + 1
  | _ => 0

end Pattern

end GzLang
