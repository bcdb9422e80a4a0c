import GzLang.Decimal.Binary64
import GzLang.Fault

/-!
# Reading JSON documents

A document is read from its characters into a `Value`. Numbers with a point or an exponent are
doubles, all others integers; of two members with one name the later counts, in the place of the
earlier. A fault says what was expected and where.
-/

namespace GzLang.Json

/-- Why and where reading stopped; the rest of the text gives the position. -/
structure Stop where
  reason : String
  rest : List Char

/-- A reader: what it read and the rest of the text. -/
abbrev Reader (α : Type) := List Char → Except Stop (α × List Char)

def isSpace (c : Char) : Bool :=
  c = ' ' || c = '\t' || c = '\n' || c = '\r'

def skipSpace (s : List Char) : List Char :=
  s.dropWhile isSpace

def hexValue? (c : Char) : Option Nat :=
  if '0' ≤ c ∧ c ≤ '9' then some (c.toNat - '0'.toNat)
  else if 'a' ≤ c ∧ c ≤ 'f' then some (c.toNat - 'a'.toNat + 10)
  else if 'A' ≤ c ∧ c ≤ 'F' then some (c.toNat - 'A'.toNat + 10)
  else none

def hexUnit? : List Char → Option (Nat × List Char)
  | a :: b :: c :: d :: s => do
    let a ← hexValue? a
    let b ← hexValue? b
    let c ← hexValue? c
    let d ← hexValue? d
    return (((a * 16 + b) * 16 + c) * 16 + d, s)
  | _ => none

/-- A code point from an escaped unit: a high surrogate followed by an escaped low surrogate make
one character; a surrogate that stands alone has no character and becomes the replacement
character. -/
def unitChar (u : Nat) (s : List Char) : Char × List Char :=
  if 0xD800 ≤ u ∧ u < 0xDC00 then
    match s with
    | '\\' :: 'u' :: t =>
      match hexUnit? t with
      | some (l, t) =>
        if 0xDC00 ≤ l ∧ l < 0xE000 then
          (Char.ofNat (0x10000 + (u - 0xD800) * 0x400 + (l - 0xDC00)), t)
        else (Char.ofNat 0xFFFD, s)
      | none => (Char.ofNat 0xFFFD, s)
    | _ => (Char.ofNat 0xFFFD, s)
  else if 0xDC00 ≤ u ∧ u < 0xE000 then (Char.ofNat 0xFFFD, s)
  else (Char.ofNat u, s)

def escape? : Char → Option Char
  | '"' => some '"'
  | '\\' => some '\\'
  | '/' => some '/'
  | 'b' => some '\x08'
  | 'f' => some '\x0c'
  | 'n' => some '\n'
  | 'r' => some '\r'
  | 't' => some '\t'
  | _ => none

/-- The characters of a text up to its closing quote; `start` is the text from its opening quote
and `fuel` bounds the number of characters. -/
def textBody (start : List Char) : Nat → List Char → List Char → Except Stop (String × List Char)
  | 0, _, _ => .error ⟨"Unterminated string starting at", start⟩
  | _, _, [] => .error ⟨"Unterminated string starting at", start⟩
  | fuel + 1, acc, c :: s =>
    if c = '"' then .ok (String.ofList acc.reverse, s)
    else if c = '\\' then
      match s with
      | [] => .error ⟨"Unterminated string starting at", start⟩
      | 'u' :: t =>
        match hexUnit? t with
        | none => .error ⟨"Invalid \\uXXXX escape", s⟩
        | some (u, t) =>
          let (c, t) := unitChar u t
          textBody start fuel (c :: acc) t
      | e :: t =>
        match escape? e with
        | some c => textBody start fuel (c :: acc) t
        | none => .error ⟨"Invalid \\escape", c :: s⟩
    else if c.toNat < 32 then .error ⟨"Invalid control character at", c :: s⟩
    else textBody start fuel (c :: acc) s

def text (s : List Char) : Except Stop (String × List Char) :=
  textBody ('"' :: s) (s.length + 1) [] s

def isDigit (c : Char) : Bool := '0' ≤ c && c ≤ '9'

def natOf (ds : List Char) : Nat :=
  ds.foldl (fun n d => 10 * n + (d.toNat - '0'.toNat)) 0

/-- The double nearest to `± digits · 10^exponent`. -/
def floatOf (negative : Bool) (digits : Nat) (exponent : Int) : Float :=
  let infinite := if negative then -(1.0 / 0.0) else 1.0 / 0.0
  let size : Int := exponent + (Nat.toDigits 10 digits).length
  if digits == 0 || size < -330 then if negative then -0.0 else 0.0
  else if size > 310 then infinite
  else if exponent < 0 then
    (Decimal.ofFraction? negative digits (Nat.pow 10 (-exponent).toNat)).getD infinite
  else (Decimal.ofFraction? negative (digits * Nat.pow 10 exponent.toNat) 1).getD infinite

def fractionPart (s : List Char) : Option (List Char) × List Char :=
  match s with
  | '.' :: t =>
    let ds := t.takeWhile isDigit
    if ds.isEmpty then (none, s) else (some ds, t.dropWhile isDigit)
  | _ => (none, s)

def exponentPart (s : List Char) : Option Int × List Char :=
  match s with
  | e :: t =>
    if e = 'e' || e = 'E' then
      let (negative, t) :=
        match t with
        | '-' :: r => (true, r)
        | '+' :: r => (false, r)
        | r => (false, r)
      let ds := t.takeWhile isDigit
      if ds.isEmpty then (none, s)
      else (some (if negative then -(natOf ds : Int) else natOf ds), t.dropWhile isDigit)
    else (none, s)
  | [] => (none, s)

def signPart (s : List Char) : Bool × List Char :=
  match s with
  | '-' :: r => (true, r)
  | r => (false, r)

/-- The digits in front of a point; after a leading zero there are no more. -/
def wholePart (s : List Char) : List Char :=
  match s with
  | '0' :: _ => ['0']
  | _ => s.takeWhile isDigit

/-- A number; `s` starts with its sign or first digit. -/
def number? (s : List Char) : Option (Value × List Char) :=
  let (negative, t) := signPart s
  let digits := wholePart t
  if digits.isEmpty then none
  else
    let t := t.drop digits.length
    let (fraction, t) := fractionPart t
    let (exponent, t) := exponentPart t
    match fraction, exponent with
    | none, none =>
      let n := natOf digits
      some (.int (if negative then -(n : Int) else n), t)
    | f, e =>
      let more := f.getD []
      let x := floatOf negative (natOf (digits ++ more)) (e.getD 0 - more.length)
      some (.float x, t)

def word? (s : List Char) : Option (Value × List Char) :=
  [("null", Value.null), ("true", .bool true), ("false", .bool false),
    ("NaN", .float (0.0 / 0.0)), ("Infinity", .float (1.0 / 0.0)),
    ("-Infinity", .float (-(1.0 / 0.0)))].findSome? fun (w, v) =>
      let w := w.toList
      if w.isPrefixOf s then some (v, s.drop w.length) else none

mutual

/-- A value, with no separating characters in front. -/
def value : Nat → Reader Value
  | 0, s => .error ⟨"Expecting value", s⟩
  | fuel + 1, s =>
    match s with
    | '"' :: t => (text t).map fun (x, r) => (.str x, r)
    | '\x7b' :: t =>
      match skipSpace t with
      | '\x7d' :: r => .ok (.dict [], r)
      | t => members fuel [] t
    | '[' :: t =>
      match skipSpace t with
      | ']' :: r => .ok (.list [], r)
      | t => items fuel [] t
    | _ =>
      match word? s with
      | some r => .ok r
      | none =>
        match number? s with
        | some r => .ok r
        | none => .error ⟨"Expecting value", s⟩

/-- The elements of a list after the ones read so far, which are in reverse. -/
def items : Nat → List Value → Reader Value
  | 0, _, s => .error ⟨"Expecting value", s⟩
  | fuel + 1, acc, s => do
    let (v, s) ← value fuel s
    match skipSpace s with
    | ']' :: r => return (.list (v :: acc).reverse, r)
    | ',' :: r => items fuel (v :: acc) (skipSpace r)
    | s => throw ⟨"Expecting ',' delimiter", s⟩

/-- The members of a table after the ones read so far. -/
def members : Nat → Table Value → Reader Value
  | 0, _, s => .error ⟨"Expecting property name enclosed in double quotes", s⟩
  | fuel + 1, acc, s =>
    match s with
    | '"' :: t => do
      let (k, s) ← text t
      match skipSpace s with
      | ':' :: r =>
        let (v, s) ← value fuel (skipSpace r)
        let acc := Table.put acc k v
        match skipSpace s with
        | '\x7d' :: r => return (.dict acc, r)
        | ',' :: r => members fuel acc (skipSpace r)
        | s => throw ⟨"Expecting ',' delimiter", s⟩
      | s => throw ⟨"Expecting ':' delimiter", s⟩
    | _ => .error ⟨"Expecting property name enclosed in double quotes", s⟩

end

def Stop.fault (all : List Char) (stop : Stop) : Fault :=
  let position := all.length - stop.rest.length
  let before := all.take position
  let line := before.count '\n' + 1
  let column := (before.reverse.takeWhile (· ≠ '\n')).length + 1
  .malformedDocument stop.reason line column position

def parse (document : String) : Except Fault Value :=
  let s := document.toList
  if s.head? = some '\uFEFF' then
    .error (.malformedDocument "Unexpected UTF-8 BOM (decode using utf-8-sig)" 1 1 0)
  else
    match value (2 * s.length + 2) (skipSpace s) with
    | .error stop => .error (stop.fault s)
    | .ok (v, r) =>
      match skipSpace r with
      | [] => .ok v
      | r => .error (Stop.fault s ⟨"Extra data", r⟩)

end GzLang.Json
