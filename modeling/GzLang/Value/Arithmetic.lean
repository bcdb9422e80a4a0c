import GzLang.Value.Order

/-!
# Arithmetic on values

Integers are unbounded; a double on either side makes the result a double; dividing two integers
gives the double nearest to the exact quotient. Texts and lists can be joined, and repeated by an
integer. Truth values count as 0 and 1.
-/

namespace GzLang.Value

/-- The double of an integer in mixed arithmetic. -/
def floatOfInt (i : Int) : Except Fault Float :=
  match Decimal.ofInt? i with
  | some x => .ok x
  | none => .error .integerTooLarge

def floatOfNumber : Number → Except Fault Float
  | .int i => floatOfInt i
  | .float x => .ok x

def toDouble (v : Value) : Except Fault Float :=
  match v.toNumber? with
  | some n => floatOfNumber n
  | none => .error (.wrongKind ("must be real number, not " ++ v.kind.name))

/-- Apply an operation to two numbers: exactly to integers, else to doubles. -/
def arithmetic (onInts : Int → Int → Int) (onFloats : Float → Float → Float) :
    Number → Number → Except Fault Value
  | .int i, .int j => .ok (.int (onInts i j))
  | a, b => do
    let x ← floatOfNumber a
    let y ← floatOfNumber b
    return .float (onFloats x y)

def add (v w : Value) : Except Fault Value :=
  match v, w with
  | .str s, .str t => .ok (.str (s ++ t))
  | .list xs, .list ys => .ok (.list (xs ++ ys))
  | .tuple xs, .tuple ys => .ok (.tuple (xs ++ ys))
  | _, _ =>
    match v.toNumber?, w.toNumber? with
    | some a, some b => arithmetic (· + ·) (· + ·) a b
    | _, _ =>
      match v with
      | .str _ | .list _ | .tuple _ => .error (.concatenation v.kind w.kind)
      | _ => .error (.operands "+" v.kind w.kind)

def sub (v w : Value) : Except Fault Value :=
  match v.toNumber?, w.toNumber? with
  | some a, some b => arithmetic (· - ·) (· - ·) a b
  | _, _ => .error (.operands "-" v.kind w.kind)

def maxIndex : Nat := Nat.pow 2 63 - 1

/-- Texts and lists longer than this do not fit in memory. -/
def maxLength : Nat := Nat.pow 2 33

/-- How often a sequence of the given length is repeated; negative counts repeat it never. -/
def repetitions (length : Nat) (count : Value) : Except Fault Nat :=
  match count.toInt? with
  | none => .error (.repetition count.kind)
  | some i =>
    if i > maxIndex || i < -(maxIndex : Int) - 1 then .error .countTooLarge
    else
      let n := i.toNat
      if length * n > maxIndex then .error .textTooLong
      else if length * n > maxLength then .error .outOfMemory
      else .ok (if length = 0 then 0 else n)

def repeatList (xs : List α) : Nat → List α
  | 0 => []
  | n + 1 => xs ++ repeatList xs n

def mul (v w : Value) : Except Fault Value :=
  match v, w with
  | .str s, n => do
    let k ← repetitions s.length n
    return .str (String.join (List.replicate k s))
  | .list xs, n => do
    let k ← repetitions xs.length n
    return .list (repeatList xs k)
  | .tuple xs, n => do
    let k ← repetitions xs.length n
    return .tuple (repeatList xs k)
  | n, .str s => do
    let k ← repetitions s.length n
    return .str (String.join (List.replicate k s))
  | n, .list xs => do
    let k ← repetitions xs.length n
    return .list (repeatList xs k)
  | n, .tuple xs => do
    let k ← repetitions xs.length n
    return .tuple (repeatList xs k)
  | _, _ =>
    match v.toNumber?, w.toNumber? with
    | some a, some b => arithmetic (· * ·) (· * ·) a b
    | _, _ => .error (.operands "*" v.kind w.kind)

/-- The double nearest to the quotient of two integers. -/
def divInts (i j : Int) : Except Fault Float :=
  if j = 0 then .error .divisionByZero
  else
    match Decimal.ofFraction? ((i < 0) != (j < 0)) i.natAbs j.natAbs with
    | some x => .ok x
    | none => .error .quotientTooLarge

def divNumbers : Number → Number → Except Fault Float
  | .int i, .int j => divInts i j
  | a, b => do
    let x ← floatOfNumber a
    let y ← floatOfNumber b
    if y == 0 then throw .floatDivisionByZero
    return x / y

def div (v w : Value) : Except Fault Value :=
  match v.toNumber?, w.toNumber? with
  | some a, some b => (divNumbers a b).map .float
  | _, _ => .error (.operands "/" v.kind w.kind)

end GzLang.Value
