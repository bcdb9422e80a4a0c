import GzLang.Decimal.Binary64
import GzLang.Fault

/-!
# Equality and order of values

Integers and doubles are compared by their exact numbers, truth values count as 0 and 1, texts
are compared by code points, and lists element by element: the first pair of elements that
differ decides. Kinds that do not go together are never equal and have no order.
-/

namespace GzLang

inductive Number where
  | int (i : Int)
  | float (x : Float)

def Value.toNumber? : Value → Option Number
  | .bool b => some (.int (if b then 1 else 0))
  | .int i => some (.int i)
  | .float x => some (.float x)
  | .statistic x => some (.float x)
  | _ => none

namespace Number

/-- How an integer compares with the exact number `± m · 2^q`. -/
def compareExact (i : Int) (negative : Bool) (m : Nat) (q : Int) : Ordering :=
  let signed : Int := if negative then -(m : Int) else m
  if q < 0 then compare (i * Int.pow 2 (-q).toNat) signed else compare i (signed * Int.pow 2 q.toNat)

/-- How an integer compares with a double; none for NaN. -/
def compareIntFloat (i : Int) (x : Float) : Option Ordering :=
  match Decimal.decode x with
  | .nan => none
  | .infinite negative => some (if negative then .gt else .lt)
  | .finite negative m q => some (compareExact i negative m q)

/-- How two numbers compare; none if one is NaN. -/
def compare? : Number → Number → Option Ordering
  | .int i, .int j => some (compare i j)
  | .int i, .float y => compareIntFloat i y
  | .float x, .int j => (compareIntFloat j x).map Ordering.swap
  | .float x, .float y =>
    if x < y then some .lt else if x == y then some .eq else if x > y then some .gt else none

def equal (a b : Number) : Bool :=
  compare? a b == some .eq

end Number

namespace Value

mutual

def equal : Value → Value → Bool
  | .null, .null => true
  | .str s, .str t => s == t
  | .list xs, .list ys => equalLists xs ys
  | .tuple xs, .tuple ys => equalLists xs ys
  | .dict es, .dict fs => es.length == fs.length && equalEntries es fs
  | .bool b, w => equalNumber (.int (if b then 1 else 0)) w
  | .int i, w => equalNumber (.int i) w
  | .float x, w => equalNumber (.float x) w
  | .statistic x, w => equalNumber (.float x) w
  | _, _ => false

def equalLists : List Value → List Value → Bool
  | [], [] => true
  | x :: xs, y :: ys => equal x y && equalLists xs ys
  | _, _ => false

def equalEntries : List (String × Value) → List (String × Value) → Bool
  | [], _ => true
  | (k, v) :: es, fs =>
    (match Table.get? fs k with
      | some w => equal v w
      | none => false) && equalEntries es fs

def equalNumber (a : Number) (w : Value) : Bool :=
  match w.toNumber? with
  | some b => Number.equal a b
  | none => false

end

instance : BEq Value := ⟨equal⟩

inductive Relation where
  | lt
  | le
  | gt
  | ge
  deriving DecidableEq, Repr

def Relation.sign : Relation → String
  | .lt => "<"
  | .le => "<="
  | .gt => ">"
  | .ge => ">="

def Relation.holds : Relation → Ordering → Bool
  | .lt, o => o == .lt
  | .le, o => o != .gt
  | .gt, o => o == .gt
  | .ge, o => o != .lt

def compareTexts (s t : String) : Ordering :=
  if s < t then .lt else if s = t then .eq else .gt

mutual

def relate (r : Relation) : Value → Value → Except Fault Bool
  | .str s, .str t => .ok (r.holds (compareTexts s t))
  | .list xs, .list ys => relateLists r xs ys
  | .tuple xs, .tuple ys => relateLists r xs ys
  | v, w =>
    match v.toNumber?, w.toNumber? with
    | some a, some b => .ok (((Number.compare? a b).map r.holds).getD false)
    | _, _ => .error (.order r.sign v.kind w.kind)

/-- Whether a relation holds between two lists: the first difference decides, then the length. -/
def relateLists (r : Relation) : List Value → List Value → Except Fault Bool
  | x :: xs, y :: ys => if equal x y then relateLists r xs ys else relate r x y
  | xs, ys => .ok (r.holds (compare xs.length ys.length))

end

end Value

end GzLang
