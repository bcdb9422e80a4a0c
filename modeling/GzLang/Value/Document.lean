import GzLang.Text.Split
import GzLang.Value.Arithmetic

/-!
# Values as documents

What was read from a file has whatever shape the file gave it. The operations here look into such a
document and change it; one that its shape does not have is a fault, found only when the operation
is reached.
-/

namespace GzLang.Value

def lookupFault : Value → Fault
  | .list _ => .wrongKind "list indices must be integers or slices, not str"
  | .tuple _ => .wrongKind "tuple indices must be integers or slices, not str"
  | .str _ => .wrongKind "string indices must be integers, not 'str'"
  | v => .wrongKind ("'" ++ v.kind.name ++ "' object is not subscriptable")

/-- The fault of putting a value under a name of a value that is no table. -/
def assignmentFault : Value → Fault
  | .list _ => .wrongKind "list indices must be integers or slices, not str"
  | v => .wrongKind ("'" ++ v.kind.name ++ "' object does not support item assignment")

def item (v : Value) (k : String) : Except Fault Value :=
  match v with
  | .dict es =>
    match Table.get? es k with
    | some x => .ok x
    | none => .error (.missingKey k)
  | v => .error (lookupFault v)

/-- The value under a name, or another if the table has none. -/
def itemD (v : Value) (k : String) (other : Value) : Except Fault Value :=
  match v with
  | .dict es => .ok ((Table.get? es k).getD other)
  | v => .error (.noOperation v.kind "get")

def withItem (v : Value) (k : String) (x : Value) : Except Fault Value :=
  match v with
  | .dict es => .ok (.dict (Table.put es k x))
  | v => .error (assignmentFault v)

/-- Whether a document holds a value: a table as a name, a list as an element, a text as a part. -/
def holds (v x : Value) : Except Fault Bool :=
  match v, x with
  | .dict es, .str k => .ok (Table.has es k)
  | .dict _, .list _ => .error (.wrongKind "unhashable type: 'list'")
  | .dict _, .dict _ => .error (.wrongKind "unhashable type: 'dict'")
  | .dict _, _ => .ok false
  | .list xs, x => .ok (xs.any (equal x))
  | .tuple xs, x => .ok (xs.any (equal x))
  | .str s, .str t => .ok (Text.occurs t.toList s.toList)
  | .str _, x =>
    .error (.wrongKind ("'in <string>' requires string as left operand, not " ++ x.kind.name))
  | v, _ => .error (.wrongKind ("argument of type '" ++ v.kind.name ++ "' is not iterable"))

def has (v : Value) (k : String) : Except Fault Bool :=
  holds v (.str k)

/-- The entries of a table; `operation` is what asks for them. -/
def table (v : Value) (operation : String) : Except Fault (Table Value) :=
  match v with
  | .dict es => .ok es
  | v => .error (.noOperation v.kind operation)

/-- The elements of a list, the names of a table, or the characters of a text. -/
def elements : Value → Except Fault (List Value)
  | .list xs => .ok xs
  | .tuple xs => .ok xs
  | .dict es => .ok (es.map fun e => .str e.1)
  | .str s => .ok (s.toList.map fun c => .str (String.singleton c))
  | v => .error (.wrongKind ("'" ++ v.kind.name ++ "' object is not iterable"))

def size : Value → Except Fault Nat
  | .list xs => .ok xs.length
  | .tuple xs => .ok xs.length
  | .dict es => .ok es.length
  | .str s => .ok s.length
  | v => .error (.noLength v.kind)

def pushed (v x : Value) : Except Fault Value :=
  match v with
  | .list xs => .ok (.list (xs ++ [x]))
  | v => .error (.noOperation v.kind "append")

def onSequence (f : (α : Type) → List α → List α) : Value → Except Fault Value
  | .list xs => .ok (.list (f _ xs))
  | .tuple xs => .ok (.tuple (f _ xs))
  | .str s => .ok (.str (String.ofList (f _ s.toList)))
  | .dict _ => .error (.wrongKind "unhashable type: 'slice'")
  | v => .error (lookupFault v)

def lastItems (n : Nat) : Value → Except Fault Value :=
  onSequence fun _ xs => xs.drop (xs.length - n)

/-- The first elements of a list; a negative count leaves that many out at the end. -/
def upTo (limit : Int) (xs : List α) : List α :=
  if 0 ≤ limit then xs.take limit.toNat else xs.take (xs.length - limit.natAbs)

def element (v : Value) (i : Nat) : Except Fault Value :=
  match v with
  | .list xs => (xs[i]?).elim (.error .noElement) .ok
  | .tuple xs => (xs[i]?).elim (.error .noElement) .ok
  | .str s => (s.toList[i]?).elim (.error .noElement) fun c => .ok (.str (String.singleton c))
  | .dict _ => .error (.missingKey (toString i))
  | v => .error (lookupFault v)

/-- The text of a value that is one; `operation` is what needs it. -/
def text (v : Value) (operation : String) : Except Fault String :=
  match v with
  | .str s => .ok s
  | v => .error (.noOperation v.kind operation)

def greater (v w : Value) : Except Fault Value := do
  return if ← relate .gt w v then w else v

def lesser (v w : Value) : Except Fault Value := do
  return if ← relate .lt w v then w else v

def total (vs : List Value) : Except Fault Value :=
  vs.foldlM add (.int 0)

def next (v : Value) : Except Fault Value :=
  add v (.int 1)

/-- Elements in descending order of their keys, those of equal keys in the given order. -/
def sortDescending (key : α → Except Fault Value) (xs : List α) : Except Fault (List α) := do
  let keyed ← xs.mapM fun x => return (← key x, x)
  match keyed with
  | [] => return []
  | (k, _) :: rest =>
    rest.forM fun e => do
      let _ ← relate .lt e.1 k
    return (keyed.mergeSort fun a b =>
      match relate .lt a.1 b.1 with
      | .ok less => !less
      | .error _ => true).map Prod.snd

def isWhole (x : Float) : Bool :=
  match Decimal.decode x with
  | .finite _ m q => 0 ≤ q || m % Nat.pow 2 (-q).toNat == 0
  | .infinite _ => true
  | .nan => false

def powFloats (x y : Float) : Except Fault Value :=
  if x == 0 && y < 0 then .error .zeroToNegativePower
  else if x < 0 && x.isFinite && y.isFinite && !isWhole y then .ok (.object "complex")
  else
    let r := Float.pow x y
    if r.isInf && x.isFinite && y.isFinite then .error .powerTooLarge else .ok (.float r)

/-- A number to the power of a number: exact for an integer and a count. -/
def pow (v w : Value) : Except Fault Value :=
  match v.toNumber?, w.toNumber? with
  | some (.int i), some (.int j) =>
    if 0 ≤ j then .ok (.int (Int.pow i j.toNat))
    else do
      let x ← floatOfInt i
      let y ← floatOfInt j
      powFloats x y
  | some a, some b => do
    let x ← floatOfNumber a
    let y ← floatOfNumber b
    powFloats x y
  | _, _ => .error (.operands "** or pow()" v.kind w.kind)

/-- The document with the value under a name replaced by what an operation gives. -/
def changeItem (v : Value) (k : String) (f : Value → Except Fault Value) : Except Fault Value := do
  v.withItem k (← f (← v.item k))

/-- The document with an option put under its name unless there is one. -/
def withDefault (v : Value) (option : String × Value) : Except Fault Value := do
  if ← v.has option.1 then return v else v.withItem option.1 option.2

def withDefaults (options : Table Value) (v : Value) : Except Fault Value :=
  options.foldlM withDefault v

/-- A document, or an empty table in the place of one that is empty or missing. -/
def orEmpty (v : Value) : Value :=
  if v.isTrue then v else .dict []

@[simp] theorem item_dict (es : Table Value) (k : String) :
    item (.dict es) k = (Table.get? es k).elim (.error (.missingKey k)) .ok := by
  simp only [item]
  cases Table.get? es k <;> rfl

@[simp] theorem has_dict (es : Table Value) (k : String) :
    has (.dict es) k = .ok (Table.has es k) := rfl

end GzLang.Value
