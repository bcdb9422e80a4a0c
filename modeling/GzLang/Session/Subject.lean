import GzLang.Text.Segment
import GzLang.Value.Document
import GzLang.Value.View
import GzLang.World

/-!
# Driving a component by name

A subject says how a component is driven from outside: how one is made from options, which
operations it has, and which fields can be read and set. A component inside another one is reached
by a path: the operation `a.f` of a component is the operation `f` of its part `a`.
-/

namespace GzLang.Session

structure Args where
  positional : List Value := []
  named : Table Value := []

def Args.get (a : Args) (i : Nat) (name : String) (other : Value := .null) : Value :=
  match a.positional[i]? with
  | some v => v
  | none => (Table.get? a.named name).getD other

instance : CoeFun Args fun _ => Nat → String → Value := ⟨fun a i k => a.get i k⟩

def Args.text (a : Args) (i : Nat) (name operation : String) : Except Fault String :=
  (a i name).text operation

def Args.int (a : Args) (i : Nat) (name : String) (other : Int) : Int :=
  match a i name with
  | .int i => i
  | .bool b => if b then 1 else 0
  | _ => other

/-- A field that can be read and perhaps set. -/
structure Field (σ : Type) where
  name : String
  get : σ → Value
  set : Value → σ → σ := fun _ s => s

structure Member (σ : Type) where
  name : String
  view : σ → Value
  assign : Value → σ → σ
  call : String → Args → Task σ Value

structure Subject (σ : Type) where
  make : Value → Job σ
  call : String → Args → Task σ Value
  fields : List (Field σ) := []
  members : List (Member σ) := []

def done (t : Task σ Unit) : Task σ Value := do
  t
  return .null

/-- The fault of an operation or a field that a component does not have. -/
def unknown (name : String) : Task σ α :=
  throw (.noOperation (.object "object") name)

def readOnly (name : String) (get : σ → Value) : Field σ := { name, get }

def after? (front s : String) : Option String :=
  (Text.literal? front.toList s.toList).map String.ofList

def pathNames (path : String) : List String :=
  (Text.splitAll ['.'] path.toList).map String.ofList

/-- The entry that names the class of a component in a view. -/
def classKey : String := "$class"

namespace Subject

def view (sub : Subject σ) (s : σ) : Value :=
  .dict (sub.fields.map (fun f => (f.name, f.get s)) ++ sub.members.map fun m => (m.name, m.view s))

def assign (sub : Subject σ) (name : String) (v : Value) (s : σ) : σ :=
  match sub.fields.find? (·.name == name), sub.members.find? (·.name == name) with
  | some f, _ => f.set v s
  | none, some m => m.assign v s
  | none, none => s

/-- Carry out an operation, perhaps that of a member. -/
def invoke (sub : Subject σ) (name : String) (a : Args) : Task σ Value :=
  match sub.members.findSome? fun m => (after? (m.name ++ ".") name).map (m, ·) with
  | some (m, n) => m.call n a
  | none => sub.call name a

/-- A component as a member of another, where it may be missing. -/
def within (sub : Subject τ) (name cls : String) (p : Part σ (Option τ)) : Member σ where
  name
  view s :=
    match p.get s with
    | some x => .dict ((classKey, .str cls) :: (sub.view x).asTable)
    | none => .null
  assign v s :=
    p.set ((p.get s).map fun x => v.asTable.foldl (fun x e => sub.assign e.1 e.2 x) x) s
  call n a := do
    match ← Task.ifThere p (sub.invoke n a) with
    | some v => return v
    | none => throw (.noOperation .null n)

end Subject

def always (get : σ → τ) (set : τ → σ → σ) : Part σ (Option τ) :=
  ⟨fun s => some (get s), fun x s => (x.map (set · s)).getD s⟩

def walk (v : Value) : List String → Except Fault Value
  | [] =>
    match v.field classKey with
    | .str cls => .ok (.object cls)
    | _ => .ok v
  | k :: ks =>
    match v with
    | .dict es =>
      match Table.get? es k with
      | some x => walk x ks
      | none =>
        .error (if Table.has es classKey then .noOperation (.object "object") k else .missingKey k)
    | .list xs | .tuple xs =>
      match k.toNat?.bind (xs[·]?) with
      | some x => walk x ks
      | none => .error .noElement
    | v => .error (.noOperation v.kind k)

def putAt (v x : Value) : List String → Value
  | [] => x
  | k :: ks =>
    match v with
    | .dict es => .dict (Table.put es k (putAt ((Table.get? es k).getD .null) x ks))
    | .list xs =>
      match k.toNat? with
      | some i => .list (xs.mapIdx fun j y => if i = j then putAt y x ks else y)
      | none => v
    | v => v

end GzLang.Session
