import GzLang.Machine.Program
import GzLang.Proofs.Action

/-!
# What the operations of a machine do

One lemma for each operation, in the form that proofs about runs rewrite with. A call of a known
function is its body between binding the parameters and putting back the variables
(`perform_callAt_succ`).
-/

namespace GzLang

open Action

variable {m : Machine} {name : String}
variable {f : Function} {source : String}

@[simp] theorem perform_lookup (name : String) (m : Machine) :
    (Machine.lookup name).perform m = (.ok (Table.get? m.bindings name), m) := rfl

@[simp] theorem perform_assign (name : String) (v : Value) (m : Machine) : (Machine.assign name v).perform m =
      (.ok ⟨⟩, { m with bindings := Table.put m.bindings name v }) := rfl

@[simp] theorem perform_atLine (n : Nat) (m : Machine) :
    (Machine.atLine n).perform m = (.ok ⟨⟩, { m with line := n }) := rfl

theorem perform_orVariable_some {v : Value} (h : Table.get? m.bindings source = some v) (other : Run Value) :
    (orVariable source other).perform m = (.ok v, m) := by
  unfold orVariable
  rw [bind_of_ok (perform_lookup source m), h]
  rfl

theorem perform_orVariable_none (h : Table.get? m.bindings source = none) (other : Run Value) :
    (orVariable source other).perform m = other.perform m := by
  unfold orVariable
  rw [bind_of_ok (perform_lookup source m), h]

theorem perform_callAt_none (hf : Table.get? m.functions name = none) (depth : Nat) (args : List Value) :
    (callAt depth name args).perform m = (reportUndefined name).perform m := by
  unfold callAt
  rw [bind_get, hf]

theorem perform_callAt_zero (hf : Table.get? m.functions name = some f) (args : List Value) :
    (callAt 0 name args).perform m = (.error .tooDeep, m) := by
  unfold callAt
  rw [bind_get, hf]
  rfl

theorem perform_callAt_invoke (hf : Table.get? m.functions name = some f) (depth : Nat) (args : List Value) :
    (callAt (depth + 1) name args).perform m = (invoke (callAt depth) f args).perform m := by
  rw [callAt, bind_get, hf]

/-- A call runs the body with the parameters bound and puts back the variables. -/
theorem perform_callAt_succ (hf : Table.get? m.functions name = some f) (depth : Nat) (args : List Value) :
    (callAt (depth + 1) name args).perform m = match (execBlock (callAt depth) f.body).perform
          { m with bindings := bindParams f.params args m.bindings } with
      | (.ok v, m') => (.ok v, { m' with bindings := m.bindings })
      | (.error e, m') => (.error e, m') := by
  rw [perform_callAt_invoke hf, invoke, bind_get, bind_of_ok (perform_modify _ m), perform_bind]
  rcases (execBlock (callAt depth) f.body).perform _ with ⟨e | v, m'⟩ <;> rfl

theorem perform_callKnown (call : Caller) (name : String) (args : List Value) (m : Machine) :
    (callKnown call name args).perform m =
      (if Table.has m.functions name then call name args else reportUndefined name).perform m := by
  rw [callKnown, bind_get]

/-- A definition that goes well is followed by the lines behind its body. -/
theorem perform_runLines_of_definition {l : Line} {rest : List Line}
    {params : List String} {m n : Machine} (hl : definition? l.content = some (name :: params))
    (hdef : (define name ⟨params, Line.block l.indent rest⟩).perform { m with line := l.number } =
      (.ok (), n)) :
    (runLines (l :: rest)).perform m = (runLines (Line.afterBlock l.indent rest)).perform n := by
  rw [runLines, bind_of_ok (perform_atLine l.number m), hl]
  dsimp only
  rw [bind_of_ok hdef]

end GzLang
