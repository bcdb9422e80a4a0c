import Mathlib
import GzLang.Proofs.Soundness

/-!
# Calls keep the scope

Evaluating an expression or the arguments of a print statement, and calling a function, leave the
variables and the functions of the machine as they were, whenever they end with a value
(`scope_after_evaluation`). Inside a call the variables do change: the body keeps the functions
only (`keeps_execBlock`), and it is `invoke` that puts the variables back. So the two views are
carried through one induction on the depth of calls (`keeps_scope_callAt`).
-/

namespace GzLang

open GzLang.Action Machine

variable {call : Caller}

def Machine.scope (m : Machine) : Table Value × Table Function :=
  (m.bindings, m.functions)

theorem keeps_iff_sound {τ α : Type} {view : Machine → τ} {a : Run α} :
    Keeps view a ↔ ∀ v, Sound (view · = v) (fun _ _ => True) (fun _ => True) a := by
  constructor
  · rintro h v m rfl
    rcases hm : a.perform m with ⟨_ | x, n⟩
    · trivial
    · exact ⟨trivial, h hm⟩
  · intro h m x n hm
    have hend := h (view m) rfl
    rw [hm] at hend
    exact hend.2

theorem evaluable_view {τ : Type} (view : Table Value × Table Function → τ) (v : τ) :
    Evaluable (fun m : Machine => view m.scope = v) (fun _ _ => True) fun _ => True :=
  ⟨fun _ _ _ h => h, fun _ _ => trivial, fun _ => trivial, fun _ _ => trivial, fun _ _ _ _ _ _ _ => trivial⟩

theorem keeps_evaluate (hcall : ∀ name args, Keeps scope (call name args))
    (s : List Char) : Keeps scope (evaluate call s) :=
  keeps_iff_sound.2 fun v => (evaluable_view id v).sound_evaluate
    (fun name args _ => keeps_iff_sound.1 (hcall name args) v) s

theorem keeps_evalPrintArgs (hcall : ∀ name args, Keeps scope (call name args)) (s : List Char) :
    Keeps scope (evalPrintArgs call s) := by
  refine keeps_iff_sound.2 fun v m hm => ?_
  have hend := (evaluable_view id v).sound_evalPrintArgs (fun name args _ => keeps_iff_sound.1 (hcall name args) v) s hm
  split <;> simp_all

/-- A block keeps the functions, whatever it does to the variables. -/
theorem keeps_execBlock (hcall : ∀ name args, Keeps functions (call name args)) (block : List Line) :
    Keeps functions (execBlock call block) :=
  keeps_iff_sound.2 fun t => Executable.sound_execBlock ⟨evaluable_view Prod.snd t, fun _ _ _ h => h⟩
    (fun name args _ => keeps_iff_sound.1 (hcall name args) t) block

/-- A call puts back the variables that were there before it, whatever its body did to them. -/
theorem keeps_scope_invoke (hcall : ∀ name args, Keeps functions (call name args))
    (f : Function) (args : List Value) : Keeps scope (invoke call f args) := by
  intro m v m' h
  unfold invoke at h
  obtain ⟨_, _, h1, h⟩ := bind_eq_ok.1 h
  cases h1
  obtain ⟨_, _, h1, h⟩ := bind_eq_ok.1 h
  cases h1
  obtain ⟨w, m2, h2, h⟩ := bind_eq_ok.1 h
  obtain ⟨_, _, h1, h⟩ := bind_eq_ok.1 h
  cases h1
  cases h
  have hf := keeps_execBlock hcall f.body h2
  simpa [scope] using hf

theorem keeps_scope_callAt (depth : Nat) (name : String) (args : List Value) :
    Keeps scope (callAt depth name args) := by
  have hundefined {name : String} : Keeps scope (reportUndefined name) :=
    keeps_iff_sound.2 fun v => ((evaluable_view id v).sound_report _)
  induction depth generalizing name args with
  | zero =>
    unfold callAt
    refine keeps_get.bind fun m => ?_
    split
    · exact hundefined
    · exact keeps_throw _
  | succ depth ih =>
    unfold callAt
    refine keeps_get.bind fun m => ?_
    split
    · exact hundefined
    · refine keeps_scope_invoke (fun name args m v m' h => ?_) _ _
      exact congrArg Prod.snd (ih name args h)

/-- **Evaluating keeps the scope.** An expression, the arguments of a print statement and a call
each leave the variables and the functions as they were, whenever they end with a value, whatever
calls, loops and assignments run inside. -/
theorem scope_after_evaluation (depth : Nat) (m m' : Machine) :
    (∀ s v, (evaluate (callAt depth) s).perform m = (.ok v, m') →
      m'.bindings = m.bindings ∧ m'.functions = m.functions) ∧
    (∀ s vs, (evalPrintArgs (callAt depth) s).perform m = (.ok vs, m') →
      m'.bindings = m.bindings ∧ m'.functions = m.functions) ∧
    (∀ name args v, (callAt depth name args).perform m = (.ok v, m') →
      m'.bindings = m.bindings ∧ m'.functions = m.functions) := by
  have hcall := keeps_scope_callAt depth
  refine ⟨fun s v h => ?_, fun s vs h => ?_, fun name args v h => ?_⟩
  · exact Prod.mk.inj (keeps_evaluate hcall s h)
  · exact Prod.mk.inj (keeps_evalPrintArgs hcall s h)
  · exact Prod.mk.inj (hcall name args h)

theorem scope_after_call_of_setter :
    let m : Machine :=
      { bindings := [("n", .int 7)]
        functions := [("f", ⟨["n"], [⟨2, 4, "x = n"⟩, ⟨3, 4, "balik x"⟩]⟩)] }
    ∃ m', (callAt 1 "f" [.int 2]).perform m = (.ok (.int 2), m') ∧
      m'.bindings = m.bindings ∧ m'.functions = m.functions := by
  intro m
  have h : (callAt 1 "f" [.int 2]).perform m = (.ok (.int 2), { m with line := 3 }) := by cbv
  exact ⟨_, h, (scope_after_evaluation 1 m _).2.2 _ _ _ h⟩

end GzLang
