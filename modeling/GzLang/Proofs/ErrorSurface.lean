import GzLang.Proofs.Definitions
import GzLang.Proofs.Tables

/-!
# What runs can fail with

A program fails only as values fail, or for the depth of its calls, and the values that it computes with
are scalars. The operators on scalars give scalars (`scalars_apply`), so runs are sound for machines whose
variables are scalars: blocks (`executable_scalar`), calls (`sound_callAt`) and programs (`sound_runLines`).
-/

namespace GzLang

open GzLang.Action Value

variable {α : Type} {call : Caller} {v w : Value}

/-! ### Operators on scalars -/

/-- A computation gives a scalar if it gives anything. -/
def Scalars (e : Except Fault Value) : Prop := ∀ u, e = .ok u → u.IsScalar

theorem scalars_ok (h : v.IsScalar) : Scalars (.ok v) := by
  rintro _ ⟨⟩
  exact h

theorem scalars_error (f : Fault) : Scalars (.error f) := nofun

theorem scalars_bind {e : Except Fault α} {k : α → Except Fault Value} (h : ∀ x, Scalars (k x)) :
    Scalars (e >>= k) := by
  cases e with
  | ok x => exact h x
  | error f => exact scalars_error f

theorem scalars_map {e : Except Fault α} {k : α → Value} (h : ∀ x, (k x).IsScalar) : Scalars (e.map k) := by
  cases e with
  | ok x => exact scalars_ok (h x)
  | error f => exact scalars_error f

theorem scalars_arithmetic (f : Int → Int → Int) (g : Float → Float → Float) (a b : Number) :
    Scalars (arithmetic f g a b) := by
  unfold arithmetic
  split
  · exact scalars_ok trivial
  · exact scalars_bind fun _ => scalars_bind fun _ => scalars_ok trivial

theorem scalars_add (hv : v.IsScalar) : Scalars (v.add w) := by
  unfold add
  split
  · exact scalars_ok trivial
  · cases hv
  · cases hv
  · split
    · exact scalars_arithmetic _ _ _ _
    · split <;> exact scalars_error _

theorem scalars_mul (hv : v.IsScalar) (hw : w.IsScalar) : Scalars (v.mul w) := by
  unfold mul
  split
  · exact scalars_bind fun _ => scalars_ok trivial
  · cases hv
  · cases hv
  · exact scalars_bind fun _ => scalars_ok trivial
  · cases hw
  · cases hw
  · split
    · exact scalars_arithmetic _ _ _ _
    · exact scalars_error _

theorem scalars_apply (op : Operator) (hv : v.IsScalar) (hw : w.IsScalar) : Scalars (op.apply v w) := by
  cases op with
  | add => exact scalars_add hv
  | mul => exact scalars_mul hv hw
  | sub =>
    change Scalars (sub v w)
    unfold sub
    split
    · exact scalars_arithmetic _ _ _ _
    · exact scalars_error _
  | div =>
    change Scalars (div v w)
    unfold div
    split
    · exact scalars_map fun _ => trivial
    · exact scalars_error _
  | eq | ne => exact scalars_ok trivial
  | le | ge | lt | gt => exact scalars_map (k := .bool) fun _ => trivial

/-! ### Blocks and calls -/

def Machine.Scalar (m : Machine) : Prop := ∀ e ∈ m.bindings, e.2.IsScalar

def runFaults : List String := "RecursionError" :: valueFaults

/-- A run may fail as values do or for the depth of its calls, and then its variables are scalars still. -/
def MayFail (f : Fault) (m : Machine) : Prop := f.label ∈ runFaults ∧ m.Scalar

theorem scalar_put {t : Table Value} (h : ∀ e ∈ t, e.2.IsScalar) (name : String) (hv : v.IsScalar) :
    ∀ e ∈ t.put name v, e.2.IsScalar := by
  intro e he
  rcases Table.mem_put he with he | rfl
  · exact h e he
  · exact hv

theorem executable_scalar : Executable Machine.Scalar MayFail IsScalar where
  quiet _ _ _ h := h
  fault hf h := ⟨List.mem_cons_of_mem _ hf, h⟩
  scalar h := h
  lookup h hv := h _ (Table.mem_of_get?_eq hv)
  apply op _ _ _ hv hw := scalars_apply op hv hw _
  assign x _ hv h := scalar_put h x hv

theorem scalar_bindParams {params : List String} {args : List Value} {t : Table Value}
    (h : ∀ e ∈ t, e.2.IsScalar) (hargs : ∀ v ∈ args, v.IsScalar) :
    ∀ e ∈ bindParams params args t, e.2.IsScalar := by
  fun_induction bindParams params args t with
  | case1 p ps v vs t ih =>
    rw [List.forall_mem_cons] at hargs
    exact ih (scalar_put h p hargs.1) hargs.2
  | case2 => exact h

theorem sound_invoke (hcall : SoundCalls Machine.Scalar MayFail IsScalar call) (f : Function)
    {args : List Value} (hargs : ∀ v ∈ args, v.IsScalar) :
    Sound Machine.Scalar MayFail IsScalar (invoke call f args) := by
  refine sound_get fun m hm => (sound_modify ?_).bind fun _ _ =>
    (executable_scalar.sound_execBlock hcall f.body).bind fun v hv =>
      (sound_modify ?_).bind fun _ _ => sound_pure hv
  · exact fun n hn => scalar_bindParams hn hargs
  · exact fun n _ => hm

theorem sound_callAt (depth : Nat) : SoundCalls Machine.Scalar MayFail IsScalar (callAt depth) := by
  induction depth with
  | zero =>
    intro name args _
    unfold callAt
    refine sound_get fun m _ => ?_
    split
    · exact executable_scalar.sound_report _
    · exact sound_throw fun _ hm => ⟨List.mem_cons_self .., hm⟩
  | succ depth ih =>
    intro name args hargs
    unfold callAt
    refine sound_get fun m _ => ?_
    split
    · exact executable_scalar.sound_report _
    · exact sound_invoke ih _ hargs

/-! ### Programs -/

theorem sound_define (name : String) (f : Function) : Sound Machine.Scalar MayFail (fun _ => True) (define name f) := by
  refine Sound.bind (sound_modify fun _ hm => hm) fun _ _ => sound_get fun m _ => ?_
  split
  · exact (executable_scalar.sound_assign (v := .bool true) mainFlag trivial).bind fun _ _ =>
      (sound_callAt maxDepth "main" [] (List.forall_mem_nil _)).bind fun _ _ => sound_pure trivial
  · exact sound_pure trivial

theorem sound_runLines {lines : List Line} (h : Named lines) :
    Sound Machine.Scalar MayFail (fun _ => True) (runLines lines) := by
  fun_induction runLines lines with
  | case1 => exact sound_pure trivial
  | case2 l rest ih ih' =>
    refine Sound.bind (sound_modify fun _ hm => hm) fun _ _ => ?_
    cases hd : definition? l.content with
    | none => exact ih h.of_cons
    | some words =>
      cases words with
      | nil => exact absurd hd (h l (List.mem_cons_self ..))
      | cons name params =>
        exact (sound_define name _).bind fun _ _ => ih' (h.of_cons.afterBlock _)

/-- **Errors of a run.** A program run on a fresh machine ends, or fails with one of six kinds of faults,
and its variables are scalars at the end; calls on scalars and blocks give scalars, or fail with these
faults, and leave scalars in the variables. -/
theorem run_fails_as_values_do (code : String) : (((runSource code).perform {}).1 = .ok () ∨
      ∃ f, ((runSource code).perform {}).1 = .error f ∧ f.label ∈ ["RecursionError", "TypeError",
        "ValueError", "ZeroDivisionError", "OverflowError", "MemoryError"]) ∧
    ((runSource code).perform {}).2.Scalar ∧
    ∀ depth, SoundCalls Machine.Scalar MayFail IsScalar (callAt depth) ∧
      ∀ block, Sound Machine.Scalar MayFail IsScalar (execBlock (callAt depth) block) := by
  have hend := sound_runLines (named_ofSource code) (m := {}) (List.forall_mem_nil _)
  have hcalls (depth : Nat) := sound_callAt depth
  rw [runSource]
  rcases h : (runLines (Line.ofSource code)).perform {} with ⟨f | x, m⟩ <;> rw [h] at hend
  · exact ⟨.inr ⟨f, rfl, hend.1⟩, hend.2, fun depth =>
      ⟨hcalls depth, executable_scalar.sound_execBlock (hcalls depth)⟩⟩
  · exact ⟨.inl rfl, hend.2, fun depth =>
      ⟨hcalls depth, executable_scalar.sound_execBlock (hcalls depth)⟩⟩

end GzLang
