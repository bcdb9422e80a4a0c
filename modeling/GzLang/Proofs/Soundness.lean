import GzLang.Proofs.Drawn
import GzLang.Proofs.Shallow

/-!
# What every run keeps

A run is sound (`Sound`) if from machines with a property it ends in such a machine, with a good result, or
with a fault that may be. This goes through sequences, and from calls to expressions and blocks, if what the
steps need is true of the property (`Evaluable`, `Executable`).
-/

namespace GzLang

open GzLang.Action Value

variable {α β : Type} {I : Machine → Prop} {E : Fault → Machine → Prop}

/-- Every run from a machine with a property ends with a good result and keeps the property, or ends with a
fault that may be. -/
def Sound (I : Machine → Prop) (E : Fault → Machine → Prop) (P : α → Prop) (a : Run α) : Prop :=
  ∀ ⦃m⦄, I m → match a.perform m with
    | (.ok x, n) => P x ∧ I n
    | (.error f, n) => E f n

variable {P : α → Prop} {Q : β → Prop} {G : Value → Prop} {call : Caller}

theorem sound_pure {x : α} (h : P x) : Sound I E P (pure x) := fun _ hm => ⟨h, hm⟩

theorem sound_modify {f : Machine → Machine} (hf : ∀ m, I m → I (f m)) :
    Sound I E (fun _ => True) (modify f) := fun m hm => ⟨trivial, hf m hm⟩

theorem sound_throw {f : Fault} (h : ∀ m, I m → E f m) : Sound I E P (throw f) := h

theorem Sound.bind {a : Run α} {f : α → Run β} (ha : Sound I E P a)
    (hf : ∀ x, P x → Sound I E Q (f x)) : Sound I E Q (a >>= f) := by
  intro m hm
  have hend := ha hm
  rcases h : a.perform m with ⟨e | x, n⟩ <;> rw [h] at hend
  · rw [bind_of_error h]
    exact hend
  · rw [bind_of_ok h]
    exact hf x hend.1 hend.2

theorem sound_get {f : Machine → Run α} (h : ∀ m, I m → Sound I E P (f m)) : Sound I E P (get >>= f) :=
  fun m hm => h m hm hm

theorem sound_mapM {f : α → Run β} {l : List α} (h : ∀ x ∈ l, Sound I E Q (f x)) :
    Sound I E (fun ys => ∀ y ∈ ys, Q y) (l.mapM f) := by
  induction l with
  | nil => exact sound_pure (List.forall_mem_nil _)
  | cons x l ih =>
    rw [List.mapM_cons]
    rw [List.forall_mem_cons] at h
    exact h.1.bind fun y hy => (ih h.2).bind fun ys hys =>
      sound_pure (List.forall_mem_cons.2 ⟨hy, hys⟩)

/-! ### Expressions -/

/-- A property of machines that evaluation keeps, and one of values that it gives. -/
structure Evaluable (I : Machine → Prop) (E : Fault → Machine → Prop) (G : Value → Prop) : Prop where
  quiet {m : Machine} (line : Nat) (out err : String) :
    I m → I { m with line := line, out := out, err := err }
  fault {m : Machine} {f : Fault} : f.label ∈ valueFaults → I m → E f m
  scalar {v : Value} : v.IsScalar → G v
  lookup {m : Machine} {x : String} {v : Value} : I m → Table.get? m.bindings x = some v → G v
  apply (op : Operator) {v w u : Value} : G v → G w → op.apply v w = .ok u → G u

/-- Calls on good values are sound. -/
abbrev SoundCalls (I : Machine → Prop) (E : Fault → Machine → Prop) (G : Value → Prop) (call : Caller) :
    Prop :=
  ∀ name args, (∀ v ∈ args, G v) → Sound I E G (call name args)

namespace Evaluable

variable (h : Evaluable I E G)

include h

theorem sound_ofExcept {e : Except Fault α} (he : Mild e) (hP : ∀ x, e = .ok x → P x) :
    Sound I E P (Action.ofExcept e) := by
  cases e with
  | ok x => exact sound_pure (hP x rfl)
  | error f => exact sound_throw fun m => h.fault (he f rfl)

theorem sound_report (message : String) : Sound I E G (do Machine.report message; return .null) :=
  (sound_modify fun _ hm => h.quiet _ _ _ hm).bind fun _ _ => sound_pure (h.scalar trivial)

theorem sound_orVariable {other : Run Value} (ho : Sound I E G other) (source : String) :
    Sound I E G (orVariable source other) := by
  intro m hm
  cases hv : Table.get? m.bindings source with
  | none =>
    rw [perform_orVariable_none hv]
    exact ho hm
  | some v =>
    rw [perform_orVariable_some hv]
    exact ⟨h.lookup hm hv, hm⟩

omit h in
theorem sound_evalAll {es : List Expr} (hes : ∀ e ∈ es, Sound I E G (e.eval call)) :
    Sound I E (fun vs => ∀ v ∈ vs, G v) (Expr.evalAll call es) := by
  induction es with
  | nil =>
    rw [Expr.evalAll]
    exact sound_pure (List.forall_mem_nil _)
  | cons e es ih =>
    rw [Expr.evalAll]
    rw [List.forall_mem_cons] at hes
    exact hes.1.bind fun v hv => (ih hes.2).bind fun vs hvs =>
      sound_pure (List.forall_mem_cons.2 ⟨hv, hvs⟩)

theorem sound_eval (hcall : SoundCalls I E G call) {s : List Char} {e : Expr} (he : e.DrawnFrom s) :
    Sound I E G (e.eval call) := by
  induction he with
  | text t => rw [Expr.eval]; exact sound_pure (h.scalar trivial)
  | digits t =>
    rw [Expr.eval]
    exact (h.sound_ofExcept (mild_integer t) fun _ _ => trivial).bind fun i _ =>
      sound_pure (h.scalar trivial)
  | constant hv => rw [Expr.eval]; exact sound_pure (h.scalar hv)
  | @call source name args _ _ ih =>
    rw [Expr.eval]
    refine h.sound_orVariable ((sound_evalAll ih).bind fun vs hvs => sound_get fun m _ => ?_) source
    split
    · exact hcall name vs hvs
    · exact h.sound_report _
  | @binary source op l r _ _ ihl ihr =>
    rw [Expr.eval]
    exact h.sound_orVariable (ihl.bind fun v hv => ihr.bind fun w hw =>
      h.sound_ofExcept (mild_apply op v w) fun _ => h.apply op hv hw) source
  | @other source =>
    rw [Expr.eval]
    exact h.sound_orVariable (h.sound_report _) source

theorem sound_evaluate (hcall : SoundCalls I E G call) (s : List Char) : Sound I E G (evaluate call s) :=
  h.sound_eval hcall (Expr.drawnFrom_parse (Text.drawnFrom_of_isInfix (List.infix_refl s)))

theorem sound_evalPrintArgs (hcall : SoundCalls I E G call) (s : List Char) :
    Sound I E (fun vs => ∀ v ∈ vs, G v) (evalPrintArgs call s) := by
  refine sound_mapM fun a _ => ?_
  cases a with
  | text t => exact sound_pure (h.scalar trivial)
  | expr e => exact h.sound_evaluate hcall e

/-! ### Blocks -/

theorem sound_write (s : String) : Sound I E (fun _ => True) (Machine.write s) :=
  sound_modify fun _ hm => h.quiet _ _ _ hm

theorem sound_printLine (vs : List Value) : Sound I E (fun _ => True) (printLine vs) := by
  refine Sound.bind (P := fun _ => True) ?_ fun _ _ => h.sound_write _
  induction vs with
  | nil => exact sound_pure trivial
  | cons v vs ih =>
    have hv := (h.sound_ofExcept (P := fun _ => True) (mild_display v) fun _ _ => trivial).bind
      fun s _ => h.sound_write s
    cases vs with
    | nil => exact hv
    | cons w vs =>
      unfold printValues
      simpa only [bind_assoc] using hv.bind fun _ _ => (h.sound_write _).bind fun _ _ => ih

end Evaluable

/-- Setting a variable to a good value keeps the property as well. -/
structure Executable (I : Machine → Prop) (E : Fault → Machine → Prop) (G : Value → Prop) : Prop
    extends Evaluable I E G where
  assign {m : Machine} (x : String) {v : Value} : G v → I m → I { m with bindings := m.bindings.put x v }

namespace Executable

variable (h : Executable I E G)

include h

theorem sound_assign (x : String) {v : Value} (hv : G v) : Sound I E (fun _ => True) (Machine.assign x v) :=
  sound_modify fun _ => h.assign x hv

theorem sound_repeatBlock (x : String) {body : Run Value} (hbody : Sound I E G body) (count : Nat)
    (i : Int) : Sound I E G (repeatBlock x body count i) := by
  induction count generalizing i with
  | zero => exact sound_pure (h.scalar trivial)
  | succ count ih =>
    refine (h.sound_assign x (h.scalar (v := .int i) trivial)).bind fun _ _ => hbody.bind fun v hv => ?_
    split
    · exact ih (i + 1)
    · exact sound_pure hv

theorem sound_execBlock (hcall : SoundCalls I E G call) (block : List Line) : Sound I E G (execBlock call block) := by
  induction hn : block.length using Nat.strongRecOn generalizing block with
  | ind n ih =>
    cases block with
    | nil =>
      rw [execBlock]
      exact sound_pure (h.scalar trivial)
    | cons l rest =>
      have hsub {b : List Line} (hb : List.Sublist b rest) : Sound I E G (execBlock call b) :=
        ih _ (by simpa [← hn] using Nat.lt_succ_of_le hb.length_le) b rfl
      have hnext := hsub (List.Sublist.refl _)
      have hin := hsub (List.takeWhile_sublist fun k => decide (l.indent < k.indent))
      have hafter := hsub (List.dropWhile_sublist fun k => decide (l.indent < k.indent))
      have hthen (r : Value) (hr : G r) : Sound I E G
          (if r.isNull then execBlock call (Line.afterBlock l.indent rest) else return r) := by
        split
        · exact hafter
        · exact sound_pure hr
      rw [execBlock]
      refine (sound_modify fun _ hm => h.quiet _ _ _ hm).bind fun _ _ => ?_
      cases hs : Statement.parse l.content.toList with
      | giveBack e =>
        dsimp only
        split
        · exact sound_pure (h.scalar trivial)
        · exact h.sound_evaluate hcall e
      | print args =>
        exact (h.sound_evalPrintArgs hcall args).bind fun vs _ =>
          (h.sound_printLine vs).bind fun _ _ => hnext
      | branch c =>
        refine (h.sound_evaluate hcall c).bind fun v _ => ?_
        split
        · exact hin.bind hthen
        · exact hafter
      | loop x bounds =>
        exact (h.sound_ofExcept (P := fun _ => True) (mild_of_parse hs) fun _ _ => trivial).bind
          fun p _ => (h.sound_repeatBlock x hin _ _).bind hthen
      | assign x e =>
        exact (h.sound_evaluate hcall e).bind fun v hv => (h.sound_assign x hv).bind fun _ _ => hnext
      | evaluate e => exact (h.sound_evaluate hcall e).bind fun _ _ => hnext
      | skip => exact hnext

end Executable

end GzLang
