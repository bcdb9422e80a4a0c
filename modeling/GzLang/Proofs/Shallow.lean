import GzLang.Proofs.Machine
import GzLang.Proofs.Reading

/-!
# Faults of values

Values fail in many ways: what is done with them, shown of them or read as a number. But the faults are
of few kinds (`Mild`), and values never fail for the depth of calls (`Shallow`), so the fault of depth
can be told from all others.
-/

namespace GzLang

open Value Statement

def Shallow {α : Type} (e : Except Fault α) : Prop :=
  ∀ f, e = .error f → f ≠ .tooDeep

def valueFaults : List String :=
  ["TypeError", "ValueError", "ZeroDivisionError", "OverflowError", "MemoryError"]

def Mild {α : Type} (e : Except Fault α) : Prop :=
  ∀ f, e = .error f → f.label ∈ valueFaults

variable {α β : Type}

theorem Mild.shallow {e : Except Fault α} (h : Mild e) : Shallow e := by
  rintro f hf rfl
  have hlabel := h _ hf
  revert hlabel
  decide

theorem mild_ok (x : α) : Mild (.ok x) := by
  rintro f ⟨⟩

theorem mild_error {f : Fault} (hf : valueFaults.contains f.label) : Mild (.error f : Except Fault α) := by
  rintro g ⟨⟩
  exact List.contains_iff_mem.1 hf

theorem Mild.bind {e : Except Fault α} {k : α → Except Fault β} (he : Mild e)
    (hk : ∀ x, Mild (k x)) : Mild (e >>= k) := by
  cases e with
  | ok x => exact hk x
  | error f =>
    rintro g ⟨⟩
    exact he f rfl

theorem Mild.map {e : Except Fault α} (he : Mild e) (k : α → β) : Mild (e.map k) := by
  cases e with
  | ok x => exact mild_ok _
  | error f =>
    rintro g ⟨⟩
    exact he f rfl

theorem mild_floatOfNumber (a : Number) : Mild (floatOfNumber a) := by
  cases a with
  | float x => exact mild_ok x
  | int i =>
    change Mild (floatOfInt i)
    unfold floatOfInt
    split
    · exact mild_ok _
    · exact mild_error rfl

theorem mild_arithmetic (f : Int → Int → Int) (g : Float → Float → Float) (a b : Number) :
    Mild (arithmetic f g a b) := by
  unfold arithmetic
  split
  · exact mild_ok _
  · exact (mild_floatOfNumber _).bind fun _ => (mild_floatOfNumber _).bind fun _ => mild_ok _

theorem mild_add (v w : Value) : Mild (v.add w) := by
  unfold add
  split
  · exact mild_ok _
  · exact mild_ok _
  · exact mild_ok _
  · split
    · exact mild_arithmetic _ _ _ _
    · split <;> exact mild_error rfl

theorem mild_sub (v w : Value) : Mild (v.sub w) := by
  unfold sub
  split
  · exact mild_arithmetic _ _ _ _
  · exact mild_error rfl

theorem mild_repetitions (length : Nat) (count : Value) : Mild (repetitions length count) := by
  unfold repetitions
  split
  · exact mild_error rfl
  · split
    · exact mild_error rfl
    · dsimp only
      split
      · exact mild_error rfl
      · split
        · exact mild_error rfl
        · exact mild_ok _

theorem mild_mul (v w : Value) : Mild (v.mul w) := by
  have hrepeat (n : Nat) (c : Value) (k : Nat → Value) : Mild (repetitions n c >>= fun i => return k i) :=
    (mild_repetitions n c).bind fun _ => mild_ok _
  unfold mul
  split
  iterate 6 exact hrepeat _ _ _
  split
  · exact mild_arithmetic _ _ _ _
  · exact mild_error rfl

theorem mild_div (v w : Value) : Mild (v.div w) := by
  unfold div
  split
  · refine Mild.map ?_ _
    unfold divNumbers
    split
    · unfold divInts
      split
      · exact mild_error rfl
      · split
        · exact mild_ok _
        · exact mild_error rfl
    · refine (mild_floatOfNumber _).bind fun _ => (mild_floatOfNumber _).bind fun _ => ?_
      split
      · exact mild_error rfl
      · exact mild_ok _
  · exact mild_error rfl

theorem mild_relate (r : Value.Relation) (v w : Value) : Mild (relate r v w) := by
  refine (relate.mutual_induct (fun v w => Mild (relate r v w))
    (fun xs ys => Mild (relateLists r xs ys)) ?_ ?_ ?_ ?_ ?_ ?_ ?_ ?_).1 v w
  case refine_1 =>
    intro s t
    rw [relate]
    exact mild_ok _
  case refine_2 | refine_3 =>
    intro xs ys ih
    rw [relate]
    exact ih
  case refine_4 =>
    intro v w hstr hlist htuple a b hb ha
    rw [relate, ha, hb]
    · exact mild_ok _
    · exact hstr
    · exact hlist
    · exact htuple
  case refine_5 =>
    intro v w hstr hlist htuple hnone
    rw [relate]
    · split
      · rename_i a b ha hb
        exact absurd hb (hnone a b ha)
      · exact mild_error rfl
    · exact hstr
    · exact hlist
    · exact htuple
  case refine_6 =>
    intro x xs y ys heq ih
    rw [relateLists, if_pos heq]
    exact ih
  case refine_7 =>
    intro x xs y ys hne ih
    rw [relateLists, if_neg hne]
    exact ih
  case refine_8 =>
    intro xs ys h
    rw [relateLists]
    · exact mild_ok _
    · exact h

theorem mild_apply (op : Operator) (v w : Value) : Mild (op.apply v w) := by
  cases op with
  | add => exact mild_add v w
  | sub => exact mild_sub v w
  | mul => exact mild_mul v w
  | div => exact mild_div v w
  | eq | ne => exact mild_ok _
  | le | ge | lt | gt => exact (mild_relate _ v w).map _

theorem mild_inner (v : Value) : Mild v.inner := by
  refine (Value.inner.mutual_induct (fun v => Mild v.inner)
    (fun es => Mild (innerEntries es)) (fun xs => Mild (innerList xs))
    (mild_ok _) (fun _ => mild_ok _) ?_ (fun _ => mild_ok _) (fun _ => mild_ok _)
    (fun _ => mild_ok _) (fun _ => mild_ok _) ?_ ?_ ?_ (mild_ok _) ?_ (mild_ok _) ?_).1 v
  case refine_1 =>
    intro i
    rw [Value.inner]
    unfold intText
    dsimp only
    split
    · exact mild_error rfl
    · exact mild_ok _
  case refine_2 | refine_4 =>
    intro xs ih
    rw [Value.inner]
    exact ih.bind fun _ => mild_ok _
  case refine_3 =>
    intro xs ih
    rw [Value.inner]
    refine ih.bind fun ts => ?_
    split <;> exact mild_ok _
  case refine_5 =>
    intro x xs hx ih
    rw [innerList]
    exact hx.bind fun _ => ih.bind fun _ => mild_ok _
  case refine_6 =>
    intro k v es hv ih
    rw [innerEntries]
    exact hv.bind fun _ => ih.bind fun _ => mild_ok _

theorem mild_display (v : Value) : Mild v.display := by
  unfold display
  split
  · exact mild_ok _
  · exact mild_ok _
  · exact mild_inner _

theorem mild_integer (s : List Char) : Mild (integer s) := by
  unfold integer
  split
  · exact mild_ok _
  · exact mild_error rfl
  · exact mild_error rfl

theorem mild_bounds (first second : List Char) : Mild (bounds first second) := by
  have hboth (a b : List Char) : Mild (do
      let lo ← integer a
      let hi ← integer b
      return (lo, hi)) :=
    (mild_integer a).bind fun _ => (mild_integer b).bind fun _ => mild_ok _
  unfold bounds
  split
  · split
    · exact hboth _ _
    · exact mild_error rfl
  · exact hboth _ _

/-- The bounds of a loop fail as values do. -/
theorem mild_of_parse {s : List Char} {x : String} {bounds : Except Fault (Int × Int)}
    (h : parse s = .loop x bounds) : Mild bounds := by
  have hs := spells_parse s
  rw [h] at hs
  cases hs
  exact mild_bounds _ _

end GzLang
