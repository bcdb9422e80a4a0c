import GzLang.Action

/-!
# What actions do

`perform` turns an action into a function on states. The lemmas here say what it does with each
way to build an action, so that later proofs follow an action step by step. Six properties of
actions go through sequences, so that they have to be checked for the steps only:

* `Keeps`: a view of the state is the same after every run that ends with a result;
* `Leaves`: a view of the state is the same after every run;
* `Agrees`: two actions do the same from the states with a property;
* `Follows`: one action does what another does, from related states to related states;
* `Tracks`: two actions do the same, faults included, until the first one goes astray;
* `Ends`: an action ends as it should, or fails where it may.
-/

namespace GzLang.Action

variable {σ τ α β : Type}
variable {l : List α}

@[simp] theorem perform_pure (x : α) (s : σ) : (pure x : Action σ α).perform s = (.ok x, s) := rfl

@[simp] theorem perform_ofExcept (e : Except Fault α) (s : σ) : (ofExcept e : Action σ α).perform s = (e, s) := rfl

theorem ofExcept_ok (x : α) : (ofExcept (.ok x) : Action σ α) = pure x := rfl

@[simp] theorem perform_get (s : σ) : (get : Action σ σ).perform s = (.ok s, s) := rfl

@[simp] theorem perform_modify (f : σ → σ) (s : σ) : (modify f : Action σ PUnit).perform s = (.ok ⟨⟩, f s) := rfl

theorem perform_of (f : σ → Except Fault α × σ) (s : σ) : (of f).perform s = f s := rfl

/-- A sequence carries out the first action, and the second one if the first ended with a
result. -/
theorem perform_bind (a : Action σ α) (f : α → Action σ β) (s : σ) : (a >>= f).perform s = match a.perform s with
      | (.ok x, t) => (f x).perform t
      | (.error e, t) => (.error e, t) := by
  show (ExceptT.run (a >>= f)).run s = _
  rw [ExceptT.run_bind]
  show (ExceptT.run a >>= _ : StateM σ _).run s = _
  simp only [StateT.run_bind, perform]
  rcases h : StateT.run (ExceptT.run a) s with ⟨e | x, t⟩ <;> rfl

theorem bind_of_ok {a : Action σ α} {s t : σ} {x : α} (h : a.perform s = (.ok x, t))
    (f : α → Action σ β) : (a >>= f).perform s = (f x).perform t := by
  rw [perform_bind, h]

theorem bind_of_error {a : Action σ α} {s t : σ} {e : Fault} (h : a.perform s = (.error e, t)) (f : α → Action σ β) :
    (a >>= f).perform s = (.error e, t) := by
  rw [perform_bind, h]

theorem bind_get (f : σ → Action σ β) (s : σ) : (get >>= f).perform s = (f s).perform s := bind_of_ok (perform_get s) f

/-- A sequence that ends with a result went through a result of its first action. -/
theorem bind_eq_ok {a : Action σ α} {f : α → Action σ β} {s u : σ} {y : β} : (a >>= f).perform s = (.ok y, u) ↔
      ∃ x t, a.perform s = (.ok x, t) ∧ (f x).perform t = (.ok y, u) := by
  rw [perform_bind]
  rcases a.perform s with ⟨e | x, t⟩
  · simp
  · constructor
    · intro h
      exact ⟨x, t, rfl, h⟩
    · rintro ⟨x', t', h, h'⟩
      cases h
      exact h'

theorem exists_perform {a : Action σ α} {s : σ} {x : α} {P : σ → Prop}
    (h : (a.perform s).1.toOption = some x ∧ P (a.perform s).2) : ∃ t, a.perform s = (.ok x, t) ∧ P t := by
  obtain ⟨hx, hP⟩ := h
  rcases hr : a.perform s with ⟨e | y, t⟩ <;> rw [hr] at hx hP <;> cases hx
  exact ⟨t, rfl, hP⟩

/-! ### Views that actions keep -/

/-- A view of the state is the same after every run that ends with a result. -/
def Keeps (view : σ → τ) (a : Action σ α) : Prop :=
  ∀ ⦃s x t⦄, a.perform s = (.ok x, t) → view t = view s

variable {view : σ → τ}

theorem keeps_throw (f : Fault) : Keeps view (throw f : Action σ α) := by
  intro s y t h
  cases h

theorem keeps_get : Keeps view (get : Action σ σ) := by
  intro s y t h
  cases h
  rfl

theorem Keeps.bind {a : Action σ α} {f : α → Action σ β} (ha : Keeps view a)
    (hf : ∀ x, Keeps view (f x)) : Keeps view (a >>= f) := by
  intro s y u h
  obtain ⟨x, t, h1, h2⟩ := bind_eq_ok.1 h
  rw [hf x h2, ha h1]

/-- Whatever its outcome, an action leaves a view of the state as it is. -/
def Leaves (view : σ → τ) (a : Action σ α) : Prop := ∀ s, view (a.perform s).2 = view s

theorem leaves_pure (x : α) : Leaves view (pure x : Action σ α) := fun _ => rfl

theorem leaves_lift (e : Except Fault α) : Leaves view (liftM e : Action σ α) := fun _ => rfl

/-- What holds of every end of a sequence whose first action leaves a view as it is. -/
theorem Leaves.perform_bind {a : Action σ α} (ha : Leaves view a) (f : α → Action σ β) (s : σ)
    {P : Except Fault β × σ → Prop} (herror : ∀ e t, view t = view s → P (.error e, t))
    (hok : ∀ x t, view t = view s → P ((f x).perform t)) : P ((a >>= f).perform s) := by
  have hview := ha s
  rcases h : a.perform s with ⟨e | x, t⟩
  · rw [bind_of_error h]
    rw [h] at hview
    exact herror e t hview
  · rw [bind_of_ok h]
    rw [h] at hview
    exact hok x t hview

theorem Leaves.bind {a : Action σ α} {f : α → Action σ β} (ha : Leaves view a)
    (hf : ∀ x, Leaves view (f x)) : Leaves view (a >>= f) := fun s =>
  ha.perform_bind f s (P := fun r => view r.2 = view s) (fun _ _ h => h) fun x t h => (hf x t).trans h

/-- What follows an action and leaves a view as it is does not change what the action made of it. -/
theorem view_perform_bind (view : σ → τ) {f : α → Action σ β} (hf : ∀ x, Leaves view (f x)) (a : Action σ α) (s : σ) :
    view ((a >>= f).perform s).2 = view (a.perform s).2 := by
  rcases h : a.perform s with ⟨e | x, t⟩
  · rw [bind_of_error h]
  · rw [bind_of_ok h]
    exact hf x t

theorem Leaves.forM {f : α → Action σ PUnit} (h : ∀ x ∈ l, Leaves view (f x)) : Leaves view (l.forM f) := by
  induction l with
  | nil => exact leaves_pure _
  | cons x l ih =>
    show Leaves view (f x >>= fun _ => l.forM f)
    exact (h x (by simp)).bind fun _ => ih fun y hy => h y (by simp [hy])

/-! ### Actions that agree -/

/-- Two actions do the same from every state with a property, and keep the property. -/
def Agrees (I : σ → Prop) (a b : Action σ α) : Prop :=
  ∀ ⦃s⦄, I s → a.perform s = b.perform s ∧ ∀ ⦃x t⦄, a.perform s = (.ok x, t) → I t

variable {I : σ → Prop}

theorem Agrees.symm {a b : Action σ α} (h : Agrees I a b) : Agrees I b a :=
  fun _ hs => ⟨(h hs).1.symm, fun _ _ ht => (h hs).2 ((h hs).1.trans ht)⟩

theorem Agrees.trans {a b c : Action σ α} (hab : Agrees I a b) (hbc : Agrees I b c) : Agrees I a c :=
  fun _ hs => ⟨(hab hs).1.trans (hbc hs).1, (hab hs).2⟩

theorem agrees_pure (x : α) : Agrees I (pure x) (pure x) := by
  intro s hs
  refine ⟨rfl, fun y t h => ?_⟩
  cases h
  exact hs

theorem agrees_ofExcept (e : Except Fault α) : Agrees I (ofExcept e) (ofExcept e) := by
  intro s hs
  refine ⟨rfl, fun y t h => ?_⟩
  cases h
  exact hs

theorem Agrees.bind {a b : Action σ α} {f g : α → Action σ β} (hab : Agrees I a b)
    (hfg : ∀ x, Agrees I (f x) (g x)) : Agrees I (a >>= f) (b >>= g) := by
  intro s hs
  obtain ⟨he, hk⟩ := hab hs
  rw [perform_bind, perform_bind, ← he]
  rcases h : a.perform s with ⟨e | x, t⟩
  · exact ⟨rfl, by rintro _ _ ⟨⟩⟩
  · exact hfg x (hk h)

/-! ### Actions that track one another -/

def fault? : Except Fault α → Option Fault
  | .ok _ => none
  | .error f => some f

/-- From related states, two actions end alike and in related states, unless the first one goes
astray; then it stays astray. How states are related and what is astray may depend on the fault
that ended the run. -/
structure Tracks (R : Option Fault → σ → σ → Prop) (X : Option Fault → σ → Prop)
    (a b : Action σ α) : Prop where
  astray : ∀ ⦃s⦄, X none s → X (fault? (a.perform s).1) (a.perform s).2
  inStep : ∀ ⦃s t⦄, R none s t → X (fault? (a.perform s).1) (a.perform s).2 ∨
    (b.perform t).1 = (a.perform s).1 ∧ R (fault? (a.perform s).1) (a.perform s).2 (b.perform t).2

section Tracks

variable {R : Option Fault → σ → σ → Prop} {X : Option Fault → σ → Prop}

theorem tracks_pure (x : α) : Tracks R X (pure x : Action σ α) (pure x) := ⟨fun _ h => h, fun _ _ h => .inr ⟨rfl, h⟩⟩

theorem tracks_modify {f g : σ → σ} (hX : ∀ s, X none s → X none (f s)) (hR : ∀ s t, R none s t → R none (f s) (g t)) :
    Tracks R X (modify f : Action σ PUnit) (modify g) :=
  ⟨fun s h => hX s h, fun s t h => .inr ⟨rfl, hR s t h⟩⟩

theorem tracks_get {f g : σ → Action σ α} (hX : ∀ s, X none s → ∃ b, Tracks R X (f s) b)
    (hR : ∀ s t, R none s t → Tracks R X (f s) (g t)) : Tracks R X (get >>= f) (get >>= g) := by
  refine ⟨fun s h => ?_, fun s t h => ?_⟩
  · obtain ⟨b, hb⟩ := hX s h
    rw [bind_get]
    exact hb.astray h
  · rw [bind_get, bind_get]
    exact (hR s t h).inStep h

theorem tracks_throw {f : Fault} (hX : ∀ s, X none s → X (some f) s)
    (hR : ∀ s t, R none s t → X (some f) s ∨ R (some f) s t) :
    Tracks R X (throw f : Action σ α) (throw f) :=
  ⟨fun s h => hX s h, fun s t h => (hR s t h).imp id fun h => ⟨rfl, h⟩⟩

/-- If the first action fails and so goes astray, it does not matter what the second one does. -/
theorem tracks_throw_left {f : Fault} (hX : ∀ s, X none s → X (some f) s)
    (hR : ∀ s t, R none s t → X (some f) s) (b : Action σ α) : Tracks R X (throw f) b :=
  ⟨fun s h => hX s h, fun s t h => .inl (hR s t h)⟩

theorem Tracks.bind {a b : Action σ α} {f g : α → Action σ β} (hab : Tracks R X a b)
    (hfg : ∀ x, Tracks R X (f x) (g x)) : Tracks R X (a >>= f) (b >>= g) := by
  -- once the first action is astray, the second half keeps it there
  have hlost {s : σ} (h : X (fault? (a.perform s).1) (a.perform s).2) :
      X (fault? ((a >>= f).perform s).1) ((a >>= f).perform s).2 := by
    rw [perform_bind]
    rcases ha : a.perform s with ⟨e | x, s'⟩ <;> rw [ha] at h
    · exact h
    · exact (hfg x).astray h
  refine ⟨fun s h => hlost (hab.astray h), fun s t h => ?_⟩
  rcases hab.inStep h with hX | ⟨hsame, hR⟩
  · exact .inl (hlost hX)
  · rw [perform_bind, perform_bind]
    rcases ha : a.perform s with ⟨e | x, s'⟩ <;> rcases hb : b.perform t with ⟨e' | y, t'⟩ <;>
      rw [ha, hb] at hsame hR <;> cases hsame
    · exact .inr ⟨rfl, hR⟩
    · exact (hfg x).inStep hR

theorem Tracks.mapM {f g : α → Action σ β} (h : ∀ x ∈ l, Tracks R X (f x) (g x)) :
    Tracks R X (l.mapM f) (l.mapM g) := by
  induction l with
  | nil => exact tracks_pure _
  | cons x l ih =>
    rw [List.mapM_cons, List.mapM_cons]
    exact (h x (List.mem_cons_self ..)).bind fun _ =>
      (ih fun y hy => h y (List.mem_cons_of_mem _ hy)).bind fun _ => tracks_pure _

end Tracks

/-! ### Actions that follow one another -/

variable {R : σ → σ → Prop}

/-- To follow is to track, where the first action is astray if it fails. -/
abbrev Follows (R : σ → σ → Prop) (a b : Action σ α) : Prop :=
  Tracks (fun _ => R) (fun f _ => f ≠ none) a b

/-- Whenever the first action ends with a result, so does the second one from a related state, with
the same result and in a related state. -/
theorem follows_iff {a b : Action σ α} : Follows R a b ↔ ∀ ⦃s t⦄, R s t → ∀ ⦃x s'⦄,
    a.perform s = (.ok x, s') → ∃ t', b.perform t = (.ok x, t') ∧ R s' t' := by
  constructor
  · intro h s t hst x s' hs
    have hstep := h.inStep hst
    rw [hs] at hstep
    obtain ⟨hsame, hR⟩ := hstep.resolve_left fun hne => hne rfl
    exact ⟨(b.perform t).2, Prod.ext hsame rfl, hR⟩
  · refine fun h => ⟨fun s hs => absurd rfl hs, fun s t hst => ?_⟩
    rcases ha : a.perform s with ⟨e | x, s'⟩
    · exact .inl nofun
    · obtain ⟨t', ht, hR⟩ := h hst ha
      rw [ht]
      exact .inr ⟨rfl, hR⟩

theorem follows_throw (f : Fault) (b : Action σ α) : Follows R (throw f) b :=
  tracks_throw_left (fun _ h => absurd rfl h) (fun _ _ _ => nofun) b

theorem follows_modify {f g : σ → σ} (hfg : ∀ s t, R s t → R (f s) (g t)) :
    Follows R (modify f : Action σ PUnit) (modify g) :=
  tracks_modify (fun _ h => absurd rfl h) hfg

theorem follows_get {f g : σ → Action σ α} (h : ∀ s t, R s t → Follows R (f s) (g t)) :
    Follows R (get >>= f) (get >>= g) :=
  tracks_get (fun _ h => absurd rfl h) h

/-! ### How actions end -/

theorem perform_mapM_of_ok {f : α → Action σ β} {s : σ}
    (h : ∀ x ∈ l, ∃ y, (f x).perform s = (.ok y, s)) : ∃ ys, (l.mapM f).perform s = (.ok ys, s) := by
  induction l with
  | nil => exact ⟨[], rfl⟩
  | cons x l ih =>
    obtain ⟨y, hy⟩ := h x (List.mem_cons_self ..)
    obtain ⟨ys, hys⟩ := ih fun z hz => h z (List.mem_cons_of_mem x hz)
    refine ⟨y :: ys, ?_⟩
    rw [List.mapM_cons, bind_of_ok hy, bind_of_ok hys]
    rfl

/-- Actions that end with a good result from every state with a property, and keep it, one after the other. -/
theorem perform_mapM_of_keeps {f : α → Action σ β} {Q : β → Prop}
    (h : ∀ x ∈ l, ∀ s, I s → ∃ y t, (f x).perform s = (.ok y, t) ∧ I t ∧ Q y) {s : σ} (hs : I s) :
    ∃ ys t, (l.mapM f).perform s = (.ok ys, t) ∧ I t ∧ ∀ y ∈ ys, Q y := by
  induction l generalizing s with
  | nil => exact ⟨[], s, rfl, hs, nofun⟩
  | cons x l ih =>
    rw [List.forall_mem_cons] at h
    obtain ⟨y, t, hy, ht, hgood⟩ := h.1 s hs
    obtain ⟨ys, u, hys, hu, hrest⟩ := ih h.2 ht
    refine ⟨y :: ys, u, ?_, hu, List.forall_mem_cons.2 ⟨hgood, hrest⟩⟩
    rw [List.mapM_cons, bind_of_ok hy, bind_of_ok hys]
    rfl

/-- Actions that bring the state from what was told so far to what is told with the next one, one after the
other. They may need that what is told then is possible; what is impossible stays so. -/
theorem perform_mapM_of_course {γ : Type} {f : α → Action σ β} {next : γ → α → γ} {P : γ → σ → Prop}
    {possible : γ → Prop} (hback : ∀ c x, possible (next c x) → possible c)
    (h : ∀ x ∈ l, ∀ c s, P c s → possible (next c x) → ∃ y t, (f x).perform s = (.ok y, t) ∧ P (next c x) t)
    {c : γ} {s : σ} (hs : P c s) (hpossible : possible (l.foldl next c)) :
    ∃ ys t, (l.mapM f).perform s = (.ok ys, t) ∧ P (l.foldl next c) t := by
  have hfirst (l : List α) (c : γ) (hl : possible (l.foldl next c)) : possible c := by
    induction l generalizing c with
    | nil => exact hl
    | cons x l ih => exact hback c x (ih (next c x) hl)
  induction l generalizing c s with
  | nil => exact ⟨[], s, rfl, hs⟩
  | cons x l ih =>
    rw [List.forall_mem_cons] at h
    obtain ⟨y, t, hy, ht⟩ := h.1 c s hs (hfirst l (next c x) hpossible)
    obtain ⟨ys, u, hys, hu⟩ := ih h.2 ht hpossible
    refine ⟨y :: ys, u, ?_, hu⟩
    rw [List.mapM_cons, bind_of_ok hy, bind_of_ok hys]
    rfl

theorem perform_orElse (a : Action σ α) (handle : Fault → Action σ α) (s : σ) : (orElse a handle).perform s =
      match a.perform s with
      | (.ok x, t) => (.ok x, t)
      | (.error f, t) => (handle f).perform t := rfl

/-- An action ends with a result that is as it should be, or with a fault if it may fail. -/
def Ends (a : Action σ α) (s : σ) (good : α → Prop) (mayFail : Prop) : Prop :=
  match (a.perform s).1 with
  | .ok x => good x
  | .error _ => mayFail

variable {a : Action σ α} {f : α → Action σ β} {s t : σ} {good : β → Prop} {mayFail : Prop}

theorem ends_bind_of_ok {x : α} (ha : a.perform s = (.ok x, t))
    (hf : (f x).Ends t good mayFail) : (a >>= f).Ends s good mayFail := by
  unfold Ends at hf ⊢
  rwa [bind_of_ok ha]

/-- Where a fault is allowed, it does not matter what an action does. -/
theorem ends_bind_of_mayFail (hfail : mayFail) (hf : ∀ x t, (f x).Ends t good mayFail) :
    (a >>= f).Ends s good mayFail := by
  unfold Ends
  rw [perform_bind]
  rcases a.perform s with ⟨e | x, t⟩
  · exact hfail
  · exact hf x t

theorem ends_ite_bind {c : Prop} [Decidable c] {b : Action σ α} (hab : ∃ x, (if c then a else b).perform s = (.ok x, s))
    (hf : ∀ x, (f x).Ends s good mayFail) :
    (if c then a >>= f else b >>= f).Ends s good mayFail := by
  obtain ⟨x, hx⟩ := hab
  split at hx <;> rename_i hc
  · rw [if_pos hc]
    exact ends_bind_of_ok hx (hf x)
  · rw [if_neg hc]
    exact ends_bind_of_ok hx (hf x)

end GzLang.Action
