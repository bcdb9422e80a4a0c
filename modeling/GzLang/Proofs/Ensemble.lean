import Mathlib
import GzLang.Ensemble
import GzLang.Proofs.World

/-!
# What an ensemble keeps of the code that it is shown

Code is shown to the learner first, and then the memory is asked to store it in a category that it does not
have. So whatever happens, the answer is a failure, and only the learner (and the execution that the
feedback loop follows) has changed: the memory, the knowledge and the counters stay as they were set up
(`code_is_learned_but_not_counted`).
-/

namespace GzLang

open GzLang.Action

namespace Learning.Learner

/-! ### Counting samples -/

def counted (s : Learner × World) : Value := s.1.samples

theorem leaves_self : Leaves counted (Task.self : Task Learner Learner) := fun _ => rfl

theorem leaves_job {α : Type} (a : Job α) : Leaves counted (liftM a : Task Learner α) := fun _ => rfl

theorem leaves_update {f : Learner → Learner} (hf : ∀ l, (f l).samples = l.samples) :
    Leaves counted (Task.update f : Task Learner Unit) := fun s => hf s.1

theorem leaves_refreshRate : Leaves counted refreshRate :=
  leaves_self.bind fun _ => (leaves_lift _).bind fun _ => leaves_update fun _ => rfl

theorem leaves_enrol (id : String) : Leaves counted (enrol id) := by
  refine leaves_self.bind fun l => (leaves_lift _).bind fun b => ?_
  split
  · exact (leaves_lift _).bind fun _ => Leaves.bind (leaves_update fun _ => rfl) fun _ =>
      (leaves_lift _).bind fun _ => leaves_update fun _ => rfl
  · exact leaves_pure _

theorem leaves_weigh (id : String) : Leaves counted (weigh id) :=
  leaves_self.bind fun _ => (leaves_lift _).bind fun _ => (leaves_lift _).bind fun _ =>
    (leaves_lift _).bind fun _ => (leaves_lift _).bind fun _ => leaves_update fun _ => rfl

theorem leaves_judge (id : String) (result : Value) : Leaves counted (judge id result) := by
  rw [judge]
  split
  · exact leaves_pure _
  · refine leaves_self.bind fun l => (leaves_lift _).bind fun c => ?_
    dsimp only
    split
    · exact (leaves_lift _).bind fun _ => (leaves_lift _).bind fun _ => (leaves_lift _).bind fun _ =>
        leaves_update fun _ => rfl
    · exact (leaves_lift _).bind fun _ => (leaves_lift _).bind fun _ => (leaves_lift _).bind fun _ =>
        leaves_update fun _ => rfl

theorem leaves_listLine (role line : String) : Leaves counted (listLine role line) := by
  refine leaves_self.bind fun l => (leaves_lift _).bind fun b => ?_
  have hlist : Leaves counted (do
      let l ← (Task.self : Task Learner Learner)
      let lines ← l.known.item role
      if !(← lines.has line) then
        let known ← l.known.withItem role (← lines.pushed (.str line))
        Task.update fun l => { l with known }) := by
    refine leaves_self.bind fun l => (leaves_lift _).bind fun lines => (leaves_lift _).bind fun b => ?_
    split
    · exact (leaves_lift _).bind fun _ => (leaves_lift _).bind fun _ => leaves_update fun _ => rfl
    · exact leaves_pure _
  dsimp only
  split
  · exact leaves_self.bind fun _ => (leaves_lift _).bind fun _ =>
      Leaves.bind (leaves_update fun _ => rfl) fun _ => hlist
  · exact hlist

theorem leaves_record (features : Table String) (result : Value) : Leaves counted (record features result) :=
  (leaves_job _).bind fun _ => leaves_self.bind fun _ => (leaves_lift _).bind fun _ => leaves_update fun _ => rfl

theorem leaves_save : Leaves counted save := leaves_self.bind fun _ => (leaves_lift _).bind fun _ => leaves_job _

theorem leaves_saveIfDue : Leaves counted saveIfDue := by
  refine (leaves_job _).bind fun now => leaves_self.bind fun l => (leaves_lift _).bind fun due => ?_
  split
  · exact leaves_save.bind fun _ => leaves_update fun _ => rfl
  · exact leaves_pure _

/-- A sample counts when it was learned, and may count already when it could not be. -/
def Counted (samples : Value) (r : Except Fault Value × Learner × World) : Prop :=
  samples.next = .ok (counted r.2) ∨ counted r.2 = samples ∧ ∃ f, r.1 = .error f

theorem counted_learn (code : String) (result : Value) (s : Learner × World) :
    Counted s.1.samples ((learn code result).perform s) := by
  have hfault : ∀ e t, counted t = counted s → Counted s.1.samples (.error e, t) := fun e t h => .inr ⟨h, e, rfl⟩
  have hfeatures : Leaves counted ((features code).forM fun e => learnFeature result e.1 e.2) :=
    Leaves.forM fun x _ => leaves_self.bind fun _ => (leaves_enrol _).bind fun _ => (leaves_weigh _).bind fun _ =>
      (leaves_judge _ _).bind fun _ => leaves_listLine _ _
  refine leaves_refreshRate.perform_bind _ s hfault fun _ t₁ h₁ => ?_
  refine hfeatures.perform_bind _ t₁ (fun e t h => hfault e t (h.trans h₁)) fun _ t₂ h₂ => ?_
  refine (leaves_record _ _).perform_bind _ t₂ (fun e t h => hfault e t (h.trans (h₂.trans h₁))) fun _ t₃ h₃ => ?_
  have hsame : t₃.1.samples = s.1.samples := h₃.trans (h₂.trans h₁)
  rw [bind_self]
  cases hnext : t₃.1.samples.next with
  | error e => exact .inr ⟨hsame, e, rfl⟩
  | ok n =>
    rw [Action.bind_lift rfl, bind_update]
    have hrest : Leaves counted (saveIfDue >>= fun _ => Task.self >>= fun l => liftM l.weights.size >>=
        fun known => pure (Value.dict [("samples_processed", l.samples), ("learning_rate", l.rate),
          ("patterns_learned", .int (features code).length), ("total_patterns_known", .int known)])) :=
      leaves_saveIfDue.bind fun _ => leaves_self.bind fun _ => (leaves_lift _).bind fun _ => leaves_pure _
    refine .inl ?_
    rw [← hsame, hnext]
    exact congrArg Except.ok (hrest ({ t₃.1 with samples := n }, t₃.2)).symm

end Learning.Learner

namespace Ensemble

/-! ### Set-up -/

def standard : Value := .dict (defaults.map fun part => (part.1, .dict part.2))

theorem complete_null : complete .null = .ok standard := rfl

section

variable {e : Ensemble} {w : World}

theorem perform_option (h : e.config = standard) (part name : String) :
    (option part name).perform (e, w) = (standard.item part >>= fun o => o.item name, (e, w)) := by
  rw [option, bind_self, h]
  cases standard.item part <;> rfl

theorem leaves_option (part name : String) : Leaves Prod.fst (option part name) := fun s => by
    rw [option, bind_self]
    cases s.1.config.item part <;> rfl

theorem leaves_start {α : Type} (a : Job α) : Leaves Prod.fst (liftM a : Task Ensemble α) := fun _ => rfl

theorem setUpPart_ok {name : String} {α : Type} {p : Part Ensemble (Option α)} {make : Task Ensemble α}
    {t : Ensemble × World} (h : (setUpPart name p make).perform (e, w) = (.ok (), t))
    (hconfig : e.config = standard)
    (hon : (standard.item name >>= fun o => o.item "enabled") = .ok (.bool true))
    (hmake : Leaves Prod.fst make) : ∃ x, t.1 = p.set (some x) e := by
  have hoption : (option name "enabled").perform (e, w) = (.ok (.bool true), (e, w)) := by
    rw [perform_option hconfig, hon]
  rw [setUpPart, bind_of_ok hoption, if_pos (by rfl)] at h
  obtain ⟨x, u, hx, hset⟩ := bind_eq_ok.1 h
  have hsame := hmake (e, w)
  rw [hx] at hsame
  cases hset
  exact ⟨x, congrArg (p.set (some x)) hsame⟩

structure Whole (e : Ensemble) : Prop where
  initialized : e.initialized = true
  learner : ∃ l, e.learner = some l
  memory : ∃ m, e.memory = some m
  feedback : ∃ f, e.feedback = some f
  knowledge : ∃ k, e.knowledge = some k

theorem setUpAll_ok (hconfig : e.config = standard) {t : Ensemble × World} (h : setUpAll.perform (e, w) = (.ok (), t)) :
    ∃ l m g f k o, t.1 = { e with learner := some l, memory := some m, engine := some g, feedback := some f,
                                  knowledge := some k, optimizer := some o } := by
  obtain ⟨_, ⟨e₁, w₁⟩, h₁, h⟩ := bind_eq_ok.1 h
  obtain ⟨_, ⟨e₂, w₂⟩, h₂, h⟩ := bind_eq_ok.1 h
  obtain ⟨_, ⟨e₃, w₃⟩, h₃, h⟩ := bind_eq_ok.1 h
  obtain ⟨_, ⟨e₄, w₄⟩, h₄, h⟩ := bind_eq_ok.1 h
  obtain ⟨_, ⟨e₅, w₅⟩, h₅, h₆⟩ := bind_eq_ok.1 h
  obtain ⟨l, rfl⟩ := setUpPart_ok h₁ hconfig rfl ((leaves_option _ _).bind fun _ =>
    (leaves_option _ _).bind fun _ => leaves_start _)
  obtain ⟨m, rfl⟩ := setUpPart_ok h₂ hconfig rfl ((leaves_option _ _).bind fun _ => leaves_start _)
  obtain ⟨g, rfl⟩ := setUpPart_ok h₃ hconfig rfl ((leaves_option _ _).bind fun _ => leaves_start _)
  obtain ⟨f, rfl⟩ := setUpPart_ok h₄ hconfig rfl (leaves_start _)
  obtain ⟨k, rfl⟩ := setUpPart_ok h₅ hconfig rfl (leaves_start _)
  obtain ⟨o, ho⟩ := setUpPart_ok h₆ hconfig rfl (leaves_start _)
  exact ⟨l, m, g, f, k, o, ho⟩

theorem whole_of_setUp (hconfig : e.config = standard) {p : Ensemble × World}
    (h : setUp.perform (e, w) = (.ok true, p)) : Whole p.1 := by
  have hseconds : Job.seconds.perform w = (.ok w.clock, w) := rfl
  rw [setUp, Task.bind_lift hseconds, perform_orElse] at h
  generalize hwork : perform _ (e, w) = r at h
  obtain ⟨f | b, t⟩ := r
  · cases h
  · cases h
    obtain ⟨_, ⟨e₁, w₁⟩, hall, hwork⟩ := bind_eq_ok.1 hwork
    rw [Task.bind_lift (show Job.seconds.perform w₁ = (.ok w₁.clock, w₁) from rfl), bind_update] at hwork
    obtain ⟨_, t, hstart, hwork⟩ := bind_eq_ok.1 hwork
    obtain ⟨l, m, g, f, k, o, rfl⟩ := setUpAll_ok hconfig hall
    cases hwork
    rw [Task.perform_ifThere rfl] at hstart
    cases hstart
    exact ⟨rfl, ⟨l, rfl⟩, ⟨m, rfl⟩, ⟨f, rfl⟩, ⟨k, rfl⟩⟩

/-! ### Showing code -/

/-- What is answered when code is shown: the fault of the learner, or else that the memory has no such
category. -/
def refusal : Except Fault Value → String
  | .ok _ => "Unknown memory category: code_snippets"
  | .error f => f.message

theorem perform_follow {f : Feedback.Loop} (h : e.feedback = some f) (code : String) :
    ∃ id f', (Task.ifThere feedbackPart (do
      Feedback.Loop.track (.str code) (← Value.null.orEmpty.itemD "source_file" .null) .null)).perform (e, w) =
      (.ok (some id), ({ e with feedback := some f' }, w)) :=
  ⟨_, _, Task.perform_ifThere (p := feedbackPart) h _ w⟩

theorem perform_learner {l : Learning.Learner} (h : e.learner = some l) (code : String) : (Task.ifThere learnerPart (do
      Learning.Learner.learn (← (Value.str code).text "split") .null)).perform (e, w) =
      (((Learning.Learner.learn code .null).perform (l, w)).1.map some,
        ({ e with learner := some ((Learning.Learner.learn code .null).perform (l, w)).2.1 },
          ((Learning.Learner.learn code .null).perform (l, w)).2.2)) :=
  Task.perform_ifThere (p := learnerPart) h _ w

theorem perform_memory {m : Memory.Store} (h : e.memory = some m) (code : String) : (Task.ifThere memoryPart (do
      Memory.Store.store "code_snippets" (← snippetKey (.str code) Value.null.orEmpty) (.str code) (.float 1.0)
        Value.null.orEmpty)).perform (e, w) = (.error (.unknownCategory "code_snippets"), (e, w)) := by
  rcases e with ⟨config, initialized, learner, memory, engine, feedback, knowledge, optimizer, counters⟩
  cases h
  exact Task.perform_ifThere (p := memoryPart) rfl _ w

theorem perform_process (h : Whole e) (code : String) :
    ∃ f l, e.learner = some l ∧ (process (.str code) .null).perform (e, w) =
      (.ok (Answer.failure (refusal ((Learning.Learner.learn code .null).perform (l, w)).1)),
        ({ e with feedback := some f, learner := some ((Learning.Learner.learn code .null).perform (l, w)).2.1 },
          ((Learning.Learner.learn code .null).perform (l, w)).2.2)) := by
  obtain ⟨l, hl⟩ := h.learner
  obtain ⟨m, hm⟩ := h.memory
  obtain ⟨f, hf⟩ := h.feedback
  obtain ⟨id, f', hfollow⟩ := perform_follow (w := w) hf code
  have hlearner := perform_learner (e := { e with feedback := some f' }) (w := w) hl code
  have hon : ¬ (!e.initialized) := by simp [h.initialized]
  refine ⟨f', l, hl, ?_⟩
  rw [process, answering, Answer.guarded, bind_self, if_neg hon, perform_orElse, bind_of_ok hfollow]
  rcases hlearn : (Learning.Learner.learn code .null).perform (l, w) with ⟨fault | v, l', w'⟩
  · rw [hlearn] at hlearner
    rw [bind_of_error hlearner]
    rfl
  · rw [hlearn] at hlearner
    have hmemory := perform_memory (e := { e with feedback := some f', learner := some l' }) (w := w') hm code
    rw [bind_of_ok hlearner, bind_of_error hmemory]
    rfl

theorem whole_process (h : Whole e) (code : String) : Whole ((process (.str code) .null).perform (e, w)).2.1 := by
  obtain ⟨f, l, -, hprocess⟩ := perform_process (w := w) h code
  rw [hprocess]
  exact ⟨h.initialized, ⟨_, rfl⟩, h.memory, ⟨_, rfl⟩, h.knowledge⟩

end

/-! ### Sequences -/

def showAll (codes : List String) (p : Ensemble × World) : Ensemble × World :=
  codes.foldl (fun q code => ((process (.str code) .null).perform q).2) p

/-- What stays as it was set up. -/
structure Untouched (e e' : Ensemble) : Prop where
  memory : e'.memory = e.memory
  knowledge : e'.knowledge = e.knowledge
  counters : e'.counters = e.counters

theorem untouched_process {e : Ensemble} {w : World} (h : Whole e) (code : String) :
    Untouched e ((process (.str code) .null).perform (e, w)).2.1 := by
  obtain ⟨f, l, -, hprocess⟩ := perform_process (w := w) h code
  rw [hprocess]
  exact ⟨rfl, rfl, rfl⟩

theorem untouched_showAll {p : Ensemble × World} (h : Whole p.1) (codes : List String) :
    Whole (showAll codes p).1 ∧ Untouched p.1 (showAll codes p).1 := by
  induction codes generalizing p with
  | nil => exact ⟨h, rfl, rfl, rfl⟩
  | cons code codes ih =>
    obtain ⟨hwhole, huntouched⟩ := ih (whole_process (w := p.2) h code)
    have hfirst := untouched_process (w := p.2) h code
    exact ⟨hwhole, huntouched.memory.trans hfirst.memory, huntouched.knowledge.trans hfirst.knowledge,
      huntouched.counters.trans hfirst.counters⟩

/-- Whatever code an ensemble with the standard configuration is shown, in whatever order, the answer is a
failure, and the memory, the knowledge and the counters stay as they were set up. The learner learns the code
all the same. A sample that it could learn counts as one more for the learner only, and the answer is that
the memory does not know the category. -/
theorem code_is_learned_but_not_counted {e : Ensemble} {w : World} {p : Ensemble × World}
    (hnew : ofConfig .null = .ok e) (hsetUp : setUp.perform (e, w) = (.ok true, p)) (codes : List String)
    (code : String) :
    let q := showAll codes p
    let r := (process (.str code) .null).perform q
    Untouched p.1 r.2.1 ∧ ∃ l, q.1.learner = some l ∧
      let x := (Learning.Learner.learn code .null).perform (l, q.2)
      r.2.1.learner = some x.2.1 ∧ r.2.2 = x.2.2 ∧ ((∃ v, x.1 = .ok v) ∧ l.samples.next = .ok x.2.1.samples ∧
            r.1 = .ok (Answer.failure "Unknown memory category: code_snippets") ∨
          ∃ f, x.1 = .error f ∧ (x.2.1.samples = l.samples ∨ l.samples.next = .ok x.2.1.samples) ∧
            r.1 = .ok (Answer.failure f.message)) := by
  have hconfig : e.config = standard := by
    rw [ofConfig, complete_null] at hnew
    cases hnew
    rfl
  obtain ⟨hwhole, huntouched⟩ := untouched_showAll (whole_of_setUp hconfig hsetUp) codes
  obtain ⟨f, l, hl, hprocess⟩ := perform_process (w := (showAll codes p).2) hwhole code
  have hcounted := Learning.Learner.counted_learn code .null (l, (showAll codes p).2)
  intro q r
  have hr : r = _ := hprocess
  rw [hr]
  refine ⟨⟨huntouched.memory, huntouched.knowledge, huntouched.counters⟩, l, hl, rfl, rfl, ?_⟩
  rcases hx : ((Learning.Learner.learn code .null).perform (l, q.2)).1 with fault | v
  · exact .inr ⟨fault, rfl, hcounted.symm.imp And.left fun h => h, rfl⟩
  · refine .inl ⟨⟨v, rfl⟩, ?_, rfl⟩
    rcases hcounted with hnext | ⟨-, f, hf⟩
    · exact hnext
    · cases hx.symm.trans hf

def firstLearner : Learning.Learner × World :=
  let p := (setUp.perform ({ config := standard }, {})).2
  (p.1.learner.getD {}, p.2)

/-- An ensemble is set up on an empty disk and shown a line: its learner has learned it, and still it counts as
nothing. -/
theorem first_code_is_not_counted : ∃ p, setUp.perform ({ config := standard }, {}) = (.ok true, p) ∧
      let r := (process (.str "simula main") .null).perform p
      r.1 = .ok (Answer.failure "Unknown memory category: code_snippets") ∧ r.2.1.counters.samples = 0 ∧
        ∃ l, r.2.1.learner = some l ∧ l.samples.equal (.int 1) = true := by
  obtain ⟨hok, hsamples, hlearned, hone⟩ : (setUp.perform ({ config := standard }, {})).1.toOption = some true ∧
      (setUp.perform ({ config := standard }, {})).2.1.counters.samples = 0 ∧
      ((Learning.Learner.learn "simula main" .null).perform firstLearner).1.toOption.isSome = true ∧
      ((Learning.Learner.learn "simula main" .null).perform firstLearner).2.1.samples.equal (.int 1) = true := by
    decide +kernel
  obtain ⟨p, hsetUp, hsamples⟩ := exists_perform (P := fun p => p.1.counters.samples = 0) ⟨hok, hsamples⟩
  obtain ⟨huntouched, l, hl, hlearner, -, hanswer⟩ := code_is_learned_but_not_counted rfl hsetUp [] "simula main"
  have hfirst : firstLearner = (l, p.2) := by
    rw [firstLearner, hsetUp]
    exact congrArg (fun x => (Option.getD x {}, p.2)) hl
  rw [hfirst] at hlearned hone
  refine ⟨p, hsetUp, ?_, ?_, _, hlearner, hone⟩
  · rcases hanswer with ⟨-, -, hanswer⟩ | ⟨f, hf, -⟩
    · exact hanswer
    · have hfault : ((Learning.Learner.learn "simula main" .null).perform (l, p.2)).1 = .error f := hf
      rw [hfault] at hlearned
      cases hlearned
  · exact (congrArg Counters.samples huntouched.counters).trans hsamples

end Ensemble

end GzLang
