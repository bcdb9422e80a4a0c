import GzLang.Proofs.FilePlace
import GzLang.Proofs.LearnerCall

/-!
# A learner through its session

A learner is asked to learn samples, to save what it has in mind and to read it back, and now and then it is started
again from its file. What each request does is said once (`next_learn`, `next_reopen` and so on). Whatever fails on
the way, only consistent tables are in mind and in the file (`InStep.next`), so that the suggestions are always the
known lines that are trusted enough (`suggestions_are_the_known_lines`).
-/

namespace GzLang.Learning

open GzLang.Action

inductive Request where
  | learn (code : String) (result : Value)
  | save
  | load
  | wait (seconds : Float)
  | reopen

namespace Settings

variable {l : Learner} {made : Except Fault Unit} {w' : World} {st : Learner × World}

/-- Serve a request. A learner that cannot be started again stays as it was. -/
def serve (s : Settings) : Request → Task Learner Unit
  | .learn code result => do let _ ← Learner.learn code result
  | .save => Learner.save
  | .load => do let _ ← Learner.load
  | .wait seconds => Job.advance seconds
  | .reopen => do
    let l ← s.start
    Task.update fun _ => l

def next (s : Settings) (st : Learner × World) (r : Request) : Learner × World := ((s.serve r).perform st).2

def saved (s : Settings) (m : Mind) (w : World) : World :=
  ((Json.save .indented s.file (s.document m)).perform w).2

/-! ### What a request does -/

variable {s : Settings} {m : Mind} {w : World}

/-- A mind after a sample: one sample more, and its lines are known. -/
structure Learned (s : Settings) (w : World) (m : Mind) (code : String) (result : Value) (m' : Mind) : Prop where
  consistent : m'.tables.Consistent s.digest
  adds : m.tables.Adds (features code) m'.tables
  samples : m'.samples = m.samples + 1
  history : ∃ rate, m'.history = m.history ++ [Learner.event w code rate result]

/-- A sample is not learned at all, or it is and the learner is saved, every fifth time at least. -/
theorem next_learn (hm : m.tables.Consistent s.digest) (w : World) (code : String) (result : Value) :
    s.next (s.learner m, w) (.learn code result) = (s.learner m, w) ∨ ∃ m', s.Learned w m code result m' ∧
      (m'.samples % 5 ≠ 0 ∧ s.next (s.learner m, w) (.learn code result) = (s.learner m', w) ∨
        s.next (s.learner m, w) (.learn code result) = (s.learner m', s.saved m' w)) := by
  have hview : s.next (s.learner m, w) (.learn code result) =
      ((Learner.learn code result).perform (s.learner m, w)).2 :=
    view_perform_bind id (fun _ => leaves_pure _) _ _
  rw [hview]
  rcases Learner.perform_learn s hm code result with ⟨f, hf⟩ | ⟨rate, tables, htables, hadds, hlearned⟩
  · left
    rw [hf]
  · right
    rw [hlearned]
    rcases Learner.perform_saveIfDue s with ⟨hfifth, hsame⟩ | ⟨lastSave, hsaved⟩
    · exact ⟨_, ⟨htables, hadds, rfl, rate, rfl⟩, .inl ⟨hfifth, hsame⟩⟩
    · rw [hsaved]
      exact ⟨_, ⟨htables, hadds, rfl, rate, rfl⟩, .inr rfl⟩

theorem adds_of_learn (hm : m.tables.Consistent s.digest) {code : String} {result v : Value}
    (hlearn : (Learner.learn code result).perform (s.learner m, w) = (.ok v, (l, w'))) :
    ∃ t, l.Shows t ∧ m.tables.Adds (features code) t := by
  rcases Learner.perform_learn s (w := w) hm code result with ⟨f, hf⟩ | ⟨rate, tables, -, hadds, hlearned⟩
  · rw [hf] at hlearn
    cases hlearn
  · rw [hlearn] at hlearned
    refine ⟨tables, ?_, hadds⟩
    rcases Learner.perform_saveIfDue s with ⟨-, hsame⟩ | ⟨lastSave, hsaved⟩
    · obtain rfl := congrArg Prod.fst (hlearned.trans hsame)
      exact s.shows_learner _
    · obtain rfl := congrArg Prod.fst (hlearned.trans hsaved)
      exact s.shows_learner _

theorem next_save : s.next (s.learner m, w) .save = (s.learner m, s.saved m w) := by
  rw [next, serve, Learner.perform_save]
  rfl

theorem next_load (st : Learner × World) : s.next st .load = (Learner.load.perform st).2 :=
  view_perform_bind id (fun _ => leaves_pure _) _ _

/-- A learner is started again from what is in its file, or stays as it was. -/
theorem next_reopen {m' : Mind} (hmade : (Job.makeDirectories (Disk.parent s.path)).perform w = (made, w'))
    (hload : (Learner.load.perform (s.learner (s.fresh w.clock), w')).2 = (s.learner m', w')) :
    s.next (l, w) .reopen = (l, w') ∨ s.next (l, w) .reopen = (s.learner m', w') := by
  rcases Learner.perform_start s hmade (by rw [hload]) with ⟨f, hf⟩ | hok
  · left
    have hlift := Task.perform_lift s.start l w
    rw [hf] at hlift
    rw [next, serve, bind_of_error hlift]
  · right
    rw [hload] at hok
    rw [next, serve, Task.bind_lift hok]
    rfl

/-! ### What the file holds -/

def Kept (s : Settings) (w : World) : Prop :=
  ∀ c, w.disk.fileAt? s.file = some c →
    ∃ m : Mind, m.tables.Consistent s.digest ∧ c = Json.saved .indented (s.document m)

theorem Kept.save (h : s.Kept w) (hm : m.tables.Consistent s.digest) : s.Kept (s.saved m w) := by
  rcases Json.perform_save_cases .indented s.file (s.document m) w with hsame | hput
  · rw [saved, hsame]
    exact h
  · rw [saved, hput]
    intro c hc
    rw [World.disk_withDisk, Disk.fileAt?_put_self] at hc
    exact ⟨m, hm, (Option.some.inj hc).symm⟩

theorem Kept.makeDirectories (h : s.Kept w) {path : String}
    (hmade : (Job.makeDirectories path).perform w = (made, w')) : s.Kept w' := by
  intro c hc
  have hsame := Job.leaves_makeDirectories s.file path w
  rw [hmade] at hsame
  exact h c (hsame.symm.trans hc)

theorem Kept.load (h : s.Kept w) (hm : m.tables.Consistent s.digest) :
    ∃ m' : Mind, m'.tables.Consistent s.digest ∧ (Learner.load.perform (s.learner m, w)).2 = (s.learner m', w) := by
  have hsaved : ∀ c, w.disk.fileAt? s.file = some c →
      ∃ v, (∃ m : Mind, m.tables.Consistent s.digest ∧ v = s.document m) ∧ c = Json.saved .indented v := by
    intro c hc
    obtain ⟨m', hm', rfl⟩ := h c hc
    exact ⟨_, ⟨m', hm', rfl⟩, rfl⟩
  rcases Json.perform_load?_cases hsaved with hnone | ⟨f, hf⟩ | ⟨_, ⟨m', hm', rfl⟩, -, hsome⟩
  · exact ⟨m, hm, by rw [Learner.perform_load_of_none s hnone]⟩
  · exact ⟨m, hm, by rw [Learner.perform_load_of_error s hf]⟩
  · obtain ⟨rate, hload⟩ := Learner.perform_load_of_some s (m := m) hm' hsome
    exact ⟨_, by exact hm', hload⟩

/-! ### The session -/

def InStep (s : Settings) (st : Learner × World) : Prop :=
  ∃ m : Mind, m.tables.Consistent s.digest ∧ st.1 = s.learner m ∧ s.Kept st.2

theorem Kept.start (h : s.Kept w) {w₀ : World} (hstart : s.start.perform w = (.ok l, w₀)) : s.InStep (l, w₀) := by
  rcases hmade : (Job.makeDirectories (Disk.parent s.path)).perform w with ⟨made, w'⟩
  have hkept := h.makeDirectories hmade
  obtain ⟨m', hm', hload⟩ := hkept.load (m := s.fresh w.clock) (Tables.consistent_empty s.digest)
  rcases Learner.perform_start s hmade (by rw [hload]) with ⟨f, hf⟩ | hok
  · rw [hf] at hstart
    cases hstart
  · rw [hok, hload] at hstart
    cases hstart
    exact ⟨m', hm', rfl, hkept⟩

/-- Every request leaves consistent tables in mind and in the file. -/
theorem InStep.next (h : s.InStep st) (r : Request) : s.InStep (s.next st r) := by
  obtain ⟨l, w⟩ := st
  obtain ⟨m, hm, rfl, hkept⟩ := h
  cases r with
  | learn code result =>
    rcases next_learn hm w code result with hsame | ⟨m', hlearned, ⟨-, hnext⟩ | hnext⟩
    · rw [hsame]
      exact ⟨m, hm, rfl, hkept⟩
    · rw [hnext]
      exact ⟨m', hlearned.consistent, rfl, hkept⟩
    · rw [hnext]
      exact ⟨m', hlearned.consistent, rfl, hkept.save hlearned.consistent⟩
  | save =>
    rw [next_save]
    exact ⟨m, hm, rfl, hkept.save hm⟩
  | load =>
    obtain ⟨m', hm', hload⟩ := hkept.load hm
    rw [next_load, hload]
    exact ⟨m', hm', rfl, hkept⟩
  | wait seconds => exact ⟨m, hm, rfl, hkept⟩
  | reopen =>
    rcases hmade : (Job.makeDirectories (Disk.parent s.path)).perform w with ⟨made, w'⟩
    have hkept' := hkept.makeDirectories hmade
    obtain ⟨m', hm', hload⟩ := hkept'.load (m := s.fresh w.clock) (Tables.consistent_empty s.digest)
    rcases next_reopen (l := s.learner m) hmade hload with hsame | hnext
    · rw [hsame]
      exact ⟨m, hm, rfl, hkept'⟩
    · rw [hnext]
      exact ⟨m', hm', rfl, hkept'⟩

theorem InStep.foldl (h : s.InStep st) (rs : List Request) : s.InStep (rs.foldl s.next st) := by
  induction rs generalizing st with
  | nil => exact h
  | cons r rs ih => exact ih (h.next r)

/-! ### Places -/

structure IsAt (s : Settings) (p : FilePlace) : Prop where
  file : s.file = p.path
  folder : Disk.parent s.path = Disk.parent p.path

/-- A learner starts at any place where its file can be written and nothing was saved. -/
theorem IsAt.exists_start {p : FilePlace} (h : s.IsAt p) (hp : p.Holds none w.disk) :
    ∃ d, s.start.perform w = (.ok (s.learner (s.fresh w.clock)), w.withDisk d) ∧ p.Ready d := by
  obtain ⟨d, hmade, hready, -⟩ := p.perform_makeDirectories hp.way hp.file
  have hfile : (w.withDisk d).disk.fileAt? p.path = none := by
    have hsame := Job.leaves_makeDirectories p.path (Disk.parent p.path) w
    rw [hmade] at hsame
    refine hsame.trans ?_
    have hnone : Table.get? w.disk (Disk.key p.path) = none := by
      rw [FilePlace.path, Disk.key_ofNames p.isName]
      exact hp.found
    dsimp only
    rw [Disk.fileAt?, hnone]
  have hload : (Json.load? s.file).perform (w.withDisk d) = (.ok none, w.withDisk d) := by
    rw [h.file]
    exact Json.perform_load?_of_no_file hready.writable hfile
  rw [← h.folder] at hmade
  exact ⟨d, Learner.perform_start_of_ok s hmade (Learner.perform_load_of_none s hload), hready⟩

end Settings

/-- Through any session of a learner that starts without a file, the weights and the confidences are of the same
features: those of the known lines, which are listed once each. So there are suggestions for every role and every
threshold, and they are the known lines that are trusted that much. -/
theorem suggestions_are_the_known_lines (s : Settings) {w w₀ : World} {l₀ : Learner}
    (hfile : w.disk.fileAt? s.file = none) (hstart : s.start.perform w = (.ok l₀, w₀)) (rs : List Request) :
    ∃ t : Tables, t.Consistent s.digest ∧ (rs.foldl s.next (l₀, w₀)).1.Shows t ∧
      (∀ (role : String) (threshold : Value), threshold.IsNumber →
        ∃ vs, (rs.foldl s.next (l₀, w₀)).1.suggestions role threshold = .ok (.list vs) ∧
          vs.Perm (((t.linesOf role).filter (Learner.reaches t s.digest role threshold)).map
            (Learner.entry t s.digest role))) ∧
      ∀ (code : String) (result v : Value) (l : Learner) (w' : World),
        (Learner.learn code result).perform (rs.foldl s.next (l₀, w₀)) = (.ok v, (l, w')) →
          ∃ t', l.Shows t' ∧ t.Adds (features code) t' := by
  have hkept : s.Kept w := fun c hc => by rw [hfile] at hc; cases hc
  obtain ⟨m, hm, hl, -⟩ := (hkept.start hstart).foldl rs
  rcases hend : rs.foldl s.next (l₀, w₀) with ⟨l, w'⟩
  rw [hend] at hl
  obtain rfl : l = s.learner m := hl
  refine ⟨m.tables, hm, s.shows_learner m, fun role threshold hthreshold => ?_, fun code result v l w'' hlearn => ?_⟩
  · exact Learner.suggestions_perm (s.learner m) hm role hthreshold
  · exact Settings.adds_of_learn hm hlearn

def usualPlace : FilePlace where
  folder := ["models"]
  name := "gz_memory.json"
  isName := by decide
  folder_ne_nil := FilePlace.models_ne_nil

def shortSighted : Settings where
  digest := fun _ => "0"

theorem shortSighted_isAt : shortSighted.IsAt usualPlace where
  file := by decide
  folder := by decide

def briefSession : List Request :=
  [.learn "sulat x" (.str "success"), .save, .reopen, .learn "sulat y" .null, .wait 60, .load]

/-- The suggestions are the known lines even if all lines have the same identifier. -/
theorem shortSighted_suggestions : ∃ l₀ w₀ t, Disk.fileAt? shortSighted.file ({} : World).disk = none ∧
    shortSighted.start.perform {} = (.ok l₀, w₀) ∧ t.Consistent (fun _ => "0") ∧
    (briefSession.foldl shortSighted.next (l₀, w₀)).1.Shows t ∧
    ∃ vs, (briefSession.foldl shortSighted.next (l₀, w₀)).1.suggestions "print_statement" (.int 0) = .ok (.list vs) ∧
      vs.Perm (((t.linesOf "print_statement").filter (Learner.reaches t (fun _ => "0") "print_statement" (.int 0))).map
        (Learner.entry t (fun _ => "0") "print_statement")) := by
  obtain ⟨d, hstart, -⟩ := shortSighted_isAt.exists_start (w := {}) usualPlace.holds_nil
  obtain ⟨t, hconsistent, hshows, hsuggestions, -⟩ :=
    suggestions_are_the_known_lines shortSighted (w := {}) rfl hstart briefSession
  exact ⟨_, _, t, rfl, hstart, hconsistent, hshows, hsuggestions "print_statement" (.int 0) rfl⟩

end GzLang.Learning
