import GzLang.Proofs.LearnerTables
import GzLang.Proofs.SavedFile

/-!
# What a learner does

A learner has its settings, which stay, and the rest in mind (`Mind`). A sample changes the mind as a whole or not at
all, and then the learner is saved if it is time to (`perform_learn`, `perform_saveIfDue`). What is read back is what
was saved of a mind (`perform_load_of_some`), and a learner starts by reading (`perform_start`).
-/

namespace GzLang

open GzLang.Action Value

/-- What is computed is a double, if it is anything. -/
def Value.YieldsFloat (e : Except Fault Value) : Prop := ∀ v, e = .ok v → ∃ r, v = .float r

theorem Value.YieldsFloat.bind {α : Type} {e : Except Fault α} {f : α → Except Fault Value}
    (h : ∀ x, Value.YieldsFloat (f x)) : Value.YieldsFloat (e >>= f) := by
  cases e with
  | error _ => exact fun _ hv => nomatch hv
  | ok x => exact h x

theorem Value.yieldsFloat_mul (b : Float) (v : Value) : Value.YieldsFloat ((Value.float b).mul v) := by
  have hint (i : Int) : Value.YieldsFloat (floatOfInt i >>= fun y => pure (Value.float (b * y))) :=
    .bind fun y _ hr => ⟨b * y, (Except.ok.inj hr).symm⟩
  cases v with
  | int i => exact hint i
  | bool c => exact hint _
  | float y => exact fun _ hr => ⟨b * y, (Except.ok.inj hr).symm⟩
  | statistic y => exact fun _ hr => ⟨b * y, (Except.ok.inj hr).symm⟩
  | null | str _ | list _ | dict _ | tuple _ | object _ => exact fun _ hr => nomatch hr

namespace Learning

structure Settings where
  baseRate : Float := 0.01
  acceleration : Int := 100
  path : String := "models/gz_memory"
  digest : String → String := Md5.hex

structure Mind where
  samples : Nat := 0
  rate : Float
  tables : Tables := {}
  history : List Value := []
  lastSave : Float

/-- What is left of a mind when it is read back. -/
def Mind.kept (m : Mind) : Mind := { m with history := (m.history.rtake 100).map normal }

theorem Mind.rtake_history_kept (m : Mind) : m.kept.history.rtake 100 = m.kept.history := by
  rw [List.rtake, Nat.sub_eq_zero_of_le, List.drop_zero]
  rw [Mind.kept, List.length_map, List.rtake, List.length_drop]
  omega

structure Learner.Shows (l : Learner) (t : Tables) : Prop where
  weights : l.weights = .dict t.weightItems
  confidence : l.confidence = .dict t.confidenceItems
  known : l.known = .dict t.knownItems

namespace Settings

variable (s : Settings)

def learner (m : Mind) : Learner where
  baseRate := .float s.baseRate
  acceleration := .int s.acceleration
  path := s.path
  samples := .int m.samples
  rate := .float m.rate
  weights := .dict m.tables.weightItems
  confidence := .dict m.tables.confidenceItems
  known := .dict m.tables.knownItems
  history := .list m.history
  lastSave := .float m.lastSave
  digest := s.digest

def start : Job Learner := Learner.start (.float s.baseRate) (.int s.acceleration) s.path s.digest

/-- What a learner has in mind that starts without a file. -/
def fresh (now : Float) : Mind := { rate := s.baseRate, lastSave := now }

def file : String := s.path ++ ".json"

theorem shows_learner (m : Mind) : (s.learner m).Shows m.tables := ⟨rfl, rfl, rfl⟩

theorem withTables_learner (m : Mind) (t : Tables) :
    (s.learner m).withTables t = s.learner { m with tables := t } := rfl

theorem next_samples (m : Mind) : (s.learner m).samples.next = .ok (.int (m.samples + 1 : Nat)) := rfl

theorem file_learner (m : Mind) : (s.learner m).file = s.file := rfl

def document (m : Mind) : Value :=
  .dict [("samples_processed", .int m.samples), ("base_learning_rate", .float s.baseRate),
    ("acceleration_factor", .int s.acceleration), ("pattern_weights", .dict m.tables.weightItems),
    ("pattern_confidence", .dict m.tables.confidenceItems), ("knowledge_graph", .dict m.tables.knownItems),
    ("learning_history", .list (m.history.rtake 100))]

end Settings

open Settings

/-! ### Documents -/

section

variable {digest : String → String} {t : Tables} (ht : t.Consistent digest)

include ht

theorem Tables.Consistent.isDocument_weights : (Value.dict t.weightItems).IsDocument := by
  refine isDocument_dict_iff.2 ⟨?_, fun e he => ?_⟩
  · rw [Tables.weightItems, Table.keys_map]
    exact ht.nodup
  · obtain ⟨x, -, rfl⟩ := List.mem_map.1 he
    exact ⟨rfl, rfl⟩

theorem Tables.Consistent.isDocument_confidence : (Value.dict t.confidenceItems).IsDocument := by
  refine isDocument_dict_iff.2 ⟨?_, fun e he => ?_⟩
  · rw [Tables.confidenceItems, Table.keys_map, ← ht.same]
    exact ht.nodup
  · obtain ⟨x, -, rfl⟩ := List.mem_map.1 he
    exact ⟨rfl, rfl⟩

theorem Tables.Consistent.isDocument_known : (Value.dict t.knownItems).IsDocument := by
  refine isDocument_dict_iff.2 ⟨?_, fun e he => ?_⟩
  · rw [Tables.knownItems, Table.keys_map]
    exact ht.nodup_known
  · obtain ⟨x, -, rfl⟩ := List.mem_map.1 he
    exact isDocument_texts x.2

end

theorem Settings.normal_document (s : Settings) {m : Mind} (hm : m.tables.Consistent s.digest) :
    (s.document m).normal = s.document m.kept := by
  rw [document, normal, normalMembers_eq (by simp [Table.keys]), document, m.rtake_history_kept]
  rw [List.nil_append]
  simp only [List.map_cons, List.map_nil]
  rw [hm.isDocument_weights.normal, hm.isDocument_confidence.normal, hm.isDocument_known.normal, normal,
    normal, normal, normal, normalItems_eq]
  rfl

namespace Learner

variable (s : Settings) (m : Mind) (w : World)

/-! ### The rate -/

theorem yieldsFloat_nextRate : Value.YieldsFloat (s.learner m).nextRate := by
  rw [nextRate]
  split
  · exact fun _ hr => ⟨s.baseRate, (Except.ok.inj hr).symm⟩
  · exact .bind fun _ => .bind fun _ => .bind fun p => yieldsFloat_mul s.baseRate p

theorem perform_refreshRate : (∃ f, refreshRate.perform (s.learner m, w) = (.error f, (s.learner m, w))) ∨
      ∃ rate, refreshRate.perform (s.learner m, w) = (.ok (), (s.learner { m with rate }, w)) := by
  rw [refreshRate, bind_self]
  cases hrate : (s.learner m).nextRate with
  | error f => exact .inl ⟨f, rfl⟩
  | ok v =>
    obtain ⟨r, rfl⟩ := yieldsFloat_nextRate s m v hrate
    exact .inr ⟨r, rfl⟩

/-! ### Saving and reading -/

theorem perform_save : save.perform (s.learner m, w) = (((Json.save .indented s.file (s.document m)).perform w).1,
      (s.learner m, ((Json.save .indented s.file (s.document m)).perform w).2)) := by
  have hsnapshot : (s.learner m).snapshot = .ok (s.document m) := rfl
  rw [save, bind_self, bind_lift hsnapshot]
  rfl

theorem restore_document (m' : Mind) : (s.learner m).restore (s.document m') = .ok (s.learner
    { m with samples := m'.samples, tables := m'.tables, history := m'.history.rtake 100 }) := by
  simp [restore, document, learner, itemD, Table.get?]
  rfl

variable {m w}

theorem perform_load_of_none (h : (Json.load? s.file).perform w = (.ok none, w)) :
    load.perform (s.learner m, w) = (.ok false, (s.learner m, w)) := by
  rw [load, bind_self, file_learner, Task.bind_lift h]
  rfl

theorem perform_load_of_error {f : Fault} (h : (Json.load? s.file).perform w = (.error f, w)) :
    load.perform (s.learner m, w) = (.error f, (s.learner m, w)) := by
  have hlift : (liftM (Json.load? s.file) : Task Learner (Option Value)).perform (s.learner m, w) =
      (.error f, (s.learner m, w)) := by
    rw [Task.perform_lift, h]
  rw [load, bind_self, file_learner, bind_of_error hlift]

theorem perform_load_of_some {m' : Mind} (hm' : m'.tables.Consistent s.digest)
    (h : (Json.load? s.file).perform w = (.ok (some (s.document m').normal), w)) :
    ∃ rate, (load.perform (s.learner m, w)).2 = (s.learner { m'.kept with rate, lastSave := m.lastSave }, w) := by
  have hrestore := restore_document s m m'.kept
  rw [← s.normal_document hm', m'.rtake_history_kept] at hrestore
  rw [load, bind_self, file_learner, Task.bind_lift h]
  dsimp only
  rw [bind_lift hrestore, bind_update]
  rcases perform_refreshRate s { m'.kept with rate := m.rate, lastSave := m.lastSave } w with ⟨f, hf⟩ | ⟨r, hr⟩
  · rw [bind_of_error hf]
    exact ⟨m.rate, rfl⟩
  · rw [bind_of_ok hr]
    exact ⟨r, rfl⟩

/-! ### Starting -/

theorem perform_start_of_ok {b : Bool} {l : Learner} {w' w'' : World}
    (hmade : (Job.makeDirectories (Disk.parent s.path)).perform w = (.ok (), w'))
    (hload : load.perform (s.learner (s.fresh w.clock), w') = (.ok b, (l, w''))) :
    s.start.perform w = (.ok l, w'') := by
  have hclock : Job.seconds.perform w = (.ok w.clock, w) := rfl
  have hsetUp := Task.bind_lift hmade (fun _ => load >>= fun _ => pure ()) (s.learner (s.fresh w.clock))
  rw [bind_of_ok hload] at hsetUp
  rw [Settings.start, Learner.start, bind_of_ok hclock]
  exact Task.perform_start_of_ok hsetUp

/-- A learner starts in a directory that is made for its file, and reads what is there. -/
theorem perform_start {made : Except Fault Unit} {w' : World}
    (hmade : (Job.makeDirectories (Disk.parent s.path)).perform w = (made, w'))
    (hload : (load.perform (s.learner (s.fresh w.clock), w')).2.2 = w') :
    (∃ f, s.start.perform w = (.error f, w')) ∨
      s.start.perform w = (.ok (load.perform (s.learner (s.fresh w.clock), w')).2.1, w') := by
  have hclock : Job.seconds.perform w = (.ok w.clock, w) := rfl
  cases made with
  | error f =>
    have hlift := Task.perform_lift (Job.makeDirectories (Disk.parent s.path)) (s.learner (s.fresh w.clock)) w
    rw [hmade] at hlift
    rw [Settings.start, Learner.start, bind_of_ok hclock]
    exact .inl ⟨f, Task.perform_start_of_error (bind_of_error hlift _)⟩
  | ok u =>
    rcases hend : load.perform (s.learner (s.fresh w.clock), w') with ⟨f | b, l, w''⟩
    · rw [hend] at hload
      cases hload
      have hsetUp := Task.bind_lift hmade (fun _ => load >>= fun _ => pure ()) (s.learner (s.fresh w.clock))
      rw [bind_of_error hend] at hsetUp
      rw [Settings.start, Learner.start, bind_of_ok hclock]
      exact .inl ⟨f, Task.perform_start_of_error hsetUp⟩
    · rw [hend] at hload
      cases hload
      exact .inr (perform_start_of_ok s hmade hend)

/-! ### Learning -/

/-- Every fifth sample is saved, and others if it is time to. -/
theorem perform_saveIfDue : (m.samples % 5 ≠ 0 ∧ (saveIfDue.perform (s.learner m, w)).2 = (s.learner m, w)) ∨
      ∃ lastSave, (saveIfDue.perform (s.learner m, w)).2 =
        (s.learner { m with lastSave }, ((Json.save .indented s.file (s.document m)).perform w).2) := by
  have hclock : Job.seconds.perform w = (.ok w.clock, w) := rfl
  rw [saveIfDue, Task.bind_lift hclock, bind_self]
  have hfifth : m.samples % 5 = 0 → (s.learner m).isDue w.clock = .ok true := fun h => by
    have hsamples : isFifth (s.learner m).samples := by
      show ((m.samples : Int) % 5 == 0)
      rw [beq_iff_eq]
      omega
    rw [isDue, if_pos hsamples]
    rfl
  cases hdue : (s.learner m).isDue w.clock with
  | error f => exact .inl ⟨fun h => (by rw [hfifth h] at hdue; cases hdue), rfl⟩
  | ok b =>
    cases b with
    | false => exact .inl ⟨fun h => (by rw [hfifth h] at hdue; cases hdue), rfl⟩
    | true =>
      right
      rw [bind_lift rfl, if_pos rfl]
      have hsaved := perform_save s m w
      rcases hsave : (Json.save .indented s.file (s.document m)).perform w with ⟨f | u, w'⟩
      · rw [hsave] at hsaved
        rw [bind_of_error hsaved]
        exact ⟨m.lastSave, rfl⟩
      · rw [hsave] at hsaved
        rw [bind_of_ok hsaved]
        exact ⟨w.clock, rfl⟩

def event (w : World) (code : String) (rate : Float) (result : Value) : Value :=
  .dict [("timestamp", .str w.timeText), ("patterns_count", .int (features code).length),
    ("learning_rate", .float rate), ("execution_result", result)]

/-- A sample is not learned at all, or it is and the learner is then saved if it is time to. -/
theorem perform_learn (hm : m.tables.Consistent s.digest) (code : String) (result : Value) :
    (∃ f, (learn code result).perform (s.learner m, w) = (.error f, (s.learner m, w))) ∨
      ∃ rate tables, tables.Consistent s.digest ∧ m.tables.Adds (features code) tables ∧
        ((learn code result).perform (s.learner m, w)).2 = (saveIfDue.perform (s.learner { m with
          samples := m.samples + 1, rate, tables, history := m.history ++ [event w code rate result] }, w)).2 := by
  rw [learn]
  rcases perform_refreshRate s m w with ⟨f, hf⟩ | ⟨r, hr⟩
  · left
    exact ⟨f, bind_of_error hf _⟩
  · right
    obtain ⟨t, hfeatures, ht, hadds⟩ :=
      perform_learnFeatures (s.learner { m with rate := r }) w (t := m.tables) rfl hm result (features code)
    rw [withTables_learner, withTables_learner] at hfeatures
    refine ⟨r, t, ht, hadds, ?_⟩
    have hrecord : (record (features code) result).perform (s.learner { m with rate := r, tables := t }, w) =
        (.ok (), (s.learner { m with
          rate := r, tables := t, history := m.history ++ [event w code r result] }, w)) := by
      rw [record, Task.bind_lift (Job.perform_timestamp w)]
      rfl
    rw [bind_of_ok hr, bind_of_ok hfeatures, bind_of_ok hrecord, bind_self, bind_lift (s.next_samples _), bind_update]
    -- what is told at the end changes nothing
    refine view_perform_bind id (fun _ => ?_) saveIfDue _
    exact .bind (fun _ => rfl) fun _ => .bind (leaves_lift _) fun _ => leaves_pure _

end Learner

end Learning

end GzLang
