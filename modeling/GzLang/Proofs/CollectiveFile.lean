import GzLang.Proofs.CollectiveLedger
import GzLang.Proofs.FilePlace
import GzLang.Proofs.Subtree

/-!
# The file of a collective memory

A collective memory is kept in a file of its own, apart from the directory that repositories are cloned to
(`Settings`). `Stands` says what the file holds: nothing, or the document of a ledger, whole or not. Saving
puts the document of the ledger there (`perform_save`), and the next collective memory starts with what is
found (`perform_open`). What is done in the directory of the clone changes nothing of that
(`Stands.beyond`).
-/

namespace GzLang.Collective

open GzLang.Action

def cloneNames : List String := ["home", ".gz", "temp", "repo_00000000-0000-0000-0000-000000000000"]

theorem cloneDirectory_eq : cloneDirectory = Disk.ofNames cloneNames := by decide

theorem isName_of_mem_cloneNames : ∀ n ∈ cloneNames, Disk.IsName n := by decide

/-- How a collective memory is set up: where its file is, and when it is pushed by itself. -/
structure Settings extends FilePlace where
  interval : Value
  threshold : Value
  not_below_clone : ¬ cloneNames <+: folder ++ [name]
  not_above_clone : ¬ folder ++ [name] <+: cloneNames
  interval_isNumber : interval.toNumber?.isSome = true
  threshold_isNumber : threshold.toNumber?.isSome = true

namespace Settings

variable (s : Settings)

def config : Value :=
  .dict [("memory_file", .str s.path), ("update_interval", s.interval),
    ("improvement_threshold", s.threshold)]

def options : Value :=
  .dict [("memory_file", .str s.path), ("update_interval", s.interval),
    ("improvement_threshold", s.threshold), ("github_repo", .str "https://github.com/Zrald1/gzc.git"),
    ("github_branch", .str "main"), ("github_username", .str "Zrald1"),
    ("github_token_env", .str "GZ_GITHUB_TOKEN"), ("auto_update", .bool true)]

theorem withDefaults_config : s.config.orEmpty.withDefaults defaults = .ok s.options := rfl

end Settings

variable {s : Settings}

/-- The file of a collective memory can be written, and what it holds: nothing, or the document of a ledger
whose learnings have different names. -/
structure Stands (s : Settings) (filed : Option Ledger) (d : Disk) : Prop where
  holds : s.Holds (filed.map fun l => .dict l.memory) d
  distinct : ∀ l ∈ filed, l.learnings.keys.Nodup

/-- A collective memory in the home directory, which is pushed when an hour has passed and two learnings are
new. -/
def Settings.eager : Settings where
  folder := ["home", ".gz", "models"]
  name := "collective_memory.json"
  interval := .int 3600
  threshold := .int 2
  isName := by decide
  folder_ne_nil := by decide
  not_below_clone := by decide
  not_above_clone := by decide
  interval_isNumber := rfl
  threshold_isNumber := rfl

theorem Settings.stands_eager : Stands Settings.eager none [] := ⟨Settings.eager.holds_nil, fun _ h => (by cases h)⟩

theorem Stands.beyond {filed : Option Ledger} {d d' : Disk} (h : Stands s filed d)
    (hd : Disk.Beyond cloneNames d d') : Stands s filed d' := by
  have hne : cloneNames ≠ [] := by decide
  have hfolder : ¬ cloneNames <+: s.folder := fun hle =>
    s.not_below_clone (hle.trans (List.prefix_append _ _))
  have hget : Table.get? d' s.path = Table.get? d s.path :=
    hd.get?_eq isName_of_mem_cloneNames hne s.isName s.not_below_clone s.not_above_clone
  refine ⟨⟨h.holds.way.beyond isName_of_mem_cloneNames hne s.isName_folder hd hfolder, hd.nodup h.holds.nodup, ?_⟩,
    h.distinct⟩
  have hfound := h.holds.found
  cases filed with
  | none => exact hget.trans hfound
  | some l =>
    obtain ⟨hopen, hfile⟩ := hfound
    exact ⟨hopen.beyond isName_of_mem_cloneNames hne s.isName_folder hd hfolder, hget.trans hfile⟩

/-! ### Saving -/

variable {l : Ledger} {k : Counters} {w : World} {filed : Option Ledger}

/-- Saving puts the document of the ledger in the file, as far as it has a written form. -/
theorem perform_save (h : Stands s filed w.disk) (hkeys : l.learnings.keys.Nodup) :
    ∃ b d, save.perform (⟨s.options, l.memory, k⟩, w) =
      (.ok b, (⟨s.options, l.memory, k⟩, w.withDisk d)) ∧ Stands s (some l) d ∧ s.OthersSame w.disk d := by
  obtain ⟨d, d', hmade, hsaved, hholds, hothers⟩ := h.holds.perform_save (.dict l.memory)
  have hstands : Stands s (some l) d' := ⟨hholds, fun _ hl => Option.some.inj hl ▸ hkeys⟩
  have hoption : (option "memory_file").perform (⟨s.options, l.memory, k⟩, w) =
      (.ok (.str s.path), (⟨s.options, l.memory, k⟩, w)) := rfl
  have htext : (Value.str s.path).text "open" = .ok s.path := rfl
  rw [save, perform_orElse, bind_of_ok hoption, bind_lift htext, Task.bind_lift hmade, bind_self]
  cases hfault : (Value.dict l.memory).fault? with
  | none =>
    rw [hfault] at hsaved
    rw [Task.bind_lift hsaved]
    exact ⟨true, d', rfl, hstands, hothers⟩
  | some f =>
    rw [hfault] at hsaved
    have hlift : (liftM (Json.save .indented s.path (.dict l.memory)) : Task Collective Unit).perform
        (⟨s.options, l.memory, k⟩, w.withDisk d) =
        (.error f, (⟨s.options, l.memory, k⟩, w.withDisk d')) := by
      rw [Task.perform_lift, hsaved]
      rfl
    rw [bind_of_error hlift]
    exact ⟨false, d', rfl, hstands, hothers⟩

theorem perform_addNew (h : Stands s filed w.disk) (hkeys : l.learnings.keys.Nodup) (id : String) (kind data : Value) :
    ∃ d, (addNew id kind data).perform (⟨s.options, l.memory, k⟩, w) =
      (.ok (), (⟨s.options, (l.know id kind data w.clock).memory,
        { k with improvements := k.improvements + 1 }⟩, w.withDisk d)) ∧
      Stands s (some (l.know id kind data w.clock)) d ∧ s.OthersSame w.disk d := by
  have hseconds : Job.seconds.perform w = (.ok w.clock, w) := rfl
  have hput : (Value.dict l.items).withItem id (newLearning kind data w.clock) =
      .ok (.dict (l.know id kind data w.clock).items) :=
    congrArg (fun es => Except.ok (Value.dict es))
      (Table.put_map Learning.item l.learnings id ⟨kind, data, 1, w.clock, w.clock⟩)
  have hcount : (part "improvement_count").perform
      (⟨s.options, { l with learnings := (l.know id kind data w.clock).learnings }.memory, k⟩, w) =
      (.ok (.int l.fresh),
        (⟨s.options, { l with learnings := (l.know id kind data w.clock).learnings }.memory, k⟩, w)) := rfl
  have hnext : (Value.int l.fresh).next = .ok (.int (l.fresh + 1 : Nat)) := rfl
  obtain ⟨b, d, hsave, hstands⟩ := perform_save (l := l.know id kind data w.clock)
    (k := { k with improvements := k.improvements + 1 }) h (Table.nodup_keys_put hkeys _ _)
  refine ⟨d, ?_, hstands⟩
  rw [addNew, Task.bind_lift hseconds, bind_of_ok (perform_learnings s.options l k w), bind_lift hput]
  refine (bind_of_ok (perform_putPart _ _ _ _) _).trans ?_
  refine (bind_of_ok hcount _).trans ?_
  rw [bind_lift hnext]
  refine (bind_of_ok (perform_putPart _ _ _ _) _).trans ?_
  refine (bind_of_ok (Task.perform_update _ _ _) _).trans ?_
  exact (bind_of_ok hsave _).trans rfl

theorem perform_recordPush (h : Stands s filed w.disk) (hkeys : l.learnings.keys.Nodup) (now : Float) :
    ∃ d, (recordPush now).perform (⟨s.options, l.memory, k⟩, w) =
      (.ok (), (⟨s.options, (l.push now k.improvements).memory,
        { k with pushes := k.pushes + 1, lastPush := .float now }⟩, w.withDisk d)) ∧
      Stands s (some (l.push now k.improvements)) d ∧ s.OthersSame w.disk d := by
  obtain ⟨b, d, hsave, hstands⟩ := perform_save (l := l.push now k.improvements)
    (k := { k with pushes := k.pushes + 1, lastPush := .float now }) h hkeys
  have hhistory : (part "update_history").perform
      (⟨s.options, { l with lastPush := some now, fresh := 0 }.memory, k⟩, w) =
      (.ok (.list (l.history.map Ledger.pushItem)),
        (⟨s.options, { l with lastPush := some now, fresh := 0 }.memory, k⟩, w)) := rfl
  have hpushed : (Value.list (l.history.map Ledger.pushItem)).pushed (Ledger.pushItem (now, k.improvements)) =
      .ok (.list ((l.history ++ [(now, k.improvements)]).map Ledger.pushItem)) := by
    rw [List.map_append]
    rfl
  refine ⟨d, ?_, hstands⟩
  rw [recordPush]
  refine (bind_of_ok (perform_putPart _ _ _ _) _).trans ?_
  refine (bind_of_ok (perform_putPart _ _ _ _) _).trans ?_
  refine (bind_of_ok (Task.perform_self _ _) _).trans ?_
  refine (bind_of_ok hhistory _).trans ?_
  refine (bind_lift hpushed _ _).trans ?_
  refine (bind_of_ok (perform_putPart _ _ _ _) _).trans ?_
  refine (bind_of_ok (Task.perform_update _ _ _) _).trans ?_
  exact (bind_of_ok hsave _).trans rfl

/-! ### Loading -/

def recovered : Option Ledger → Ledger
  | none => {}
  | some l => if (Value.dict l.memory).fault?.isNone then l.reread else {}

theorem perform_load (h : Stands s filed w.disk) : ∃ b, load.perform (⟨s.options, ({} : Ledger).memory, k⟩, w) =
      (.ok b, (⟨s.options, (recovered filed).memory, k⟩, w)) := by
  have hoption : (option "memory_file").perform (⟨s.options, ({} : Ledger).memory, k⟩, w) =
      (.ok (.str s.path), (⟨s.options, ({} : Ledger).memory, k⟩, w)) := rfl
  have htext : (Value.str s.path).text "exists" = .ok s.path := rfl
  rw [load, perform_orElse, bind_of_ok hoption, bind_lift htext, Task.bind_lift (Job.perform_pathExists s.path w)]
  cases filed with
  | none =>
    rw [h.holds.has_none]
    exact ⟨false, rfl⟩
  | some l =>
    rw [Disk.has_of_content h.holds.content, recovered]
    cases hfault : (Value.dict l.memory).fault? with
    | none =>
      have hload := h.holds.perform_load hfault
      rw [Ledger.normal_memory (h.distinct l rfl)] at hload
      refine ⟨true, ?_⟩
      simp only [Bool.not_true, Bool.false_eq_true, if_false, Option.isNone_none, if_true]
      rw [Task.bind_lift hload]
      rfl
    | some f =>
      obtain ⟨e, hload⟩ := h.holds.perform_load_of_fault (by simp [hfault])
      have hlift : (liftM (Json.load s.path) : Task Collective Value).perform
          (⟨s.options, ({} : Ledger).memory, k⟩, w) =
          (.error e, (⟨s.options, ({} : Ledger).memory, k⟩, w)) := by
        rw [Task.perform_lift, hload]
      refine ⟨false, ?_⟩
      simp only [Bool.not_true, Bool.false_eq_true, if_false, Option.isNone_some]
      rw [bind_of_error hlift]
      rfl

theorem perform_open (h : Stands s filed w.disk) :
    (Collective.open s.config).perform w = (.ok ⟨s.options, (recovered filed).memory, {}⟩, w) := by
  obtain ⟨b, hload⟩ := perform_load (k := {}) h
  have hset : (load >>= fun _ => pure () : Task Collective Unit).perform ({ config := s.options }, w) =
      (.ok (), (⟨s.options, (recovered filed).memory, {}⟩, w)) := bind_of_ok hload _
  rw [Collective.open, bind_lift s.withDefaults_config, Task.start, perform_of, hset]

end GzLang.Collective
