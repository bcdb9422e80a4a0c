import GzLang.Feedback.Execution
import GzLang.Proofs.SavedFile

/-!
# The history of the tracked executions

An `Account` says what a tracker knows in typed form: the execution that is on, and those that ended. Every call of a
tracker does to its documents what `Account.after` does to the account (`Account.Holds.next`), so that a whole run is
known from the account at its start (`Account.Holds.run`).

The identifier of an execution is made of the second in which it started and of eight digits of the hash of its code,
and says no more than these (`Execution.id_eq_iff`). A history is searched from its start, so an identifier leads to the
first of the ended executions that share it (`execution_of_id_iff`): the second execution of a code within one second
cannot be found.
-/

namespace GzLang

open GzLang.Action List

/-! ### Identifiers -/

theorem not_mem_toDigits {c : Char} (hc : Json.isDigit c = false) (n : Nat) : c ∉ Nat.toDigits 10 n := by
  intro h
  rw [Json.digits_toDigits n c h] at hc
  cases hc

theorem underscore_not_mem_toString (i : Int) : '_' ∉ (toString i).toList := by
  rw [Json.toList_toString_int, mem_append, not_or]
  constructor
  · unfold Json.sign
    split <;> simp
  · exact not_mem_toDigits rfl _

theorem minus_mem_toString_iff (i : Int) : '-' ∈ (toString i).toList ↔ i < 0 := by
  have hdigits := not_mem_toDigits (c := '-') rfl i.natAbs
  rw [Json.toList_toString_int, mem_append, or_iff_left hdigits]
  unfold Json.sign
  by_cases h : i < 0 <;> simp [h]

theorem toString_int_inj {i j : Int} (h : toString i = toString j) : i = j := by
  have hsign : i < 0 ↔ j < 0 := by rw [← minus_mem_toString_iff, h, minus_mem_toString_iff]
  have hlist := congrArg String.toList h
  simp only [Json.toList_toString_int, hsign, append_cancel_left_eq] at hlist
  have habs : i.natAbs = j.natAbs := by
    rw [← Json.natOf_toDigits i.natAbs, hlist, Json.natOf_toDigits]
  omega

namespace Feedback

structure Execution where
  second : Int
  started : String
  code : String
  source : Value
  context : Value
  output : List Value
  errors : List Value

namespace Execution

def digits (e : Execution) : String := ((Md5.hex e.code).take 8).toString

def id (e : Execution) : String := "exec_" ++ toString e.second ++ "_" ++ e.digits

/-- Two executions started in the same second, on codes whose hashes start alike. -/
def SharesId (e e' : Execution) : Prop := e'.second = e.second ∧ e'.digits = e.digits
  deriving Decidable

theorem id_eq_iff (e e' : Execution) : e'.id = e.id ↔ e.SharesId e' := by
  constructor
  · intro h
    have hlist := congrArg String.toList h
    simp only [id, String.toList_append, append_assoc, append_cancel_left_eq] at hlist
    have hcut := congrArg (Text.cutFirst ['_']) hlist
    rw [show "_".toList = ['_'] by simp, singleton_append, singleton_append,
      Text.cutFirst_char (underscore_not_mem_toString _), Text.cutFirst_char (underscore_not_mem_toString _)] at hcut
    simp only [Option.some.injEq, Prod.mk.injEq] at hcut
    exact ⟨toString_int_inj (String.toList_inj.1 hcut.1), String.toList_inj.1 hcut.2⟩
  · rintro ⟨hsecond, hdigits⟩
    rw [id, id, hsecond, hdigits]

def fields (e : Execution) (status : String) (time usage success : Value) : Table Value :=
  [("id", .str e.id), ("timestamp_start", .str e.started), ("code_hash", .str (Md5.hex e.code)),
    ("source_file", e.source), ("context", e.context), ("status", .str status), ("output", .list e.output),
    ("errors", .list e.errors), ("execution_time", time), ("memory_usage", usage), ("success", success)]

def running (e : Execution) : Value := .dict (e.fields "running" (.int 0) (.int 0) .null)

end Execution

structure Ended extends Execution where
  ended : String
  success : Value
  time : Value
  usage : Value

def Ended.document (e : Ended) : Value :=
  .dict (e.fields "completed" e.time e.usage e.success ++ [("timestamp_end", .str e.ended)])

/-! ### Accounts -/

namespace Execution

def begun (clock : Float) (code : String) (source context : Value) : Execution where
  second := Calendar.nearestInt (Calendar.wholePart clock)
  started := Calendar.isoText (Calendar.ofSeconds clock)
  code := code
  source := source
  context := context.orEmpty
  output := []
  errors := []

/-- An execution with what it reports, in the order in which it does so. -/
def noting (e : Execution) (output errors : List Value) : Execution :=
  { e with output := e.output ++ output, errors := e.errors ++ errors }

@[simp] theorem noting_nil (e : Execution) : e.noting [] [] = e := by simp [noting]

@[simp] theorem noting_noting (e : Execution) (output output' errors errors' : List Value) :
    (e.noting output errors).noting output' errors' = e.noting (output ++ output') (errors ++ errors') := by
  simp [noting]

def ending (e : Execution) (clock : Float) (success time usage : Value) : Ended :=
  { e with ended := Calendar.isoText (Calendar.ofSeconds clock), success, time, usage }

end Execution

namespace Tracker

/-- What can happen to a tracker: a call of one of its operations, or time passes. -/
inductive Event where
  | start (code : String) (source context : Value)
  | output (v : Value)
  | error (v : Value)
  | finish (success time usage : Value)
  | wait (seconds : Float)

namespace Event

def serve : Event → Task Tracker Value
  | .start code source context => begin_ (.str code) source context
  | .output v => do
    addOutput v
    return .null
  | .error v => do
    addError v
    return .null
  | .finish success time usage => end_ success time usage
  | .wait seconds => do
    Job.advance seconds
    return .null

def outputs : Event → List Value
  | .output v => [v]
  | _ => []

def errors : Event → List Value
  | .error v => [v]
  | _ => []

def clock (now : Float) : Event → Float
  | .wait seconds => now + seconds
  | _ => now

/-- The event neither starts nor ends an execution. -/
def IsNote : Event → Prop
  | .start .. | .finish .. => False
  | _ => True

end Event

def answer (s : Tracker × World) (e : Event) : Except Fault Value := (e.serve.perform s).1

def next (s : Tracker × World) (e : Event) : Tracker × World := (e.serve.perform s).2

def run (s : Tracker × World) (es : List Event) : Tracker × World := es.foldl next s

structure Account where
  clock : Float
  current : Option Execution := none
  ended : List Ended := []

namespace Account

def tracker (path : String) (a : Account) : Tracker where
  path := path
  executions := .list (a.ended.map Ended.document)
  current := a.current.elim .null Execution.running

def after (a : Account) : Event → Account
  | .start code source context => { a with current := some (.begun a.clock code source context) }
  | .output v => { a with current := a.current.map (·.noting [v] []) }
  | .error v => { a with current := a.current.map (·.noting [] [v]) }
  | .finish success time usage =>
    { a with current := none, ended := a.ended ++ (a.current.map (·.ending a.clock success time usage)).toList }
  | .wait seconds => { a with clock := a.clock + seconds }

def reply (a : Account) : Event → Value
  | .start code source context => .str (Execution.begun a.clock code source context).id
  | .finish success time usage => a.current.elim .null fun e => (e.ending a.clock success time usage).document
  | _ => .null

def Holds (path : String) (a : Account) (s : Tracker × World) : Prop :=
  s.1 = a.tracker path ∧ s.2.clock = a.clock

end Account

/-! ### One event -/

theorem leaves_clock_save (l : Json.Layout) (path : String) (v : Value) : Leaves World.clock (do
      Job.makeDirectories (Disk.parent path)
      Json.save l path v) := by
  refine Leaves.bind ?_ fun _ => ?_
  · intro w
    rw [Job.perform_makeDirectories, World.clock_withDisk]
  · intro w
    rcases Json.perform_save_cases l path v w with h | h
    · rw [h]
    · rw [h, World.clock_withDisk]

theorem perform_save (t : Tracker) (w : World) :
    ∃ w', save.perform (t, w) = (.ok (), (t, w')) ∧ w'.clock = w.clock := by
  have hclock := leaves_clock_save .indented t.path t.executions w
  rw [save, bind_self]
  dsimp only
  rw [Task.perform_lift, perform_orElse]
  rcases hwrite : perform (do
      Job.makeDirectories (Disk.parent t.path)
      Json.save .indented t.path t.executions) w with ⟨f | u, w'⟩
  all_goals
    rw [hwrite] at hclock
    exact ⟨w', rfl, hclock⟩

theorem perform_mark (path : String) (executions : Value) (es : Table Value) (field : String) (v : Value) (w : World) :
    (mark field v).perform ({ path, executions, current := .dict es }, w) =
      (.ok (), ({ path, executions, current := .dict (es.put field v) }, w)) := rfl

theorem perform_addTo_of_none (list : String) (v : Value) {t : Tracker} (h : t.current = .null) (w : World) :
    (addTo list v).perform (t, w) = (.ok (), (t, w)) := by
  rw [addTo, bind_self, h]
  rfl

theorem perform_addTo (path : String) (executions : Value) {es : Table Value} {list : String} {xs : List Value}
    (h : es.get? list = some (.list xs)) (v : Value) (w : World) :
    (addTo list v).perform ({ path, executions, current := .dict es }, w) =
      (.ok (), ({ path, executions, current := .dict (es.put list (.list (xs ++ [v]))) }, w)) := by
  have htrue : (Value.dict es).isTrue := by
    cases es with
    | nil => cases h
    | cons => rfl
  have hchange : (Value.dict es).changeItem list (fun ys => ys.pushed v) =
      .ok (.dict (es.put list (.list (xs ++ [v])))) := Value.changeItem_dict h rfl
  rw [addTo, bind_self, if_pos htrue, bind_lift hchange]
  rfl

theorem perform_addOutput (path : String) (executions : Value) (e : Execution) (v : Value) (w : World) :
    (addOutput v).perform ({ path, executions, current := e.running }, w) =
      (.ok (), ({ path, executions, current := (e.noting [v] []).running }, w)) := by
  have hget : (e.fields "running" (.int 0) (.int 0) .null).get? "output" = some (.list e.output) := rfl
  rw [Execution.running, addOutput, perform_addTo path executions hget, Execution.noting, append_nil]
  rfl

theorem perform_addError (path : String) (executions : Value) (e : Execution) (v : Value) (w : World) :
    (addError v).perform ({ path, executions, current := e.running }, w) =
      (.ok (), ({ path, executions, current := (e.noting [] [v]).running }, w)) := by
  have hget : (e.fields "running" (.int 0) (.int 0) .null).get? "errors" = some (.list e.errors) := rfl
  rw [Execution.running, addError, perform_addTo path executions hget, Execution.noting, append_nil]
  rfl

theorem marked_eq_document (e : Execution) (clock : Float) (success time usage : Value) :
    Value.dict ((((((e.fields "running" (.int 0) (.int 0) .null).put "timestamp_end"
      (.str (Calendar.isoText (Calendar.ofSeconds clock)))).put "status" (.str "completed")).put
      "success" success).put "execution_time" time).put "memory_usage" usage) =
        (e.ending clock success time usage).document := rfl

theorem perform_end (path : String) (es : List Value) (e : Execution) (success time usage : Value) (w : World) :
    ∃ w', (end_ success time usage).perform ({ path, executions := .list es, current := e.running }, w) =
      (.ok (e.ending w.clock success time usage).document,
        ({ path, executions := .list (es ++ [(e.ending w.clock success time usage).document]) }, w')) ∧
      w'.clock = w.clock := by
  have htrue : (!e.running.isTrue) = false := rfl
  rw [end_, bind_self, htrue, if_neg Bool.false_ne_true, Task.bind_lift (Job.perform_timestamp w),
    Execution.running, bind_of_ok (perform_mark ..),
    bind_of_ok (perform_mark ..), bind_of_ok (perform_mark ..), bind_of_ok (perform_mark ..),
    bind_of_ok (perform_mark ..), World.timeText, marked_eq_document,
    bind_self]
  generalize (e.ending w.clock success time usage).document = v
  have hpush : (Value.list es).pushed v = .ok (.list (es ++ [v])) := rfl
  obtain ⟨w', hsave, hclock⟩ := perform_save ⟨path, .list (es ++ [v]), v⟩ w
  refine ⟨w', ?_, hclock⟩
  refine (bind_lift hpush _ _).trans ?_
  refine (bind_of_ok (Task.perform_update _ _ w) _).trans ?_
  refine (bind_of_ok hsave _).trans ?_
  rfl

namespace Account

variable {path : String} {a : Account} {s : Tracker × World}

/-- A tracker does to its documents what the account says. -/
theorem perform_serve (path : String) (a : Account) (e : Event) (w : World) (h : w.clock = a.clock) :
    ∃ w', e.serve.perform (a.tracker path, w) = (.ok (a.reply e), ((a.after e).tracker path, w')) ∧
      w'.clock = (a.after e).clock := by
  obtain ⟨clock, current, ended⟩ := a
  obtain rfl : w.clock = clock := h
  cases e with
  | start code source context => exact ⟨w, rfl, rfl⟩
  | output v =>
    refine ⟨w, ?_, rfl⟩
    cases current with
    | none => exact bind_of_ok (perform_addTo_of_none _ _ rfl w) _
    | some e => exact bind_of_ok (perform_addOutput path _ e v w) _
  | error v =>
    refine ⟨w, ?_, rfl⟩
    cases current with
    | none => exact bind_of_ok (perform_addTo_of_none _ _ rfl w) _
    | some e => exact bind_of_ok (perform_addError path _ e v w) _
  | finish success time usage =>
    cases current with
    | none =>
      refine ⟨w, ?_, rfl⟩
      rw [after, Option.map_none, Option.toList_none, append_nil]
      rfl
    | some e =>
      obtain ⟨w', hend, hclock⟩ := perform_end path (ended.map Ended.document) e success time usage w
      refine ⟨w', ?_, hclock⟩
      rw [after, Option.map_some, Option.toList_some]
      unfold tracker
      rw [map_append]
      exact hend
  | wait seconds => exact ⟨_, rfl, rfl⟩

theorem Holds.answer_eq (h : a.Holds path s) (e : Event) : answer s e = .ok (a.reply e) := by
  obtain ⟨t, w⟩ := s
  obtain ⟨rfl, hclock⟩ := h
  obtain ⟨w', hserve, -⟩ := perform_serve path a e w hclock
  rw [answer, hserve]

theorem Holds.next (h : a.Holds path s) (e : Event) : (a.after e).Holds path (next s e) := by
  obtain ⟨t, w⟩ := s
  obtain ⟨rfl, hclock⟩ := h
  obtain ⟨w', hserve, hclock'⟩ := perform_serve path a e w hclock
  rw [Tracker.next, hserve]
  exact ⟨rfl, hclock'⟩

/-! ### Whole runs -/

def afterAll (a : Account) (es : List Event) : Account := es.foldl after a

theorem Holds.run (h : a.Holds path s) (es : List Event) : (a.afterAll es).Holds path (run s es) := by
  induction es generalizing a s with
  | nil => exact h
  | cons e es ih => exact ih (h.next e)

@[simp] theorem clock_after (a : Account) (e : Event) : (a.after e).clock = e.clock a.clock := by
  cases e <;> rfl

theorem clock_afterAll (a : Account) (es : List Event) : (a.afterAll es).clock = es.foldl Event.clock a.clock := by
  induction es generalizing a with
  | nil => rfl
  | cons e es ih => exact (ih (a.after e)).trans (by rw [clock_after]; rfl)

theorem ended_prefix_afterAll (a : Account) (es : List Event) : a.ended <+: (a.afterAll es).ended := by
  induction es generalizing a with
  | nil => exact prefix_rfl
  | cons e es ih =>
    refine List.IsPrefix.trans ?_ (ih (a.after e))
    cases e with
    | finish success time usage => exact prefix_append ..
    | _ => exact prefix_rfl

theorem after_note {e : Event} (he : e.IsNote) (a : Account) :
    a.after e = ⟨e.clock a.clock, a.current.map (·.noting e.outputs e.errors), a.ended⟩ := by
  cases e with
  | start | finish => exact he.elim
  | output | error => rfl
  | wait seconds => simp [after, Event.clock, Event.outputs, Event.errors]

/-- Until its end, an execution collects what it reports. -/
theorem afterAll_notes {notes : List Event} (h : ∀ e ∈ notes, e.IsNote) (a : Account) :
    a.afterAll notes = ⟨notes.foldl Event.clock a.clock,
      a.current.map (·.noting (notes.flatMap Event.outputs) (notes.flatMap Event.errors)), a.ended⟩ := by
  induction notes generalizing a with
  | nil => simp [afterAll]
  | cons e notes ih =>
    have hcons : a.afterAll (e :: notes) = (a.after e).afterAll notes := rfl
    rw [hcons, ih (fun e' he' => h e' (mem_cons_of_mem e he')), after_note (h e mem_cons_self)]
    simp [Function.comp_def]

end Account

/-! ### Looking an execution up -/

theorem find_documents (es : List Ended) (id : String) : execution.find (.str id) (es.map Ended.document) =
      .ok ((es.find? fun e => e.id = id).elim .null Ended.document) := by
  induction es with
  | nil => rfl
  | cons e es ih =>
    have hid : e.document.item "id" = .ok (.str e.id) := rfl
    have hequal : (Value.str e.id).equal (.str id) = (e.id == id) := by rw [Value.equal]
    rw [map_cons, execution.find, hid]
    show (if (Value.str e.id).equal (.str id) then _ else _) = _
    rw [hequal]
    by_cases h : e.id = id
    · rw [if_pos (beq_iff_eq.2 h), find?_cons_of_pos (by simpa using h)]
      rfl
    · rw [if_neg (by simpa using h), ih, find?_cons_of_neg (by simpa using h)]

theorem execution_tracker (path : String) (a : Account) (id : String) :
    (a.tracker path).execution (.str id) = .ok ((a.ended.find? fun e => e.id = id).elim .null Ended.document) :=
  find_documents a.ended id

/-- In a history, the identifier of an execution leads to the first one that shares it. -/
theorem find_id (earlier later : List Ended) (e : Ended) : ((earlier ++ [e] ++ later).find? fun e' => e'.id = e.id) =
      some ((earlier.find? fun e' => e.SharesId e'.toExecution).getD e) := by
  have hshares : (fun e' : Ended => decide (e'.id = e.id)) = fun e' => decide (e.SharesId e'.toExecution) := by
    funext e'
    exact decide_eq_decide.2 (Execution.id_eq_iff ..)
  have hself : e.SharesId e.toExecution := ⟨rfl, rfl⟩
  rw [hshares, append_assoc, find?_append, singleton_append, find?_cons_of_pos (by simpa using hself)]
  cases earlier.find? fun e' => e.SharesId e'.toExecution <;> rfl

/-- From its end on, an execution is found by its identifier just when no earlier execution is found in its place: one
that started in the same second, on a code whose hash starts with the same digits. -/
theorem execution_of_id_iff (path : String) (w : World) (before notes later : List Event)
    (hnotes : ∀ e ∈ notes, e.IsNote) (code : String) (source context success time usage : Value) :
    let opened := run ({ path }, w) before
    let noted := run (next opened (.start code source context)) notes
    let final := run (next noted (.finish success time usage)) later
    let now := before.foldl Event.clock w.clock
    let e := ((Execution.begun now code source context).noting (notes.flatMap Event.outputs)
      (notes.flatMap Event.errors)).ending (notes.foldl Event.clock now) success time usage
    let earlier := (Account.afterAll { clock := w.clock } before).ended
    opened.2.clock = now ∧ opened.1.executions = .list (earlier.map Ended.document) ∧
      answer opened (.start code source context) = .ok (.str e.id) ∧
      answer noted (.finish success time usage) = .ok e.document ∧
      final.1.execution (.str e.id) = .ok ((earlier.find? fun e' => e.SharesId e'.toExecution).getD e).document ∧
      (final.1.execution (.str e.id) = .ok e.document ↔
        ∀ e' ∈ earlier.find? fun e' => e.SharesId e'.toExecution, e'.document = e.document) := by
  intro opened noted final now e earlier
  have hopened : (Account.afterAll { clock := w.clock } before).Holds path opened :=
    Account.Holds.run (a := { clock := w.clock }) ⟨rfl, rfl⟩ before
  have hnow : (Account.afterAll { clock := w.clock } before).clock = now := Account.clock_afterAll _ before
  have hnoted : Account.Holds path ⟨notes.foldl Event.clock now, some e.toExecution, earlier⟩ noted := by
    have hrun := (hopened.next (.start code source context)).run notes
    rw [Account.afterAll_notes hnotes, Account.after, hnow] at hrun
    exact hrun
  have hfinal := (hnoted.next (.finish success time usage)).run later
  obtain ⟨more, hmore⟩ := Account.ended_prefix_afterAll
    (Account.after ⟨notes.foldl Event.clock now, some e.toExecution, earlier⟩ (.finish success time usage)) later
  have hfound : final.1.execution (.str e.id) =
      .ok ((earlier.find? fun e' => e.SharesId e'.toExecution).getD e).document := by
    rw [hfinal.1, execution_tracker, ← hmore]
    exact congrArg (fun o => Except.ok (o.elim Value.null Ended.document)) (find_id earlier more e)
  refine ⟨hopened.2.trans hnow, congrArg Tracker.executions hopened.1, ?_, hnoted.answer_eq _, hfound, ?_⟩
  · rw [hopened.answer_eq, Account.reply, hnow]
    rfl
  · rw [hfound]
    cases earlier.find? fun e' => e.SharesId e'.toExecution <;> simp

def firstTime : List Event :=
  [.start "sulat 1" .null .null, .output (.str "1"), .finish (.bool true) (.int 1) (.int 0)]

/-- The failed execution is not found: its identifier leads to the first one. -/
theorem second_execution_is_not_found : (∀ e ∈ [Event.error (.str "b")], e.IsNote) ∧
    let noted := run (next (run ({}, {}) firstTime) (.start "sulat 1" .null .null)) [.error (.str "b")]
    let final := next noted (.finish (.bool false) (.int 2) (.int 0))
    ∃ id document, answer (run ({}, {}) firstTime) (.start "sulat 1" .null .null) = .ok id ∧
      answer noted (.finish (.bool false) (.int 2) (.int 0)) = .ok document ∧
      final.1.execution id ≠ .ok document := by
  have hnote : ∀ e ∈ [Event.error (.str "b")], e.IsNote := by
    intro e he
    rw [List.mem_singleton.1 he]
    trivial
  refine ⟨hnote, ?_⟩
  obtain ⟨-, -, hid, hdocument, -, hiff⟩ := execution_of_id_iff "models/execution_history.json" {} firstTime
    [.error (.str "b")] [] hnote "sulat 1" .null .null (.bool false) (.int 2) (.int 0)
  refine ⟨_, _, hid, hdocument, ?_⟩
  intro hfound
  have hsame := hiff.1 hfound _ (List.find?_cons_of_pos (decide_eq_true ⟨rfl, rfl⟩))
  have hsuccess : Except.ok (ε := Fault) (Value.bool true) = .ok (.bool false) :=
    congrArg (fun v => v.item "success") hsame
  cases hsuccess


end Tracker

end Feedback

end GzLang
