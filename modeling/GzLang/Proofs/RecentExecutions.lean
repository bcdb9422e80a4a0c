import GzLang.Proofs.ExecutionHistory
import GzLang.Proofs.Foremost
import GzLang.Proofs.Timestamp

/-!
# The executions that started last

A tracker records of every execution the text of the instant at which it started, and sorts the history by these
texts. Between the years 1 and 9999 the texts are ordered as the instants (`Calendar.isoText_lt_iff`), so the
executions that a tracker gives as its recent ones are those that started last (`recent_started_last`).
-/

namespace GzLang

open GzLang.Action List

theorem Value.relate_lt_texts (s t : String) : relate .lt (.str s) (.str t) = .ok (decide (s < t)) := by
  rw [relate, compareTexts]
  by_cases h : s < t
  · simp [h, Relation.holds]
  · by_cases heq : s = t <;> simp [h, heq, Relation.holds]

namespace Feedback

open Calendar

/-- An execution as it is recorded when it started at an instant. -/
structure Recorded extends Ended where
  instant : Instant
  started_eq : started = isoText instant
  inYears : InYears instant

namespace Tracker

/-- When the executions started that end in the course of events: `clock` is the time on the clock, and `current` is
when the execution started that is on. -/
def starts (clock : Float) (current : Option Instant) : List Event → List Instant
  | [] => []
  | .start .. :: es => starts clock (some (ofSeconds clock)) es
  | .finish .. :: es => current.toList ++ starts clock none es
  | .wait seconds :: es => starts (clock + seconds) current es
  | .output _ :: es | .error _ :: es => starts clock current es

/-- What is added to the history are executions with the texts of these instants. -/
theorem Account.exists_started (es : List Event) (a : Account) (current : Option Instant)
    (hcurrent : a.current.map Execution.started = current.map isoText) :
    ∃ later : List Ended, (a.afterAll es).ended = a.ended ++ later ∧
      later.map (·.started) = (starts a.clock current es).map isoText := by
  induction es generalizing a current with
  | nil => exact ⟨[], (append_nil _).symm, rfl⟩
  | cons e es ih =>
    cases e with
    | start code source context => exact ih (a.after (.start code source context)) _ rfl
    | output v =>
      refine ih (a.after (.output v)) current ?_
      rw [← hcurrent, after, Option.map_map]
      rfl
    | error v =>
      refine ih (a.after (.error v)) current ?_
      rw [← hcurrent, after, Option.map_map]
      rfl
    | wait seconds => exact ih (a.after (.wait seconds)) current hcurrent
    | finish success time usage =>
      obtain ⟨later, hended, hstarted⟩ := ih (a.after (.finish success time usage)) none rfl
      have hall : (a.afterAll (.finish success time usage :: es)).ended = _ := hended
      -- the execution that is on, if there is one, is the first that is added
      refine ⟨(a.current.map (·.ending a.clock success time usage)).toList ++ later, ?_, ?_⟩
      · rw [hall, after, append_assoc]
      · rw [starts, map_append, map_append, hstarted, ← Option.toList_map, ← Option.toList_map, ← hcurrent,
          Option.map_map]
        rfl

/-- Recorded executions are sorted by their instants. -/
theorem sortDescending_recorded (rs : List Recorded) :
    Value.sortDescending (fun e => e.item "timestamp_start") (rs.map fun r => r.document) =
      .ok ((descending Recorded.instant rs).map fun r => r.document) := by
  have hkeys : Value.sortDescending (fun e => e.item "timestamp_start") (rs.map fun r => r.document) =
      (Value.sortDescending (fun r : Recorded => .ok (.str r.started)) rs).map (map fun r => r.document) :=
    Value.sortDescending_map (fun r => rfl) rs
  have hsorted : Value.sortDescending (fun r : Recorded => .ok (.str r.started)) rs =
      .ok (descending Recorded.instant rs) := by
    refine Value.sortDescending_of_ranks (fun r _ => rfl) fun r _ r' _ => ?_
    rw [Value.relate_lt_texts, r.started_eq, r'.started_eq]
    exact congrArg Except.ok (decide_eq_decide.2 (isoText_lt_iff r.inYears r'.inYears))
  rw [hkeys, hsorted]
  rfl

/-- Of executions recorded at any instants, the recent ones are those that started last, the latest first, and those
that started at the same instant in the order of the record. What a tracker records of an execution is the text of the
instant at which it started. -/
theorem recent_started_last (path : String) (w : World) (history : List Recorded) (limit : Nat) (es : List Event) :
    let t : Tracker := { path, executions := .list (history.map fun r => r.document) }
    (∃ chosen, t.recent limit = .ok (.list (chosen.map fun r => r.document)) ∧
      Foremost Recorded.instant limit history chosen) ∧
    ∃ later : List Ended,
      (run (t, w) es).1.executions = .list ((history.map Recorded.toEnded ++ later).map Ended.document) ∧
      later.map (·.started) = (starts w.clock none es).map isoText := by
  intro t
  constructor
  · refine ⟨(descending Recorded.instant history).take limit, ?_, foremost_take ..⟩
    show (Value.sortDescending _ (history.map fun r => r.document) >>= _) = _
    rw [sortDescending_recorded]
    show Except.ok (Value.list (Value.upTo limit _)) = _
    rw [Value.upTo, if_pos (Int.natCast_nonneg limit), Int.toNat_natCast, map_take]
  · let a : Account := { clock := w.clock, ended := history.map Recorded.toEnded }
    have hstart : a.Holds path (t, w) := ⟨by simp [a, t, Account.tracker, Function.comp_def], rfl⟩
    obtain ⟨later, hended, hstarted⟩ := Account.exists_started es a none rfl
    refine ⟨later, ?_, hstarted⟩
    rw [(hstart.run es).1, Account.tracker, hended]

end Tracker

end Feedback

end GzLang
