import GzLang.Proofs.FeedbackLedger

/-!
# The counts of an analyst

A session is a list of requests to an analyst whose file is not there yet: to analyze the record of an execution, or
to start anew from the file. Each line of code with a role is a verdict on its key (`verdicts`), and each error that
is not empty a report under its key (`reports`). The ledger counts verdicts and reports one by one (`Counts.takeIn`)
and is read back as it was (`Counts.isDocument`), so that after any session the counts are those of all records
(`counts_are_exact`).
-/

namespace GzLang.Feedback

open GzLang.Action List Table Value

/-! ### Verdicts, reports and measurements -/

/-- The lines with a role, by their keys, each with whether its execution succeeded. -/
def verdicts (digest : String → String) (runs : List Run) : List (String × Bool) :=
  runs.flatMap fun r => (roledLines r.lines).map fun x => (lineKey digest x, r.success)

/-- The errors of failed executions that are not empty, by their keys, each with the line that it names. -/
def reports (digest : String → String) (runs : List Run) : List (String × Value) :=
  runs.flatMap fun r => (r.complaints.filter (· ≠ "")).map fun error => (errorKey digest error, r.sample error)

def samplesUnder (rs : List (String × Value)) (key : String) : List Value :=
  (rs.filter (·.1 = key)).map Prod.snd

def latest (xs : List Value) : List Value := (xs.filter isPositive).rtake 1000

def scoreOf (vs : List (String × Bool)) (key : String) : Option Score :=
  if key ∈ vs.map Prod.fst then some ⟨vs.count (key, true), vs.count (key, false)⟩ else none

def groupOf (rs : List (String × Value)) (key : String) : Option Group :=
  if samplesUnder rs key = [] then none
  else some ⟨(samplesUnder rs key).length, (samplesUnder rs key).take 5⟩

theorem scoreOf_concat (vs : List (String × Bool)) (key : String) (success : Bool) :
    scoreOf (vs ++ [(key, success)]) key = some (((scoreOf vs key).getD {}).add success) := by
  have hfresh (hnew : key ∉ vs.map Prod.fst) (b : Bool) : vs.count (key, b) = 0 :=
    count_eq_zero.2 fun hmem => hnew (mem_map_of_mem (f := Prod.fst) hmem)
  rw [scoreOf, if_pos (by simp), count_append, count_append, scoreOf]
  by_cases hseen : key ∈ vs.map Prod.fst
  · rw [if_pos hseen]
    cases success <;> simp [Score.add]
  · rw [if_neg hseen, hfresh hseen, hfresh hseen]
    cases success <;> simp [Score.add]

theorem scoreOf_concat_of_ne {key other : String} (h : key ≠ other) (vs : List (String × Bool)) (success : Bool) :
    scoreOf (vs ++ [(key, success)]) other = scoreOf vs other := by
  have hne (b : Bool) : ((key, success) == (other, b)) = false := by simp [h]
  simp [scoreOf, count_append, count_singleton, hne, Ne.symm h]

theorem samplesUnder_concat (rs : List (String × Value)) (key : String) (sample : Value) :
    samplesUnder (rs ++ [(key, sample)]) key = samplesUnder rs key ++ [sample] := by
  simp [samplesUnder]

theorem samplesUnder_concat_of_ne {key other : String} (h : key ≠ other) (rs : List (String × Value)) (sample : Value) :
    samplesUnder (rs ++ [(key, sample)]) other = samplesUnder rs other := by
  simp [samplesUnder, h]

theorem groupOf_concat (rs : List (String × Value)) (key : String) (sample : Value) :
    groupOf (rs ++ [(key, sample)]) key = some (((groupOf rs key).getD {}).add sample) := by
  rw [groupOf, groupOf, samplesUnder_concat, if_neg (by simp)]
  generalize samplesUnder rs key = samples
  by_cases hnone : samples = []
  · rw [if_pos hnone, hnone]
    rfl
  · rw [if_neg hnone, Option.getD_some, Group.add, length_append, length_singleton]
    congr 2
    by_cases hfew : samples.length < 5
    · rw [take_of_length_le hfew.le, if_pos hfew]
      exact take_of_length_le (by rw [length_append]; exact hfew)
    · have hfull : ¬ (samples.take 5).length < 5 := by
        rw [length_take]
        omega
      rw [if_neg hfull, take_append_of_le_length (by omega)]

theorem keep_latest (xs : List Value) (v : Value) : keep (latest xs) v = latest (xs ++ [v]) := by
  rw [keep, latest, latest, filter_append, filter_singleton]
  cases isPositive v with
  | false => simp
  | true =>
    rw [if_pos rfl, cond_true]
    simp only [rtake_eq_reverse_take_reverse, reverse_append, reverse_reverse, reverse_singleton,
      singleton_append, take_succ_cons, take_take]
    rfl

/-! ### What a ledger counts -/

namespace Ledger

/-- A ledger counts some verdicts, reports and measurements. -/
structure Counts (vs : List (String × Bool)) (rs : List (String × Value)) (ts us : List Value) (l : Ledger) :
    Prop where
  nodup_scores : l.scores.keys.Nodup
  scores : ∀ key, l.scores.get? key = scoreOf vs key
  nodup_groups : l.groups.keys.Nodup
  groups : ∀ key, l.groups.get? key = groupOf rs key
  times : l.times = latest ts
  usages : l.usages = latest us

theorem counts_nil : Counts [] [] [] [] {} := ⟨nodup_nil, fun _ => rfl, nodup_nil, fun _ => rfl, rfl, rfl⟩

variable {vs : List (String × Bool)} {rs : List (String × Value)} {ts us : List Value} {l : Ledger}

namespace Counts

theorem score (h : Counts vs rs ts us l) (key : String) (success : Bool) :
    Counts (vs ++ [(key, success)]) rs ts us (l.score key success) where
  nodup_scores := nodup_keys_put h.nodup_scores ..
  scores other := by
    rw [Ledger.score]
    by_cases hkey : key = other
    · subst hkey
      rw [get?_put_self, scoreOf_concat, h.scores]
    · rw [get?_put_of_ne _ hkey, scoreOf_concat_of_ne hkey, h.scores]
  nodup_groups := h.nodup_groups
  groups := h.groups
  times := h.times
  usages := h.usages

theorem complain (h : Counts vs rs ts us l) (key : String) (sample : Value) :
    Counts vs (rs ++ [(key, sample)]) ts us (l.complain key sample) where
  nodup_scores := h.nodup_scores
  scores := h.scores
  nodup_groups := nodup_keys_put h.nodup_groups ..
  groups other := by
    rw [Ledger.complain]
    by_cases hkey : key = other
    · subst hkey
      rw [get?_put_self, groupOf_concat, h.groups]
    · rw [get?_put_of_ne _ hkey, groupOf, samplesUnder_concat_of_ne hkey, h.groups, groupOf]
  times := h.times
  usages := h.usages

theorem scoreAll (h : Counts vs rs ts us l) (digest : String → String) (success : Bool) (xs : List (String × String)) :
    Counts (vs ++ xs.map fun x => (lineKey digest x, success)) rs ts us
      (xs.foldl (fun l x => l.score (lineKey digest x) success) l) := by
  induction xs generalizing vs l with
  | nil =>
    rw [map_nil, append_nil]
    exact h
  | cons x xs ih =>
    rw [map_cons, append_cons]
    exact ih (h.score _ success)

theorem complainAll (h : Counts vs rs ts us l) (digest : String → String) (r : Run) (errors : List String) :
    Counts vs (rs ++ (errors.filter (· ≠ "")).map fun error => (errorKey digest error, r.sample error)) ts us
      (errors.foldl (fun l error => l.complainOf digest r error) l) := by
  induction errors generalizing rs l with
  | nil =>
    rw [filter_nil, map_nil, append_nil]
    exact h
  | cons error errors ih =>
    rw [foldl_cons, complainOf, filter_cons]
    by_cases hempty : error = ""
    · rw [if_pos hempty, if_neg (by simp [hempty])]
      exact ih h
    · rw [if_neg hempty, if_pos (by simp [hempty]), map_cons, append_cons]
      exact ih (h.complain _ _)

end Counts

def Tells (digest : String → String) (runs : List Run) (l : Ledger) : Prop :=
  Counts (verdicts digest runs) (reports digest runs) (runs.map Run.time) (runs.map Run.usage) l

variable {digest : String → String} {runs : List Run}

theorem Tells.takeIn (h : l.Tells digest runs) (r : Run) : (l.takeIn digest r).Tells digest (runs ++ [r]) := by
  have hcounts := (Counts.scoreAll h digest r.success (roledLines r.lines)).complainAll digest r r.complaints
  rw [Tells, verdicts, reports, flatMap_append, flatMap_append, flatMap_singleton,
    flatMap_singleton, map_append, map_append]
  exact { hcounts with
    times := by
      rw [Ledger.takeIn]
      exact (congrArg (keep · r.time) hcounts.times).trans (keep_latest _ _)
    usages := by
      rw [Ledger.takeIn]
      exact (congrArg (keep · r.usage) hcounts.usages).trans (keep_latest _ _) }

/-! ### The document -/

theorem isDocument_sample (r : Run) (error : String) : (r.sample error).IsDocument := by
  have hline : (r.lineOf error).IsDocument := by
    rw [Run.lineOf, lineAt.eq_def]
    split
    · split
      · split
        · exact isDocument_str _
        · exact ⟨rfl, rfl⟩
      · exact ⟨rfl, rfl⟩
    · exact ⟨rfl, rfl⟩
  refine isDocument_dict_iff.2 ⟨by simp [Table.keys], ?_⟩
  simp only [forall_mem_cons]
  exact ⟨isDocument_str _, hline, forall_mem_nil _⟩

theorem isDocument_latest {xs : List Value} (h : ∀ x ∈ xs, x.IsDocument) : (Value.list (latest xs)).IsDocument :=
  isDocument_list fun x hx => h x (mem_filter.1 (mem_of_mem_drop hx)).1

/-- The verdicts and the reports on some records can be counted. -/
def Few (digest : String → String) (runs : List Run) : Prop :=
  (verdicts digest runs).length < countLimit ∧ (reports digest runs).length < countLimit

theorem Tells.isDocument_scores (h : l.Tells digest runs) (hfew : (verdicts digest runs).length < countLimit) :
    (Value.dict l.scoreItems).IsDocument := by
  refine isDocument_dict_iff.2 ⟨?_, fun x hx => ?_⟩
  · rw [scoreItems, Table.keys_map]
    exact h.nodup_scores
  · obtain ⟨e, he, rfl⟩ := mem_map.1 hx
    have hscore := Table.get?_of_mem h.nodup_scores he
    rw [h.scores, scoreOf] at hscore
    split at hscore
    · have hcount (b : Bool) : (Value.int ((verdicts digest runs).count (e.1, b))).IsDocument :=
        isDocument_count (count_le_length.trans_lt hfew)
      refine isDocument_dict_iff.2 ⟨by simp [Table.keys], ?_⟩
      rw [← Option.some.inj hscore]
      simp only [forall_mem_cons]
      exact ⟨hcount true, hcount false, forall_mem_nil _⟩
    · cases hscore

theorem Tells.isDocument_groups (h : l.Tells digest runs) (hfew : (reports digest runs).length < countLimit) :
    (Value.dict l.groupItems).IsDocument := by
  refine isDocument_dict_iff.2 ⟨?_, fun x hx => ?_⟩
  · rw [groupItems, Table.keys_map]
    exact h.nodup_groups
  · obtain ⟨e, he, rfl⟩ := mem_map.1 hx
    have hgroup := Table.get?_of_mem h.nodup_groups he
    rw [h.groups, groupOf] at hgroup
    split at hgroup
    · cases hgroup
    · have hlength : (samplesUnder (reports digest runs) e.1).length ≤ (reports digest runs).length := by
        rw [samplesUnder, length_map]
        exact length_filter_le ..
      have hsamples : ∀ v ∈ (samplesUnder (reports digest runs) e.1).take 5, v.IsDocument := by
        intro v hv
        obtain ⟨report, hreport, rfl⟩ := mem_map.1 (mem_of_mem_take hv)
        obtain ⟨r, -, hr⟩ := mem_flatMap.1 (mem_filter.1 hreport).1
        obtain ⟨error, -, rfl⟩ := mem_map.1 hr
        exact isDocument_sample r error
      refine isDocument_dict_iff.2 ⟨by simp [Table.keys], ?_⟩
      rw [← Option.some.inj hgroup]
      simp only [forall_mem_cons]
      exact ⟨isDocument_count (hlength.trans_lt hfew), isDocument_list hsamples, forall_mem_nil _⟩

/-- The document of a ledger is plain if there is not too much to count. -/
theorem Tells.isDocument (h : l.Tells digest runs) (hfew : Few digest runs) (path : String) :
    (l.analyst path digest).document.IsDocument := by
  have htimes : (Value.list l.times).IsDocument := by
    rw [h.times]
    exact isDocument_latest (forall_mem_map.2 fun r _ => r.isDocument_time)
  have husages : (Value.list l.usages).IsDocument := by
    rw [h.usages]
    exact isDocument_latest (forall_mem_map.2 fun r _ => r.isDocument_usage)
  have hperformance : l.performance.IsDocument := by
    refine isDocument_dict_iff.2 ⟨by simp [Table.keys], ?_⟩
    simp only [forall_mem_cons]
    exact ⟨htimes, husages, forall_mem_nil _⟩
  refine isDocument_dict_iff.2 ⟨by simp [Table.keys], ?_⟩
  simp only [forall_mem_cons]
  exact ⟨h.isDocument_scores hfew.1, h.isDocument_groups hfew.2, hperformance, forall_mem_nil _⟩

end Ledger

/-! ### Sessions -/

inductive Request where
  | analyze (r : Run)
  | reopen

def runsAfter (runs : List Run) : Request → List Run
  | .analyze r => runs ++ [r]
  | .reopen => runs

def runsOf (rs : List Request) : List Run := rs.foldl runsAfter []

theorem few_of_runsAfter (digest : String → String) (runs : List Run) (r : Request)
    (h : Ledger.Few digest (runsAfter runs r)) : Ledger.Few digest runs := by
  cases r with
  | reopen => exact h
  | analyze r =>
    rw [runsAfter, Ledger.Few, verdicts, reports, flatMap_append, flatMap_append, length_append, length_append] at h
    exact ⟨(Nat.le_add_right ..).trans_lt h.1, (Nat.le_add_right ..).trans_lt h.2⟩

namespace Analyst

def serve (p : FilePlace) (digest : String → String) : Request → Task Analyst Unit
  | .analyze r => do analyze (← shown (.str r.code) (.dict r.result))
  | .reopen => do
    let a ← Analyst.open p.path digest
    Task.update fun _ => a

/-- An analyst and its file hold a ledger that tells of the records so far. -/
structure InCourse (p : FilePlace) (digest : String → String) (runs : List Run) (l : Ledger) (s : Analyst × World) :
    Prop where
  tells : l.Tells digest runs
  state : s.1 = l.analyst p.path digest
  file : p.Holds (some (l.analyst p.path digest).document) s.2.disk ∨ l = {} ∧ p.Holds none s.2.disk

variable {p : FilePlace} {digest : String → String} {runs : List Run} {l : Ledger} {s : Analyst × World} {w : World}

theorem perform_open_none (h : p.Holds none w.disk) :
    (Analyst.open p.path digest).perform w = (.ok (({} : Ledger).analyst p.path digest), w) := by
  have hload : load.perform (({} : Ledger).analyst p.path digest, w) =
      (.ok (), (({} : Ledger).analyst p.path digest, w)) := by
    rw [load, bind_self, perform_orElse]
    rw [show (({} : Ledger).analyst p.path digest).path = p.path from rfl,
      Task.bind_lift (Job.perform_pathExists p.path w), h.has_none]
    rfl
  show (Task.start (({} : Ledger).analyst p.path digest) load).perform w = _
  rw [Task.start, perform_of, hload]

theorem perform_open_some (h : p.Holds (some (l.analyst p.path digest).document) w.disk)
    (hl : (l.analyst p.path digest).document.IsDocument) :
    (Analyst.open p.path digest).perform w = (.ok (l.analyst p.path digest), w) := by
  have hload : load.perform (({} : Ledger).analyst p.path digest, w) = (.ok (), (l.analyst p.path digest, w)) := by
    have hread := h.perform_load hl.whole
    rw [hl.normal] at hread
    rw [load, bind_self, perform_orElse]
    rw [show (({} : Ledger).analyst p.path digest).path = p.path from rfl,
      Task.bind_lift (Job.perform_pathExists p.path w), Disk.has_of_content h.content, if_pos rfl,
      Task.bind_lift hread]
    rfl
  show (Task.start (({} : Ledger).analyst p.path digest) load).perform w = _
  rw [Task.start, perform_of, hload]

/-- Every request is served, and the analyst goes on to tell of all records. -/
theorem InCourse.perform_serve (h : InCourse p digest runs l s) (r : Request)
    (hfew : Ledger.Few digest (runsAfter runs r)) :
    ∃ u s', (serve p digest r).perform s = (.ok u, s') ∧ ∃ l', InCourse p digest (runsAfter runs r) l' s' := by
  obtain ⟨a, w⟩ := s
  obtain rfl : a = l.analyst p.path digest := h.state
  cases r with
  | analyze r =>
    obtain ⟨filed, hholds⟩ : ∃ filed, p.Holds filed w.disk := by
      rcases h.file with hholds | ⟨-, hholds⟩
      · exact ⟨_, hholds⟩
      · exact ⟨_, hholds⟩
    obtain ⟨v, hv, hshown⟩ := r.exists_shown
    obtain ⟨d, hperform, hholds'⟩ := perform_analyze l digest hholds hshown
    refine ⟨(), ((l.takeIn digest r).analyst p.path digest, w.withDisk d), ?_, l.takeIn digest r, h.tells.takeIn r,
      rfl, .inl hholds'⟩
    rw [serve, Action.bind_lift hv, hperform]
  | reopen =>
    have hopen : (Analyst.open p.path digest).perform w = (.ok (l.analyst p.path digest), w) := by
      rcases h.file with hholds | ⟨rfl, hholds⟩
      · exact perform_open_some hholds (h.tells.isDocument hfew p.path)
      · exact perform_open_none hholds
    refine ⟨(), (l.analyst p.path digest, w), ?_, l, h⟩
    rw [serve, Task.bind_lift hopen]
    rfl

end Analyst

/-! ### Exact counts -/

/-- An analyst's counts are exactly those of some records. -/
structure Exact (digest : String → String) (runs : List Run) (a : Analyst) : Prop where
  /-- A key that no line has is not there. -/
  unseen : ∀ key, key ∉ (verdicts digest runs).map Prod.fst → a.outcomes.get? key = none
  seen : ∀ key ∈ (verdicts digest runs).map Prod.fst, a.outcomes.get? key =
    some (.dict [("success", .int ((verdicts digest runs).count (key, true))),
      ("failure", .int ((verdicts digest runs).count (key, false)))])
  unreported : ∀ key, samplesUnder (reports digest runs) key = [] → a.errors.get? key = none
  reported : ∀ key, samplesUnder (reports digest runs) key ≠ [] → a.errors.get? key =
    some (.dict [("count", .int (samplesUnder (reports digest runs) key).length),
      ("examples", .list ((samplesUnder (reports digest runs) key).take 5))])
  times : a.performance.item "execution_times" = .ok (.list (latest (runs.map Run.time)))
  usages : a.performance.item "memory_usage" = .ok (.list (latest (runs.map Run.usage)))

theorem Ledger.Tells.exact {l : Ledger} {digest : String → String} {runs : List Run} (h : l.Tells digest runs)
    (path : String) : Exact digest runs (l.analyst path digest) where
  unseen key hkey := by
    show get? l.scoreItems key = _
    rw [scoreItems, get?_map, h.scores, scoreOf, if_neg hkey]
    rfl
  seen key hkey := by
    show get? l.scoreItems key = _
    rw [scoreItems, get?_map, h.scores, scoreOf, if_pos hkey]
    rfl
  unreported key hkey := by
    show get? l.groupItems key = _
    rw [groupItems, get?_map, h.groups, groupOf, if_pos hkey]
    rfl
  reported key hkey := by
    show get? l.groupItems key = _
    rw [groupItems, get?_map, h.groups, groupOf, if_neg hkey]
    rfl
  times := congrArg (fun xs => Except.ok (Value.list xs)) h.times
  usages := congrArg (fun xs => Except.ok (Value.list xs)) h.usages

/-- Whatever an analyst was asked so far, starting without a file, it served all of it, as long as there is not too
much to count. Whatever the hash, a line's successes and failures are the numbers of lines with its key in successful
and in failed executions, the number of an error is that of the errors with its key that are not empty, with the
first five as examples, and the measurements are the last thousand of the positive ones. -/
theorem counts_are_exact (p : FilePlace) {w : World} (h : p.Holds none w.disk) (digest : String → String)
    (rs : List Request) (hfew : Ledger.Few digest (runsOf rs)) :
    ∃ a₀ us a w', (Analyst.open p.path digest).perform w = (.ok a₀, w) ∧
      (rs.mapM (Analyst.serve p digest)).perform (a₀, w) = (.ok us, (a, w')) ∧ Exact digest (runsOf rs) a := by
  have hstart : Analyst.InCourse p digest [] {} (({} : Ledger).analyst p.path digest, w) :=
    ⟨Ledger.counts_nil, rfl, .inr ⟨rfl, h⟩⟩
  obtain ⟨us, ⟨a, w'⟩, hserved, l, hcourse⟩ := perform_mapM_of_course
    (P := fun runs s => ∃ l, Analyst.InCourse p digest runs l s) (few_of_runsAfter digest)
    (fun r _ _ _ hl hfew => hl.elim fun _ hl => hl.perform_serve r hfew) ⟨{}, hstart⟩ hfew
  obtain rfl : a = l.analyst p.path digest := hcourse.state
  exact ⟨_, us, _, w', Analyst.perform_open_none h, hserved, hcourse.tells.exact p.path⟩

def usualPlace : FilePlace where
  folder := ["models"]
  name := "feedback_knowledge.json"
  isName := by decide
  folder_ne_nil := FilePlace.models_ne_nil

def goodRun : Run where
  code := "sulat x"
  result := [("success", .bool true), ("execution_time", .int 3)]
  success := true
  errors := []
  time := .int 3
  usage := .int 0
  success_eq := rfl
  errors_eq := rfl
  time_eq := rfl
  usage_eq := rfl
  isNumber_time := rfl
  isNumber_usage := rfl
  isDocument_time := isDocument_int (by decide)
  isDocument_usage := isDocument_int (by decide)

def badRun : Run where
  code := "sulat x"
  result := [("success", .bool false), ("errors", texts ["", "no x"])]
  success := false
  errors := ["", "no x"]
  time := .int 0
  usage := .int 0
  success_eq := rfl
  errors_eq := rfl
  time_eq := rfl
  usage_eq := rfl
  isNumber_time := rfl
  isNumber_usage := rfl
  isDocument_time := isDocument_int (by decide)
  isDocument_usage := isDocument_int (by decide)

def briefSession : List Request := [.analyze goodRun, .reopen, .analyze badRun]

/-- Where all hashes are the same, the line has a success and a failure, and the error that is not empty is counted. -/
theorem brief_counts : ∃ a₀ us a w', (Analyst.open usualPlace.path fun _ => "0").perform {} = (.ok a₀, {}) ∧
      (briefSession.mapM (Analyst.serve usualPlace fun _ => "0")).perform (a₀, {}) = (.ok us, (a, w')) ∧
      Table.get? a.outcomes "print_statement:0" = some (.dict [("success", .int 1), ("failure", .int 1)]) ∧
      Table.get? a.errors "0" = some (.dict [("count", .int 1), ("examples", .list [badRun.sample "no x"])]) ∧
      a.performance.item "execution_times" = .ok (.list [.int 3]) := by
  have hverdicts : verdicts (fun _ => "0") (runsOf briefSession) =
      [("print_statement:0", true), ("print_statement:0", false)] := by cbv
  have hreports : reports (fun _ => "0") (runsOf briefSession) = [("0", badRun.sample "no x")] := by cbv
  have hlimit : 2 < Value.countLimit := by decide +kernel
  have hfew : Ledger.Few (fun _ => "0") (runsOf briefSession) := by
    rw [Ledger.Few, hverdicts, hreports]
    exact ⟨hlimit, (Nat.lt_succ_self 1).trans hlimit⟩
  obtain ⟨a₀, us, a, w', hopen, hserved, hexact⟩ :=
    counts_are_exact usualPlace (w := {}) usualPlace.holds_nil (fun _ => "0") briefSession hfew
  have hseen := hexact.seen "print_statement:0"
  have hreported := hexact.reported "0"
  rw [hverdicts] at hseen
  rw [hreports] at hreported
  exact ⟨a₀, us, a, w', hopen, hserved, hseen List.mem_cons_self, hreported (List.cons_ne_nil _ _), hexact.times⟩

end GzLang.Feedback
