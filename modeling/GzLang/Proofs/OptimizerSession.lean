import GzLang.Proofs.OptimizerCall

/-!
# The counts of an optimizer

A session is a list of requests to an optimizer whose file is not there yet: calls, with a level or without one,
and new starts from the file. `course` says from the requests alone which calls there were and which level is
current. Every request keeps the optimizer and its file in the course of the session (`InCourse.perform_serve`),
so that all requests are served, and after each call the counts are exactly those of the calls so far
(`calls_are_counted`).
-/

namespace GzLang.Optimization

open GzLang.Action List

/-! ### Counts and calls -/

def Call.changes (c : Call) : Bool := c.result ≠ c.code

/-- In how many of some calls a technique changed the code. -/
def usesIn (cs : List Call) (name : String) : Nat := cs.countP fun c => name ∈ c.changers

namespace Tally

structure Tells (t : Tally) (cs : List Call) : Prop where
  total : t.total = cs.length
  successful : t.successful = cs.countP Call.changes
  distinct : t.uses.keys.Nodup
  uses : ∀ name, t.uses.get? name = if usesIn cs name = 0 then none else some (usesIn cs name)

theorem tells_nil : Tells {} [] := ⟨rfl, rfl, nodup_nil, fun _ => rfl⟩

theorem nodup_keys_useAll {t : Tally} (h : t.uses.keys.Nodup) (names : List String) :
    (t.useAll names).uses.keys.Nodup := by
  induction names generalizing t with
  | nil => exact h
  | cons name names ih => exact ih (t := t.useAll [name]) (Table.nodup_keys_put h _ _)

theorem get?_useAll {names : List String} (h : names.Nodup) (t : Tally) (name : String) :
    (t.useAll names).uses.get? name =
      if name ∈ names then some ((t.uses.get? name).getD 0 + 1) else t.uses.get? name := by
  induction names generalizing t with
  | nil => rfl
  | cons first names ih =>
    obtain ⟨hfirst, hnames⟩ := nodup_cons.1 h
    have hput : (t.useAll [first]).uses = t.uses.put first ((t.uses.get? first).getD 0 + 1) := rfl
    refine (ih hnames (t.useAll [first])).trans ?_
    rw [hput]
    by_cases heq : first = name
    · subst heq
      rw [if_neg hfirst, if_pos mem_cons_self, Table.get?_put_self]
    · rw [Table.get?_put_of_ne _ heq]
      simp only [mem_cons, Ne.symm heq, false_or]

variable {t : Tally} {cs : List Call}

theorem Tells.next (h : t.Tells cs) (c : Call) (r : Option Float) : (t.next c r).Tells (cs ++ [c]) where
  total := by
    rw [Tally.next, h.total, length_append]
    rfl
  successful := by
    rw [Tally.next, h.successful, countP_append, countP_singleton]
    by_cases hsame : c.result = c.code <;> simp [Call.changes, hsame]
  distinct := nodup_keys_useAll h.distinct _
  uses name := by
    refine (get?_useAll c.nodup_changers t name).trans ?_
    rw [h.uses, usesIn, usesIn, countP_append, countP_singleton]
    by_cases hmem : name ∈ c.changers
    · by_cases hzero : cs.countP (fun c => decide (name ∈ c.changers)) = 0 <;> simp [hmem, hzero]
    · simp [hmem]

theorem usesIn_le (cs : List Call) (name : String) : usesIn cs name ≤ cs.length := countP_le_length

/-- Counts that are not too many can be written, and are read back as they were. -/
theorem Tells.isDocument (h : t.Tells cs) (hfew : cs.length < Value.countLimit) : t.document.IsDocument := by
  have hcount {n : Nat} (hn : n ≤ cs.length) : (Value.int n).IsDocument := Value.isDocument_count (hn.trans_lt hfew)
  have husage {n : Nat} (hn : n ≤ cs.length) : (usage n).IsDocument := by
    refine Value.isDocument_dict_iff.2 ⟨by simp [Table.keys], ?_⟩
    simp only [forall_mem_cons, not_mem_nil, false_implies, implies_true, and_true]
    exact ⟨hcount hn, hcount hn⟩
  have htechniques : (Value.dict t.techniques).IsDocument := by
    refine Value.isDocument_dict_iff.2 ⟨?_, fun e he => ?_⟩
    · rw [techniques, Table.keys_map]
      exact h.distinct
    · obtain ⟨⟨name, n⟩, hmem, rfl⟩ := mem_map.1 he
      have hget := h.uses name
      rw [Table.get?_of_mem h.distinct hmem] at hget
      split at hget
      · cases hget
      · cases hget
        exact husage (usesIn_le cs name)
  have hreduction : t.reductionValue.IsDocument := by
    rw [reductionValue]
    cases t.reduction with
    | none => exact hcount (n := 0) (Nat.zero_le _)
    | some x => exact ⟨rfl, rfl⟩
  have hsuccessful : t.successful ≤ cs.length := h.successful ▸ countP_le_length
  refine Value.isDocument_dict_iff.2 ⟨by simp [Table.keys], ?_⟩
  simp only [forall_mem_cons, not_mem_nil, false_implies, implies_true, and_true]
  exact ⟨hcount h.total.le, hcount hsuccessful, hreduction, hcount (n := 0) (Nat.zero_le _), htechniques⟩

end Tally

/-- The counts as they are kept are those of some calls. -/
structure Counted (cs : List Call) (counts : Value) : Prop where
  total : counts.item "total_optimizations" = .ok (.int cs.length)
  successful : counts.item "successful_optimizations" = .ok (.int (cs.countP Call.changes))
  performance : counts.item "performance_improvement" = .ok (.int 0)
  /-- A technique is noted as soon as it changed code, with as many applications as successes. -/
  techniques : ∃ ts, counts.item "techniques" = .ok (.dict ts) ∧ ∀ name, Table.get? ts name =
    if usesIn cs name = 0 then none
    else some (.dict [("applications", .int (usesIn cs name)), ("successes", .int (usesIn cs name))])

theorem Tally.Tells.counted {t : Tally} {cs : List Call} (h : t.Tells cs) : Counted cs t.document where
  total := by
    rw [← h.total]
    rfl
  successful := by
    rw [← h.successful]
    rfl
  performance := rfl
  techniques := by
    refine ⟨t.techniques, rfl, fun name => ?_⟩
    rw [Tally.techniques, Table.get?_map, h.uses]
    split <;> rfl

/-! ### Sessions -/

/-- What is asked of an optimizer: to optimize code, up to a level if one is given, or to start anew with the
counts in its file. -/
inductive Request where
  | optimize (code : String) (level : Option Int)
  | reopen

/-- The calls so far, and the level that is current. -/
structure Course where
  calls : List Call := []
  current : Int := 1

def levelAfter (cs : List Call) : Int := levelOf cs.length (cs.countP Call.changes)

def Course.next (c : Course) : Request → Course
  | .optimize code level =>
    let calls := c.calls ++ [⟨code, level.getD c.current⟩]
    ⟨calls, levelAfter calls⟩
  | .reopen => { c with current := 1 }

def course (rs : List Request) : Course := rs.foldl Course.next {}

theorem levelOf_mono {m m' n n' : Nat} (hm : m ≤ m') (hn : n ≤ n') : levelOf m n ≤ levelOf m' n' := by
  rw [levelOf, levelOf]
  split_ifs <;> omega

theorem one_le_levelOf (m n : Nat) : 1 ≤ levelOf m n := by
  rw [levelOf]
  split_ifs <;> omega

theorem levelAfter_le_append (cs ds : List Call) : levelAfter cs ≤ levelAfter (cs ++ ds) := by
  rw [levelAfter, levelAfter, length_append, countP_append]
  exact levelOf_mono (Nat.le_add_right ..) (Nat.le_add_right ..)

theorem Course.length_calls_le (c : Course) (rs : List Request) :
    c.calls.length ≤ (rs.foldl Course.next c).calls.length := by
  induction rs generalizing c with
  | nil => exact le_rfl
  | cons r rs ih =>
    refine le_trans ?_ (ih (c.next r))
    cases r with
    | optimize code level => simp [Course.next]
    | reopen => exact le_rfl

namespace Optimizer

def serve (p : FilePlace) : Request → Task Optimizer Value
  | .optimize code level => optimize (.str code) (asked level)
  | .reopen => do
    let o ← Optimizer.open p.path
    Task.update fun _ => o
    return .null

structure InCourse (p : FilePlace) (c : Course) (o : Optimizer) (d : Disk) : Prop where
  tally : ∃ t : Tally, t.Tells c.calls ∧ Shows o p.path c.current t ∧
    (p.Holds (some t.document) d ∨ t = {} ∧ p.Holds none d)
  current_le : c.current ≤ levelAfter c.calls

variable {p : FilePlace} {c : Course} {o : Optimizer} {w : World}

theorem perform_open_none (h : p.Holds none w.disk) :
    (Optimizer.open p.path).perform w = (.ok { path := p.path }, w) := by
  have hload : load.perform ({ path := p.path }, w) = (.ok (), ({ path := p.path }, w)) := by
    rw [load, bind_self, perform_orElse, Task.bind_lift (Job.perform_pathExists p.path w), h.has_none]
    rfl
  rw [Optimizer.open, Task.start, perform_of, hload]

theorem perform_open_some {v : Value} (h : p.Holds (some v) w.disk) (hv : v.IsDocument) :
    (Optimizer.open p.path).perform w = (.ok { path := p.path, counts := v }, w) := by
  have hload : load.perform ({ path := p.path }, w) = (.ok (), ({ path := p.path, counts := v }, w)) := by
    have hread := h.perform_load hv.whole
    rw [hv.normal] at hread
    rw [load, bind_self, perform_orElse, Task.bind_lift (Job.perform_pathExists p.path w),
      Disk.has_of_content h.content, if_pos rfl,
      Task.bind_lift hread]
    rfl
  rw [Optimizer.open, Task.start, perform_of, hload]

theorem shows_started (path : String) (t : Tally) : Shows { path, counts := t.document } path 1 t :=
  ⟨rfl, rfl, rfl, rfl⟩

theorem inCourse_start {d : Disk} (h : p.Holds none d) : InCourse p {} { path := p.path } d :=
  ⟨⟨{}, Tally.tells_nil, shows_started p.path {}, .inr ⟨rfl, h⟩⟩, le_rfl⟩

/-- An optimizer serves a call and stays in the course of its session. -/
theorem InCourse.perform_optimize (h : InCourse p c o w.disk) (code : String) (level : Option Int) :
    ∃ o' d, (optimize (.str code) (asked level)).perform (o, w) =
        (.ok (Call.answer ⟨code, level.getD c.current⟩), (o', w.withDisk d)) ∧
      InCourse p (c.next (.optimize code level)) o' d := by
  obtain ⟨t, htells, hshows, hfile⟩ := h.tally
  obtain ⟨filed, hholds⟩ : ∃ filed, p.Holds filed w.disk := by
    rcases hfile with hholds | ⟨-, hholds⟩
    · exact ⟨_, hholds⟩
    · exact ⟨_, hholds⟩
  obtain ⟨o', d, r, hperform, hshows', hholds'⟩ := Optimizer.perform_optimize hshows hholds
      (show level.getD c.current = (Call.mk code (level.getD c.current)).limit from rfl)
  have htells' := htells.next ⟨code, level.getD c.current⟩ r
  rw [htells'.total, htells'.successful] at hshows'
  exact ⟨o', d, hperform, ⟨_, htells', hshows', .inl hholds'⟩, le_rfl⟩

/-- An optimizer is started anew with its counts, as long as they could be written. -/
theorem InCourse.perform_open (h : InCourse p c o w.disk) (hfew : c.calls.length < Value.countLimit) :
    ∃ o', (Optimizer.open p.path).perform w = (.ok o', w) ∧ InCourse p (c.next .reopen) o' w.disk := by
  obtain ⟨t, htells, -, hfile⟩ := h.tally
  have hle : (c.next .reopen).current ≤ levelAfter c.calls := one_le_levelOf _ _
  rcases hfile with hholds | ⟨rfl, hholds⟩
  · have hopen := perform_open_some hholds (htells.isDocument hfew)
    exact ⟨_, hopen, ⟨t, htells, shows_started _ t, .inl hholds⟩, hle⟩
  · exact ⟨_, perform_open_none hholds, ⟨{}, htells, shows_started _ {}, .inr ⟨rfl, hholds⟩⟩, hle⟩

/-- Every request is served, and the optimizer stays in the course of its session. -/
theorem InCourse.perform_serve (h : InCourse p c o w.disk) (hfew : c.calls.length < Value.countLimit) (r : Request) :
    ∃ v o' w', (serve p r).perform (o, w) = (.ok v, (o', w')) ∧ InCourse p (c.next r) o' w'.disk := by
  cases r with
  | optimize code level =>
    obtain ⟨o', d, hperform, hcourse⟩ := h.perform_optimize code level
    exact ⟨_, o', _, hperform, hcourse⟩
  | reopen =>
    obtain ⟨o', hperform, hcourse⟩ := h.perform_open hfew
    refine ⟨.null, o', w, ?_, hcourse⟩
    rw [serve, Task.bind_lift hperform]
    rfl

theorem InCourse.perform_serveAll {rs : List Request} (h : InCourse p c o w.disk)
    (hfew : (rs.foldl Course.next c).calls.length < Value.countLimit) :
    ∃ vs o' w', (rs.mapM (serve p)).perform (o, w) = (.ok vs, (o', w')) ∧
      InCourse p (rs.foldl Course.next c) o' w'.disk := by
  induction rs generalizing c o w with
  | nil => exact ⟨[], o, w, rfl, h⟩
  | cons r rs ih =>
    have hnow : c.calls.length < Value.countLimit := (c.length_calls_le (r :: rs)).trans_lt hfew
    obtain ⟨v, o₁, w₁, hfirst, h₁⟩ := h.perform_serve hnow r
    obtain ⟨vs, o₂, w₂, hrest, h₂⟩ := ih h₁ hfew
    refine ⟨v :: vs, o₂, w₂, ?_, h₂⟩
    rw [mapM_cons, bind_of_ok hfirst, bind_of_ok hrest]
    rfl

/-- Whatever an optimizer was asked so far, starting without a file, it served all of it, as long as its counts
are not too long to be written, and serves the next call. Its counts are then those of all calls: how many there
were, how many changed their code, no improvement of speed, and for each technique in how many calls it changed
the code. The level is the one for these numbers, and not less than before the call. -/
theorem calls_are_counted (p : FilePlace) {w : World} (h : p.Holds none w.disk) (rs : List Request)
    (hfew : (course rs).calls.length < Value.countLimit) (code : String) (level : Option Int) :
    ∃ o₀ vs o w₁ o' w₂, (Optimizer.open p.path).perform w = (.ok o₀, w) ∧
      (rs.mapM (serve p)).perform (o₀, w) = (.ok vs, (o, w₁)) ∧
      let c : Call := ⟨code, level.getD o.current⟩
      let cs := (course rs).calls ++ [c]
      let total := cs.length
      let successful := cs.countP Call.changes
      (optimize (.str code) (asked level)).perform (o, w₁) = (.ok c.answer, (o', w₂)) ∧
        Counted cs o'.counts ∧ successful ≤ total ∧
        o'.current = (if 30 ≤ total ∧ 20 ≤ successful then 3 else if 10 ≤ total then 2 else 1) ∧
        o.current ≤ o'.current := by
  obtain ⟨vs, o, w₁, hserved, hcourse⟩ := (inCourse_start h).perform_serveAll hfew
  obtain ⟨o', d, hperform, hcourse'⟩ := hcourse.perform_optimize code level
  obtain ⟨t, -, hshows, -⟩ := hcourse.tally
  obtain ⟨t', htells, hshows', -⟩ := hcourse'.tally
  have hcurrent : o.current = (course rs).current := hshows.current
  refine ⟨{ path := p.path }, vs, o, w₁, o', w₁.withDisk d, perform_open_none h, hserved, ?_⟩
  rw [hcurrent, hshows'.current]
  refine ⟨hperform, ?_, List.countP_le_length, rfl, hcourse.current_le.trans (levelAfter_le_append _ _)⟩
  rw [hshows'.counts]
  exact htells.counted

def usualPlace : FilePlace where
  folder := ["models"]
  name := "optimization_stats.json"
  isName := by decide
  folder_ne_nil := FilePlace.models_ne_nil

def briefSession : List Request := [.optimize "kung x == tama" none, .reopen]

/-- What was counted before the new start counts after a call that applies no technique. -/
theorem first_call_is_still_counted :
    ∃ o₀ vs o w₁ o' w₂ ts, (Optimizer.open usualPlace.path).perform {} = (.ok o₀, {}) ∧
      (briefSession.mapM (serve usualPlace)).perform (o₀, {}) = (.ok vs, (o, w₁)) ∧
      (optimize (.str "kung x == tama") (.int 0)).perform (o, w₁) =
        (.ok (Call.answer ⟨"kung x == tama", 0⟩), (o', w₂)) ∧
      o'.counts.item "total_optimizations" = .ok (.int 2) ∧
      o'.counts.item "successful_optimizations" = .ok (.int 1) ∧
      o'.counts.item "techniques" = .ok (.dict ts) ∧ Table.get? ts "simplify_boolean_expressions" =
        some (.dict [("applications", .int 1), ("successes", .int 1)]) ∧ o'.current = 1 := by
  have hcalls : (course briefSession).calls = [⟨"kung x == tama", 1⟩] := rfl
  have hfew : (course briefSession).calls.length < Value.countLimit := by
    rw [hcalls]
    decide +kernel
  have hcount : ([Call.mk "kung x == tama" 1] ++ [Call.mk "kung x == tama" 0]).countP Call.changes = 1 := by cbv
  have huses : usesIn ([Call.mk "kung x == tama" 1] ++ [Call.mk "kung x == tama" 0])
      "simplify_boolean_expressions" = 1 := by cbv
  obtain ⟨o₀, vs, o, w₁, o', w₂, hopen, hserved, hcall, hcounted, -, hcurrent, -⟩ :=
    calls_are_counted usualPlace (w := {}) usualPlace.holds_nil briefSession hfew "kung x == tama" (some 0)
  rw [hcalls, Option.getD_some] at hcounted hcurrent
  rw [hcount] at hcurrent
  obtain ⟨ts, hts, hnotes⟩ := hcounted.techniques
  have hsuccessful := hcounted.successful
  have hnote := hnotes "simplify_boolean_expressions"
  rw [hcount] at hsuccessful
  rw [huses] at hnote
  exact ⟨o₀, vs, o, w₁, o', w₂, ts, hopen, hserved, hcall, hcounted.total, hsuccessful, hts, hnote, hcurrent⟩

end Optimizer

end GzLang.Optimization
