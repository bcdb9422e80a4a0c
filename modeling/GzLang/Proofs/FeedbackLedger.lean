import GzLang.Feedback.Extraction
import GzLang.Feedback.Knowledge
import GzLang.Proofs.FilePlace
import GzLang.Proofs.Ranking

/-!
# What an analyst keeps

An analyst keeps a ledger (`Ledger`): for each key of lines how often they succeeded and failed, for each key of
errors their number and the first five, and the latest times and sizes. What an execution shows is taken in line by
line, error by error, and then the cost (`Ledger.takeIn`); that is all that an analysis does, and it is saved
(`perform_analyze`).
-/

namespace GzLang.Feedback

open GzLang.Action Table Value

/-! ### What a record shows -/

theorem errorsShown_dict (lines : List (List Char)) (success : Value) (result : Table Value) :
    errorsShown lines success (.dict result) =
      if success.isTrue || !((result.get? "errors").getD .null).isTrue then .ok []
      else do
        let errors ← ((result.get? "errors").getD .null).elements
        return [("error_patterns", .list (← errors.mapM (errorShown lines)))] := by
  rw [errorsShown, itemD, item_dict]
  cases success.isTrue with
  | true => rfl
  | false =>
    cases result.get? "errors" with
    | none => rfl
    | some v => cases htrue : v.isTrue <;> simp [htrue, pure, Except.pure, bind, Except.bind]

theorem shown_dict (code : String) {result : Table Value} (h : result ≠ []) : shown (.str code) (.dict result) =
      (errorsShown (Text.lines code.toList) ((result.get? "success").getD (.bool false)) (.dict result)).map fun es =>
        .dict ([("code_metrics", .dict [("length", .int (Text.lines code.toList).length),
            ("non_empty_lines", .int ((Text.lines code.toList).filter fun l => !(Text.trim l).isEmpty).length),
            ("success", (result.get? "success").getD (.bool false))]),
          ("syntax_patterns", .list ((roledLines (Text.lines code.toList)).map fun l => .tuple [.str l.1, .str l.2]))] ++
          es ++ [("performance", .dict [("execution_time", (result.get? "execution_time").getD (.int 0)),
            ("memory_usage", (result.get? "memory_usage").getD (.int 0))])]) := by
  cases result with
  | nil => contradiction
  | cons e es => rfl

/-! ### Records of executions -/

/-- A piece of code and the record of its execution, with what is read of it: whether it succeeded, its errors, and
what it cost. -/
structure Run where
  code : String
  result : Table Value
  success : Bool
  errors : List String
  time : Value
  usage : Value
  success_eq : result.get? "success" = some (.bool success)
  errors_eq : (result.get? "errors").getD (.list []) = texts errors
  time_eq : (result.get? "execution_time").getD (.int 0) = time
  usage_eq : (result.get? "memory_usage").getD (.int 0) = usage
  isNumber_time : time.IsNumber
  isNumber_usage : usage.IsNumber
  isDocument_time : time.IsDocument
  isDocument_usage : usage.IsDocument

def lineKey (digest : String → String) (l : String × String) : String :=
  l.1 ++ ":" ++ ((digest l.2).take 8).toString

/-- An error as it is kept as an example, with the line that it names. -/
def sampleOf (error : String) (line : Value) : Value := .dict [("message", .str error), ("code_line", line)]

namespace Run

variable (r : Run)

def lines : List (List Char) := Text.lines r.code.toList

def complaints : List String := if r.success then [] else r.errors

def lineOf (error : String) : Value := lineAt r.lines (lineNumber? error.toList)

def sample (error : String) : Value := sampleOf error (r.lineOf error)

def complaintItem (error : String) : Value :=
  .dict [("error_message", .str error), ("line_number", ((lineNumber? error.toList).map Value.int).getD .null),
    ("code_line", r.lineOf error)]

theorem errorShown_str (error : String) : errorShown r.lines (.str error) = .ok (r.complaintItem error) := rfl

theorem mapM_errorShown (errors : List String) :
    (errors.map Value.str).mapM (errorShown r.lines) = .ok (errors.map r.complaintItem) := by
  induction errors with
  | nil => rfl
  | cons error errors ih =>
    rw [List.map_cons, List.mapM_cons, ih, errorShown_str]
    rfl

/-- What a record and its code show, as far as it is looked at. -/
structure IsShown (v : Value) : Prop where
  isTrue : v.isTrue = true
  success : ∃ m, v.itemD "code_metrics" (.dict []) = .ok m ∧ m.itemD "success" (.bool false) = .ok (.bool r.success)
  pairs : v.itemD "syntax_patterns" (.list []) =
    .ok (.list ((roledLines r.lines).map fun l => .tuple [.str l.1, .str l.2]))
  errors : v.itemD "error_patterns" (.list []) = .ok (.list (r.complaints.map r.complaintItem))
  cost : v.itemD "performance" (.dict []) = .ok (.dict [("execution_time", r.time), ("memory_usage", r.usage)])

theorem errorsShown_eq : errorsShown r.lines (.bool r.success) (.dict r.result) =
    .ok (if r.complaints = [] then [] else [("error_patterns", .list (r.complaints.map r.complaintItem))]) := by
  have hfound := r.errors_eq
  rw [errorsShown_dict, complaints]
  cases r.success with
  | true => rfl
  | false =>
    cases hget : r.result.get? "errors" with
    | none =>
      rw [hget] at hfound
      rw [List.map_eq_nil_iff.1 (Value.list.inj hfound).symm]
      rfl
    | some v =>
      rw [hget, Option.getD_some] at hfound
      subst hfound
      cases herrors : r.errors with
      | nil => rfl
      | cons error errors =>
        show (((error :: errors).map Value.str).mapM (errorShown r.lines) >>= _) = _
        rw [r.mapM_errorShown]
        rfl

theorem exists_shown : ∃ v, shown (.str r.code) (.dict r.result) = .ok v ∧ r.IsShown v := by
  have hne : r.result ≠ [] := fun hnil => by
    have hsome := r.success_eq
    rw [hnil] at hsome
    cases hsome
  rw [shown_dict r.code hne, r.success_eq, r.time_eq, r.usage_eq, Option.getD_some]
  show ∃ v, (errorsShown r.lines (.bool r.success) (.dict r.result)).map _ = .ok v ∧ _
  rw [r.errorsShown_eq]
  refine ⟨_, rfl, ?_⟩
  split
  · rename_i hnone
    exact ⟨rfl, ⟨_, rfl, rfl⟩, rfl, by rw [hnone]; rfl, rfl⟩
  · exact ⟨rfl, ⟨_, rfl, rfl⟩, rfl, rfl, rfl⟩

end Run

/-! ### Ledgers -/

structure Score where
  success : Nat := 0
  failure : Nat := 0

def Score.document (s : Score) : Value := .dict [("success", .int s.success), ("failure", .int s.failure)]

def Score.add (s : Score) (success : Bool) : Score :=
  if success then { s with success := s.success + 1 } else { s with failure := s.failure + 1 }

structure Group where
  count : Nat := 0
  samples : List Value := []

def Group.document (g : Group) : Value := .dict [("count", .int g.count), ("examples", .list g.samples)]

def Group.add (g : Group) (sample : Value) : Group where
  count := g.count + 1
  samples := if g.samples.length < 5 then g.samples ++ [sample] else g.samples

def isPositive (v : Value) : Bool :=
  (v.toNumber?.bind fun a => Number.compare? a (.int 0)) == some .gt

/-- The latest measurements after one more. Only positive ones are kept, and no more than a thousand. -/
def keep (xs : List Value) (v : Value) : List Value := if isPositive v then (xs ++ [v]).rtake 1000 else xs

structure Ledger where
  scores : Table Score := []
  groups : Table Group := []
  times : List Value := []
  usages : List Value := []

namespace Ledger

variable (l : Ledger)

def scoreItems : Table Value := l.scores.map fun e => (e.1, e.2.document)

def groupItems : Table Value := l.groups.map fun e => (e.1, e.2.document)

def performance : Value := .dict [("execution_times", .list l.times), ("memory_usage", .list l.usages)]

def analyst (path : String) (digest : String → String) : Analyst where
  path := path
  outcomes := l.scoreItems
  errors := l.groupItems
  performance := l.performance
  digest := digest

def score (key : String) (success : Bool) : Ledger :=
  { l with scores := l.scores.put key (((l.scores.get? key).getD {}).add success) }

def complain (key : String) (sample : Value) : Ledger :=
  { l with groups := l.groups.put key (((l.groups.get? key).getD {}).add sample) }

def complainOf (digest : String → String) (r : Run) (error : String) : Ledger :=
  if error = "" then l else l.complain (errorKey digest error) (r.sample error)

def takeIn (digest : String → String) (r : Run) : Ledger :=
  let scored := (roledLines r.lines).foldl (fun l x => l.score (lineKey digest x) r.success) l
  let grouped := r.complaints.foldl (fun l error => l.complainOf digest r error) scored
  { grouped with times := keep grouped.times r.time, usages := keep grouped.usages r.usage }

end Ledger

/-! ### What an analysis does -/

namespace Analyst

variable (l : Ledger) (path : String) (digest : String → String) (w : World)

variable {v : Value}
variable {a : Analyst} {filed : Option Value} {p : FilePlace} {key : String}

theorem perform_countSeen {s : Score} (h : (a.outcomes.get? key).getD noOutcomes = s.document) (success : Bool) : ((do
      let seen := (get? (← Task.self).outcomes key).getD noOutcomes
      let seen ← seen.changeItem (if success then "success" else "failure") next
      Task.update fun a => { a with outcomes := put a.outcomes key seen }) : Task Analyst Unit).perform (a, w) =
      (.ok (), ({ a with outcomes := a.outcomes.put key (s.add success).document }, w)) := by
  have hchange : s.document.changeItem (if success then "success" else "failure") next =
      .ok (s.add success).document := by
    cases success <;> rfl
  rw [bind_self]
  dsimp only
  rw [h, bind_lift hchange]
  rfl

theorem perform_countLine (success : Bool) (role line : String) :
    (countLine success (.tuple [.str role, .str line])).perform (l.analyst path digest, w) =
      (.ok (), ((l.score (lineKey digest (role, line)) success).analyst path digest, w)) := by
  have hpair : pairOf (.tuple [.str role, .str line]) = .ok (.str role, .str line) := rfl
  have hkey : outcomeKey (l.analyst path digest).digest (.str role) (.str line) =
    .ok (lineKey digest (role, line)) := rfl
  generalize lineKey digest (role, line) = key at hkey ⊢
  have hget : Table.get? l.scoreItems key = (l.scores.get? key).map Score.document := Table.get?_map ..
  have hput (s : Score) : { l.analyst path digest with outcomes := l.scoreItems.put key s.document } =
      ({ l with scores := l.scores.put key s } : Ledger).analyst path digest := by
    rw [Ledger.scoreItems, Table.put_map]
    rfl
  rw [countLine, bind_lift hpair]
  dsimp only
  rw [bind_self, bind_lift hkey, bind_self, Ledger.score]
  show (if (!Table.has l.scoreItems key) = true then _ else _ : Task Analyst Unit).perform _ = _
  rw [Table.has, hget]
  cases hs : l.scores.get? key with
  | none =>
    refine (bind_of_ok (Task.perform_update _ _ w) _).trans ?_
    refine (perform_countSeen w (s := {}) ?_ success).trans ?_
    · show (Table.get? (Table.put l.scoreItems key noOutcomes) key).getD noOutcomes = _
      rw [Table.get?_put_self]
      rfl
    · show (Except.ok (), ({ l.analyst path digest with
        outcomes := (l.scoreItems.put key noOutcomes).put key (Score.add {} success).document }, w)) = _
      rw [Table.put_put, hput]
      rfl
  | some s =>
    refine (perform_countSeen w (s := s) ?_ success).trans ?_
    · show (Table.get? l.scoreItems key).getD noOutcomes = _
      rw [hget, hs]
      rfl
    · show (Except.ok (), ({ l.analyst path digest with
        outcomes := l.scoreItems.put key (s.add success).document }, w)) = _
      rw [hput]
      rfl

theorem perform_countLines (success : Bool) {f : String × String → Value}
    (hf : ∀ x, f x = .tuple [.str x.1, .str x.2]) (xs : List (String × String)) :
    ((xs.map f).forM (countLine success)).perform (l.analyst path digest, w) =
      (.ok (), ((xs.foldl (fun l x => l.score (lineKey digest x) success) l).analyst path digest, w)) := by
  induction xs generalizing l with
  | nil => rfl
  | cons x xs ih =>
    have hfirst := perform_countLine l path digest w success x.1 x.2
    rw [← hf] at hfirst
    exact (bind_of_ok hfirst _).trans (ih _)

theorem perform_putGroup (a : Analyst) (w : World) (key : String) (group : Value) :
    (putGroup key group).perform (a, w) = (.ok (), ({ a with errors := a.errors.put key group }, w)) := rfl

theorem perform_addToGroup {g : Group} {shown code : Value} {error : String}
    (h : (a.errors.get? key).getD noErrors = g.document) (hcode : shown.itemD "code_line" .null = .ok code) : ((do
      let group := (get? (← Task.self).errors key).getD noErrors
      let group ← group.changeItem "count" next
      putGroup key group
      if (← (← group.item "examples").size) < 5 then
        let sample : Value := .dict [("message", .str error), ("code_line", ← shown.itemD "code_line" .null)]
        putGroup key (← group.changeItem "examples" fun xs => xs.pushed sample)) : Task Analyst Unit).perform (a, w) =
      (.ok (), ({ a with errors := a.errors.put key (g.add (sampleOf error code)).document }, w)) := by
  have hcount : g.document.changeItem "count" next = .ok (Group.document ⟨g.count + 1, g.samples⟩) := rfl
  have hexamples : (Group.document ⟨g.count + 1, g.samples⟩).item "examples" = .ok (.list g.samples) := rfl
  have hsize : (Value.list g.samples).size = .ok g.samples.length := rfl
  rw [bind_self]
  dsimp only
  rw [h, bind_lift hcount, bind_of_ok (perform_putGroup a w key _), bind_lift hexamples, bind_lift hsize, Group.add]
  by_cases hfew : g.samples.length < 5
  · have hpush (v : Value) : (Group.document ⟨g.count + 1, g.samples⟩).changeItem "examples" (fun xs => xs.pushed v) =
        .ok (Group.document ⟨g.count + 1, g.samples ++ [v]⟩) := rfl
    rw [if_pos hfew, if_pos hfew, bind_lift hcode, bind_lift (hpush _), perform_putGroup]
    dsimp only
    rw [put_put, sampleOf]
  · rw [if_neg hfew, if_neg hfew]
    rfl

theorem perform_countError (r : Run) (error : String) :
    (countError (r.complaintItem error)).perform (l.analyst path digest, w) =
      (.ok (), ((l.complainOf digest r error).analyst path digest, w)) := by
  have hmessage : (r.complaintItem error).itemD "error_message" (.str "") = .ok (.str error) := rfl
  have hline : (r.complaintItem error).itemD "code_line" .null = .ok (r.lineOf error) := rfl
  have htext : (Value.str error).text "lower" = .ok error := rfl
  rw [countError, bind_lift hmessage, Ledger.complainOf]
  by_cases hempty : error = ""
  · rw [if_pos hempty, hempty]
    rfl
  · have htrue : (Value.str error).isTrue := by simp [Value.isTrue, hempty]
    rw [if_neg hempty, htrue, Bool.not_true, if_neg Bool.false_ne_true]
    rw [bind_self, bind_lift htext, bind_self, show (l.analyst path digest).digest = digest from rfl]
    generalize errorKey digest error = key
    show (if (!Table.has l.groupItems key) = true then _ else _ : Task Analyst Unit).perform _ = _
    have hget : Table.get? l.groupItems key = (l.groups.get? key).map Group.document := Table.get?_map ..
    have hput (g : Group) : { l.analyst path digest with errors := l.groupItems.put key g.document } =
        ({ l with groups := l.groups.put key g } : Ledger).analyst path digest := by
      rw [Ledger.groupItems, Table.put_map]
      rfl
    rw [Table.has, hget, Ledger.complain]
    cases hg : l.groups.get? key with
    | none =>
      refine (bind_of_ok (perform_putGroup _ w key noErrors) _).trans ?_
      refine (perform_addToGroup w (g := {}) ?_ hline).trans ?_
      · show (Table.get? (Table.put l.groupItems key noErrors) key).getD noErrors = _
        rw [Table.get?_put_self]
        rfl
      · show (Except.ok (), ({ l.analyst path digest with
          errors := (l.groupItems.put key noErrors).put key (Group.add {} (r.sample error)).document }, w)) = _
        rw [Table.put_put, hput]
        rfl
    | some g =>
      refine (perform_addToGroup w (g := g) ?_ hline).trans ?_
      · show (Table.get? l.groupItems key).getD noErrors = _
        rw [hget, hg]
        rfl
      · show (Except.ok (), ({ l.analyst path digest with
          errors := l.groupItems.put key (g.add (r.sample error)).document }, w)) = _
        rw [hput]
        rfl

theorem perform_countErrors (r : Run) (errors : List String) :
    ((errors.map r.complaintItem).forM countError).perform (l.analyst path digest, w) =
      (.ok (), ((errors.foldl (fun l error => l.complainOf digest r error) l).analyst path digest, w)) := by
  induction errors generalizing l with
  | nil => rfl
  | cons error errors ih =>
    exact (bind_of_ok (perform_countError l path digest w r error) _).trans (ih _)

/-! ### Measurements -/

theorem relate_gt_zero (h : v.IsNumber) : v.relate .gt (.int 0) = .ok (isPositive v) := by
  have hcompare (a : Number) : ((Number.compare? a (.int 0)).map Value.Relation.gt.holds).getD false =
      (Number.compare? a (.int 0) == some .gt) := by
    rcases Number.compare? a (.int 0) with _ | _ | _ | _ <;> rfl
  cases v with
  | bool _ | int _ | float _ | statistic _ => exact congrArg Except.ok (hcompare _)
  | null | str _ | list _ | dict _ | tuple _ | object _ => cases h

theorem perform_keepLatest {field : String} {f : List Value → Value}
    (hf : ∀ xs g ys, g (.list xs) = .ok (.list ys) → (f xs).changeItem field g = .ok (f ys)) {xs : List Value}
    (ha : a.performance = f xs) (hv : v.IsNumber) :
    (keepLatest field v).perform (a, w) = (.ok (), ({ a with performance := f (keep xs v) }, w)) := by
  have hlonger : a.performance.changeItem field (fun xs => xs.pushed v) = .ok (f (xs ++ [v])) := by
    rw [ha]
    exact hf _ _ _ rfl
  have hkept : (f (xs ++ [v])).changeItem field (fun xs => xs.lastItems 1000) = .ok (f ((xs ++ [v]).rtake 1000)) :=
    hf _ _ _ rfl
  rw [keepLatest, bind_lift (relate_gt_zero hv), keep]
  cases isPositive v with
  | false =>
    show (Except.ok (), (a, w)) = _
    rw [if_neg Bool.false_ne_true, ← ha]
  | true =>
    rw [if_pos rfl, if_pos rfl, bind_self, bind_lift hlonger, bind_update, bind_lift hkept]
    rfl

theorem perform_keepTime (hv : v.IsNumber) : (keepLatest "execution_times" v).perform (l.analyst path digest, w) =
      (.ok (), (({ l with times := keep l.times v } : Ledger).analyst path digest, w)) := by
  refine perform_keepLatest w (f := fun xs => .dict [("execution_times", .list xs), ("memory_usage", .list l.usages)])
    (fun xs g ys hg => ?_) rfl hv
  show (g (.list xs) >>= _) = _
  rw [hg]
  rfl

theorem perform_keepUsage (hv : v.IsNumber) : (keepLatest "memory_usage" v).perform (l.analyst path digest, w) =
      (.ok (), (({ l with usages := keep l.usages v } : Ledger).analyst path digest, w)) := by
  refine perform_keepLatest w (f := fun xs => .dict [("execution_times", .list l.times), ("memory_usage", .list xs)])
    (fun xs g ys hg => ?_) rfl hv
  show (g (.list xs) >>= _) = _
  rw [hg]
  rfl

theorem perform_save {w : World} (hholds : p.Holds filed w.disk) :
    ∃ d, save.perform (l.analyst p.path digest, w) = (.ok (), (l.analyst p.path digest, w.withDisk d)) ∧
      p.Holds (some (l.analyst p.path digest).document) d := by
  obtain ⟨d, hwrite, hholds'⟩ := hholds.perform_saveQuietly (l.analyst p.path digest).document
  refine ⟨d, ?_, hholds'⟩
  rw [save, bind_self]
  exact (Task.perform_lift _ _ w).trans (by rw [show (l.analyst p.path digest).path = p.path from rfl, hwrite])

/-- An analysis takes in what a record shows, and saves the ledger. -/
theorem perform_analyze {w : World} (hholds : p.Holds filed w.disk) {r : Run} (hv : r.IsShown v) :
    ∃ d, (analyze v).perform (l.analyst p.path digest, w) =
        (.ok (), ((l.takeIn digest r).analyst p.path digest, w.withDisk d)) ∧
      p.Holds (some ((l.takeIn digest r).analyst p.path digest).document) d := by
  obtain ⟨m, hm, hsuccess⟩ := hv.success
  have hpairs : (Value.list ((roledLines r.lines).map fun x => .tuple [.str x.1, .str x.2])).elements = .ok _ := rfl
  have herrors : (Value.list (r.complaints.map r.complaintItem)).elements = .ok _ := rfl
  have htime : (Value.dict [("execution_time", r.time), ("memory_usage", r.usage)]).itemD "execution_time" (.int 0) =
    .ok r.time := rfl
  have husage : (Value.dict [("execution_time", r.time), ("memory_usage", r.usage)]).itemD "memory_usage" (.int 0) =
    .ok r.usage := rfl
  generalize hscored : (roledLines r.lines).foldl (fun l x => l.score (lineKey digest x) r.success) l = l₁
  generalize hgrouped : r.complaints.foldl (fun l error => l.complainOf digest r error) l₁ = l₂
  have htaken : l.takeIn digest r = { l₂ with times := keep l₂.times r.time, usages := keep l₂.usages r.usage } := by
    rw [Ledger.takeIn, hscored, hgrouped]
  have hlines := perform_countLines l p.path digest w r.success (fun _ => rfl) (roledLines r.lines)
  have hcomplaints := perform_countErrors l₁ p.path digest w r r.complaints
  rw [hscored] at hlines
  rw [hgrouped] at hcomplaints
  obtain ⟨d, hsave, hholds'⟩ := perform_save (l.takeIn digest r) digest hholds
  refine ⟨d, ?_, hholds'⟩
  rw [analyze, hv.isTrue, Bool.not_true, if_neg Bool.false_ne_true]
  rw [bind_lift hm, bind_lift hsuccess, bind_lift hv.pairs,
    bind_lift hpairs, show (Value.bool r.success).isTrue = r.success from rfl, bind_of_ok hlines,
    bind_lift hv.errors, bind_lift herrors, bind_of_ok hcomplaints,
    bind_lift hv.cost, bind_lift htime, bind_lift hv.cost,
    bind_lift husage, bind_of_ok (perform_keepTime l₂ p.path digest w r.isNumber_time),
    bind_of_ok (perform_keepUsage _ p.path digest w r.isNumber_usage)]
  rw [htaken] at hsave ⊢
  exact hsave

end Analyst

end GzLang.Feedback
