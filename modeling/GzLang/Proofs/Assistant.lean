import Mathlib.Data.List.Forall2
import GzLang.Assistant.Work
import GzLang.Proofs.Matching
import GzLang.Proofs.World

/-!
# What an assistant answers

An assistant that is set up answers what its action ends with (`Answer.perform_guarded`). Rules are
texts; once it is known which patterns and replacements they denote (`Rule.Reads`), applying them
is replacing one pattern after the other (`applyRules_of_reads`), and that is what optimizing and
correcting answer (`perform_optimize`, `perform_correct`).
-/

namespace GzLang

variable {s : List Char} {code : String} {applied : Table Value}

deriving instance DecidableEq for Pattern

open Action Pattern

theorem Answer.perform_guarded {σ : Type} {isSetUp : σ → Bool} {s : σ} (hs : isSetUp s)
    {a : Task σ Value} {w : World} {good : Value → Prop} {mayFail : Prop}
    (ha : Action.Ends a (s, w) good mayFail) :
    ∃ v t, (Answer.guarded isSetUp a).perform (s, w) = (.ok v, t) ∧
      (good v ∨ mayFail ∧ ∃ message, v = Answer.failure message) := by
  unfold Answer.guarded
  rw [bind_self, hs]
  simp only [Bool.not_true, Bool.false_eq_true, if_false]
  unfold Action.Ends at ha
  rw [perform_orElse]
  generalize a.perform (s, w) = r at ha ⊢
  obtain ⟨f | v, t⟩ := r
  · exact ⟨_, t, rfl, .inr ⟨ha, _, rfl⟩⟩
  · exact ⟨v, t, rfl, .inl ha⟩

namespace Assistant

variable {rules : Table Value}

variable {a : Assistant} {w : World}
variable {t : Template} {p : Pattern} {v : Value} {r : Rule} {after name : String}

/-! ### Parts and counters -/

theorem perform_part (h : Table.get? a.memory name = some v) : (part name).perform (a, w) = (.ok v, (a, w)) := by
  show (Action.ofExcept ((Value.dict a.memory).item name) : Task Assistant Value).perform (a, w) = _
  rw [perform_ofExcept, Value.item, h]

theorem perform_option (h : a.config.item name = .ok v) : (option name).perform (a, w) = (.ok v, (a, w)) := by
  show (Action.ofExcept (a.config.item name) : Task Assistant Value).perform (a, w) = _
  rw [perform_ofExcept, h]

theorem perform_count (f : Counters → Counters) :
    (count f).perform (a, w) = (.ok ⟨⟩, ({ a with counters := f a.counters }, w)) := rfl

/-! ### Rules -/

/-- The pattern and the replacement that the texts of a rule denote. -/
structure Rule.Reads (r : Rule) (p : Pattern) (t : Template) : Prop where
  pattern : parse r.pattern = .ok p
  template : Template.parse p.groupCount r.replacement = .ok t

theorem Rule.reads_of_toOption (hp : (parse r.pattern).toOption = some p)
    (ht : (Template.parse p.groupCount r.replacement).toOption = some t) : r.Reads p t := by
  constructor
  · cases h : parse r.pattern <;> rw [h] at hp <;> cases hp
    rfl
  · cases h : Template.parse p.groupCount r.replacement <;> rw [h] at ht <;> cases ht
    rfl

theorem fill_chars_append (cs : List Char) (t : Template) (m : Match) :
    Template.fill (cs.map .char ++ t) m = cs ++ Template.fill t m := by
  induction cs with
  | nil => rfl
  | cons c cs ih => exact congrArg (c :: ·) ih

def headerTemplate : Template :=
  "para ".toList.map .char ++ [.group 1, .char ' ', .group 2, .char ' ', .group 3]

theorem fill_headerTemplate (m : Match) : headerTemplate.fill m =
    "para ".toList ++ (m.group 1 ++ (' ' :: (m.group 2 ++ (' ' :: m.group 3)))) := by
  refine (fill_chars_append "para ".toList _ m).trans ?_
  simp [Template.fill]

theorem ok_bind {α β : Type} (x : α) (f : α → Except Fault β) : (Except.ok x >>= f) = f x := rfl

theorem applyRule_of_reads (hr : r.Reads p t) (s : List Char) : applyRule r.entry.2 (.str (String.ofList s)) = .ok
      (if p.occursIn s then some (.str (String.ofList (p.replace t.fill s))) else none) := by
  simp only [applyRule, Rule.entry, Value.item, Table.get?, if_pos, String.reduceEq, if_false,
    ok_bind, patternText, subjectText, hr.pattern, hr.template, String.toList_ofList]
  split <;> rfl

/-- What a rule makes of a text; nothing happens where its pattern does not occur. -/
theorem applyRules_cons (hr : r.Reads p t)
    (h : ∃ applied, applyRules rules (.str (String.ofList (p.replace t.fill s))) = .ok (v, applied)) :
    ∃ applied, applyRules (r.entry :: rules) (.str (String.ofList s)) = .ok (v, applied) := by
  have hrule := applyRule_of_reads hr s
  obtain ⟨applied, h⟩ := h
  cases hocc : p.occursIn s with
  | true =>
    refine ⟨r.entry :: applied, ?_⟩
    rw [applyRules, hrule, hocc, if_pos rfl, ok_bind]
    dsimp only
    rw [h]
    rfl
  | false =>
    refine ⟨applied, ?_⟩
    rw [replace_of_not_occursIn hocc] at h
    rw [applyRules, hrule, hocc, if_neg Bool.false_ne_true, ok_bind]
    exact h

/-- What patterns with their replacements make of a text, one after the other. -/
def rewriteAll (pts : List (Pattern × Template)) (s : List Char) : List Char :=
  pts.foldl (fun s pt => pt.1.replace pt.2.fill s) s

section

variable {rs : List Rule} {pts : List (Pattern × Template)}
variable {μ : List Char → Nat}

theorem applyRules_of_reads (h : List.Forall₂ (fun r pt => r.Reads pt.1 pt.2) rs pts)
    (s : List Char) : ∃ applied, applyRules (rs.map Rule.entry) (.str (String.ofList s)) =
      .ok (.str (String.ofList (rewriteAll pts s)), applied) := by
  induction h generalizing s with
  | nil => exact ⟨[], rfl⟩
  | cons hr _ ih => exact applyRules_cons hr (ih _)

/-- The rules that were applied are among the rules, and without them the code stays as it is. -/
theorem sublist_of_applyRules {rules : Table Value} {v' : Value}
    (h : applyRules rules v = .ok (v', applied)) : applied.Sublist rules ∧ (applied = [] → v' = v) := by
  induction rules generalizing v applied with
  | nil =>
    cases h
    exact ⟨.slnil, fun _ => rfl⟩
  | cons r rules ih =>
    rw [applyRules] at h
    cases happ : applyRule r.2 v with
    | error f =>
      rw [happ] at h
      cases h
    | ok o =>
      rw [happ, ok_bind] at h
      cases o with
      | none =>
        obtain ⟨hsub, hsame⟩ := ih h
        exact ⟨hsub.cons r, hsame⟩
      | some after =>
        dsimp only at h
        cases hrest : applyRules rules after with
        | error f =>
          rw [hrest] at h
          cases h
        | ok p =>
          rw [hrest] at h
          cases h
          exact ⟨(ih hrest).1.cons_cons r, nofun⟩

theorem applyRules_of_not_occursIn (h : List.Forall₂ (fun r pt => r.Reads pt.1 pt.2) rs pts)
    (hocc : ∀ pt ∈ pts, pt.1.occursIn s = false) :
    applyRules (rs.map Rule.entry) (.str (String.ofList s)) = .ok (.str (String.ofList s), []) := by
  induction h with
  | nil => rfl
  | @cons r pt rs pts hr _ ih =>
    have hrule := applyRule_of_reads hr s
    rw [hocc pt (List.mem_cons_self ..), if_neg Bool.false_ne_true] at hrule
    rw [List.map_cons, applyRules, hrule, ok_bind]
    exact ih fun pt' hpt' => hocc pt' (List.mem_cons_of_mem pt hpt')

/-- That no rule applies to code, said of the texts of the patterns and of the patterns. -/
theorem occurs_eq_false_iff (h : List.Forall₂ (fun r pt => r.Reads pt.1 pt.2) rs pts) :
    (∀ r ∈ rs, occurs r.pattern code = .ok false) ↔ ∀ pt ∈ pts, pt.1.occursIn code.toList = false := by
  induction h with
  | nil => simp
  | @cons r pt rs pts hr _ ih =>
    have hfirst : occurs r.pattern code = .ok (pt.1.occursIn code.toList) := by
      rw [occurs, hr.pattern]
      rfl
    rw [List.forall_mem_cons, List.forall_mem_cons, ih, hfirst, Except.ok.injEq]

theorem rewriteAll_of_not_occursIn (hocc : ∀ pt ∈ pts, pt.1.occursIn s = false) : rewriteAll pts s = s := by
  induction pts with
  | nil => rfl
  | cons pt pts ih =>
    obtain ⟨hfirst, hrest⟩ := List.forall_mem_cons.1 hocc
    rw [rewriteAll, List.foldl_cons, replace_of_not_occursIn hfirst]
    exact ih hrest

theorem rewriteAll_of_not_occurs (h : List.Forall₂ (fun r pt => r.Reads pt.1 pt.2) rs pts)
    (hocc : ∀ r ∈ rs, occurs r.pattern code = .ok false) : rewriteAll pts code.toList = code.toList:=
  rewriteAll_of_not_occursIn ((occurs_eq_false_iff h).1 hocc)

/-- Rules lower a measure of a text where their patterns occur. -/
def Lowers (μ : List Char → Nat) (pts : List (Pattern × Template)) : Prop :=
  ∀ pt ∈ pts, ∀ s, pt.1.occursIn s = true → μ (pt.1.replace pt.2.fill s) < μ s

theorem Lowers.rewriteAll_le (h : Lowers μ pts) (s : List Char) : μ (rewriteAll pts s) ≤ μ s := by
  induction pts generalizing s with
  | nil => exact Nat.le_refl _
  | cons pt pts ih =>
    have hrest := ih (fun pt' hpt' => h pt' (List.mem_cons_of_mem pt hpt')) (pt.1.replace pt.2.fill s)
    refine Nat.le_trans hrest ?_
    cases hocc : pt.1.occursIn s with
    | true => exact Nat.le_of_lt (h pt (List.mem_cons_self ..) s hocc)
    | false => exact Nat.le_of_eq (congrArg μ (replace_of_not_occursIn hocc _))

/-- If rules that lower a measure leave a text as it is, none of them was applied. -/
theorem Lowers.not_occursIn (h : Lowers μ pts) (hs : rewriteAll pts s = s) : ∀ pt ∈ pts, pt.1.occursIn s = false := by
  induction pts with
  | nil => nofun
  | cons pt pts ih =>
    have hpts : Lowers μ pts := fun pt' hpt' => h pt' (List.mem_cons_of_mem pt hpt')
    have hfirst : pt.1.occursIn s = false := by
      by_contra hocc
      have hlt := h pt (List.mem_cons_self ..) s (by simpa using hocc)
      have hle := hpts.rewriteAll_le (pt.1.replace pt.2.fill s)
      have hμ : μ (rewriteAll pts (pt.1.replace pt.2.fill s)) = μ s := congrArg μ hs
      omega
    have hrest : rewriteAll pts s = s := by
      rw [rewriteAll, List.foldl_cons, replace_of_not_occursIn hfirst] at hs
      exact hs
    exact List.forall_mem_cons.2 ⟨hfirst, ih hpts hrest⟩

end

/-! ### Optimizing and correcting -/

/-- Optimizing answers with what the rules make of the code. If what was learned is to be passed
on, that may fail. -/
theorem perform_optimize (hinit : a.initialized)
    (hrules : Table.get? a.memory "optimization_rules" = some (.dict rules)) {level : Value}
    (hlevel : level.isTrue ∨ ∃ v, a.config.item "optimization_level" = .ok v)
    (happly : applyRules rules (.str code) = .ok (.str after, applied)) :
    ∃ v t, (optimize (.str code) level).perform (a, w) = (.ok v, t) ∧ (v.item "optimized_code" = .ok (.str after) ∨
        a.collective.isSome ∧ ∃ message, v = Answer.failure message) := by
  refine Answer.perform_guarded hinit ?_
  dsimp only
  refine ends_ite_bind ?_ fun level => ?_
  · split
    · exact ⟨level, rfl⟩
    · rename_i hfalse
      obtain ⟨v, hv⟩ := hlevel.resolve_left hfalse
      exact ⟨v, perform_option hv⟩
  refine ends_bind_of_ok (perform_part hrules) ?_
  refine ends_bind_of_ok (perform_ofExcept (.ok rules) (a, w)) ?_
  refine ends_bind_of_ok ((perform_ofExcept _ (a, w)).trans (congrArg (·, (a, w)) happly)) ?_
  dsimp only
  split
  · refine ends_bind_of_ok (perform_count _) (ends_bind_of_ok (Task.perform_self _ w) ?_)
    split
    · rename_i hsome
      -- whatever passing on does, the answer stays the same unless it fails
      generalize share "optimization_event" = pass
      generalize learnOptimization (.str code) (.str after) = learn
      refine ends_bind_of_mayFail hsome fun time t => ?_
      refine ends_bind_of_mayFail hsome fun _ t => ?_
      refine ends_bind_of_mayFail hsome fun _ t => ?_
      exact ends_bind_of_ok (perform_ofExcept _ _) (ends_bind_of_ok (perform_ofExcept _ _) rfl)
    · exact ends_bind_of_ok (perform_ofExcept _ _) (ends_bind_of_ok (perform_ofExcept _ _) rfl)
  · exact ends_bind_of_ok (perform_ofExcept _ _) (ends_bind_of_ok (perform_ofExcept _ _) rfl)

/-- Correcting answers with what the rules make of the code, and whether a rule was applied. If what
was learned is to be passed on, that may fail. -/
theorem perform_correct (hinit : a.initialized) (hrules : Table.get? a.memory "correction_rules" = some (.dict rules))
    (happly : applyRules rules (.str code) = .ok (.str after, applied))
    (hreasons : ∀ r ∈ applied, ∃ e, r.2.itemD "explanation" (.str "") = .ok (.str e)) (message : Value) :
    ∃ v t, (correct (.str code) message).perform (a, w) = (.ok v, t) ∧ (v.item "corrected_code" = .ok (.str after) ∧
          v.item "corrections_made" = .ok (.bool !applied.isEmpty) ∨
        a.collective.isSome ∧ ∃ message, v = Answer.failure message) := by
  refine Answer.perform_guarded hinit ?_
  refine ends_bind_of_ok (perform_part hrules) ?_
  refine ends_bind_of_ok (perform_ofExcept (.ok rules) (a, w)) ?_
  refine ends_bind_of_ok ((perform_ofExcept _ (a, w)).trans (congrArg (·, (a, w)) happly)) ?_
  dsimp only
  obtain ⟨reasons, hr⟩ : ∃ reasons : List String, (applied.mapM fun r => (do
      (← r.2.itemD "explanation" (.str "")).display : Task Assistant String)).perform (a, w) =
        (.ok reasons, (a, w)) := by
    refine perform_mapM_of_ok fun r hr => ?_
    obtain ⟨e, he⟩ := hreasons r hr
    refine ⟨e, ?_⟩
    rw [he]
    rfl
  refine ends_bind_of_ok hr ?_
  split
  · refine ends_bind_of_ok (perform_count _) (ends_bind_of_ok (Task.perform_self _ w) ?_)
    split
    · rename_i hsome
      -- whatever passing on does, the answer stays the same unless it fails
      refine ends_bind_of_mayFail hsome fun time t => ?_
      refine ends_bind_of_mayFail hsome fun _ t => ?_
      split
      · refine ends_bind_of_mayFail hsome fun _ t => ?_
        exact ⟨rfl, rfl⟩
      · exact ⟨rfl, rfl⟩
    · exact ⟨rfl, rfl⟩
  · exact ⟨rfl, rfl⟩

end Assistant

end GzLang
