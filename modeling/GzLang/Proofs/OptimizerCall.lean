import GzLang.Optimization.Optimizer
import GzLang.Proofs.Growth
import GzLang.Proofs.FilePlace

/-!
# A call of the optimizer

A call is answered with what the techniques up to a level make of the code (`Call.answer`). The counts that an
optimizer keeps are those of a `Tally`: a call counts itself, whether it changed its code, and each technique
that did (`Tally.next`). Changed code was not empty and its length is within a factor of that of the result,
so that the percentage can be computed (`exists_shrinkage`). Together, `perform_optimize` says what a call does
from any optimizer that has the standard levels.
-/

namespace GzLang

open GzLang.Action List Table Value

theorem Value.relate_le_int (i j : Int) : relate .le (.int i) (.int j) = .ok (decide (i ≤ j)) := by
  have h : (compare i j != .gt) = decide (i ≤ j) := by
    rw [Bool.eq_iff_iff, bne_iff_ne, decide_eq_true_iff, compare_le_iff_le]
  exact congrArg Except.ok h

theorem Value.relate_lt_int (i j : Int) : relate .lt (.int i) (.int j) = .ok (decide (i < j)) := by
  have h : (compare i j == .lt) = decide (i < j) := by
    rw [Bool.eq_iff_iff, beq_iff_eq, decide_eq_true_iff, compare_lt_iff_lt]
  exact congrArg Except.ok h

namespace Optimization

variable {f : Value → Except Fault Value}

/-! ### Techniques and levels apart from their counters -/

def Technique.unused (t : Technique) : Technique := { t with applications := 0, successes := 0 }

def Level.unused (l : Level) : Level := { l with techniques := l.techniques.map Technique.unused }

/-- What techniques make of code, one after the other. -/
def rewrite : List Technique → String → String
  | [], s => s
  | t :: ts, s => rewrite ts (t.method.result s)

/-- The names of the techniques that change the code when it is their turn. -/
def changers : List Technique → String → List String
  | [], _ => []
  | t :: ts, s =>
    if t.method.result s = s then changers ts (t.method.result s)
    else t.name :: changers ts (t.method.result s)

def techniquesUpTo (limit : Int) (ls : List Level) : List Technique :=
  (ls.filter fun l => l.number ≤ limit).flatMap Level.techniques

theorem rewrite_append (ts us : List Technique) (s : String) : rewrite (ts ++ us) s = rewrite us (rewrite ts s) := by
  induction ts generalizing s with
  | nil => rfl
  | cons t ts ih => exact ih _

theorem changers_append (ts us : List Technique) (s : String) :
    changers (ts ++ us) s = changers ts s ++ changers us (rewrite ts s) := by
  induction ts generalizing s with
  | nil => rfl
  | cons t ts ih =>
    rw [cons_append, changers, changers, ih, rewrite]
    split <;> rfl

theorem rewrite_unused (ts : List Technique) (s : String) : rewrite (ts.map Technique.unused) s = rewrite ts s := by
  induction ts generalizing s with
  | nil => rfl
  | cons t ts ih => exact ih _

theorem changers_unused (ts : List Technique) (s : String) : changers (ts.map Technique.unused) s = changers ts s := by
  induction ts generalizing s with
  | nil => rfl
  | cons t ts ih =>
    rw [map_cons, changers, changers, ih]
    rfl

theorem techniquesUpTo_unused (limit : Int) (ls : List Level) :
    techniquesUpTo limit (ls.map Level.unused) = (techniquesUpTo limit ls).map Technique.unused := by
  rw [techniquesUpTo, techniquesUpTo, filter_map, flatMap_map, map_flatMap]
  rfl

theorem changers_sublist (ts : List Technique) (s : String) : (changers ts s).Sublist (ts.map Technique.name) := by
  induction ts generalizing s with
  | nil => exact .slnil
  | cons t ts ih =>
    rw [changers]
    split
    · exact (ih _).cons _
    · exact (ih _).cons_cons _

theorem length_rewrite_le {k : Nat} {ts : List Technique} (h : ∀ t ∈ ts, t.method.Bounded k) (s : String) :
    (rewrite ts s).length ≤ k ^ ts.length * s.length := by
  induction ts generalizing s with
  | nil => simp [rewrite]
  | cons t ts ih =>
    calc (rewrite ts (t.method.result s)).length ≤ k ^ ts.length * (t.method.result s).length :=
          ih (fun u hu => h u (mem_cons_of_mem t hu)) _
      _ ≤ k ^ ts.length * (k * s.length) := Nat.mul_le_mul_left _ (h t mem_cons_self s)
      _ = k ^ (t :: ts).length * s.length := by rw [length_cons, pow_succ, Nat.mul_assoc]

/-! ### Calls -/

structure Call where
  code : String
  limit : Int

namespace Call

variable (c : Call)

def result : String := rewrite (techniquesUpTo c.limit levels) c.code

def changers : List String := Optimization.changers (techniquesUpTo c.limit levels) c.code

def answer : Value :=
  .dict [("optimized_code", .str c.result), ("techniques_applied", texts c.changers),
    ("optimization_level", .int c.limit), ("code_size_reduction", .int (c.code.length - c.result.length))]

theorem sublist_techniques : (techniquesUpTo c.limit levels).Sublist (levels.flatMap Level.techniques) :=
  filter_sublist.flatMap _

theorem length_result_le : c.result.length ≤ 4301 ^ 15 * c.code.length := by
  have hbounded : ∀ t ∈ techniquesUpTo c.limit levels, t.method.Bounded 4301 := by
    intro t ht
    obtain ⟨l, hl, ht⟩ := mem_flatMap.1 (c.sublist_techniques.subset ht)
    exact bounded_of_mem_levels l hl t ht
  have hlength : (techniquesUpTo c.limit levels).length ≤ 15 := c.sublist_techniques.length_le
  exact (length_rewrite_le hbounded c.code).trans (Nat.mul_le_mul_right _ (Nat.pow_le_pow_right (by omega) hlength))

theorem length_code_pos (h : c.result ≠ c.code) : 0 < c.code.length := by
  refine Nat.pos_of_ne_zero fun hzero => h ?_
  have hresult := c.length_result_le
  rw [hzero, Nat.mul_zero, Nat.le_zero, String.length_eq_zero_iff] at hresult
  rw [hresult, String.length_eq_zero_iff.1 hzero]

theorem nodup_changers : c.changers.Nodup := by
  have hnames : ((levels.flatMap Level.techniques).map Technique.name).Nodup := by decide
  exact hnames.sublist ((changers_sublist _ _).trans (c.sublist_techniques.map _))

end Call

def levelOf (total successful : Nat) : Int :=
  if 30 ≤ total ∧ 20 ≤ successful then 3 else if 10 ≤ total then 2 else 1

/-! ### Counts -/

/-- What an optimizer counts: the calls, those that changed their code, by how many percent code became shorter
(as soon as some did), and the uses of techniques. -/
structure Tally where
  total : Nat := 0
  successful : Nat := 0
  reduction : Option Float := none
  uses : Table Nat := []

namespace Tally

def usage (n : Nat) : Value := .dict [("applications", .int n), ("successes", .int n)]

def reductionValue (t : Tally) : Value := t.reduction.elim (.int 0) .float

/-- The counts as they are kept, with the given notes on techniques. -/
def documentWith (t : Tally) (techniques : Table Value) : Value :=
  .dict [("total_optimizations", .int t.total), ("successful_optimizations", .int t.successful),
    ("code_size_reduction", t.reductionValue), ("performance_improvement", .int 0),
    ("techniques", .dict techniques)]

def techniques (t : Tally) : Table Value := t.uses.map fun e => (e.1, usage e.2)

def document (t : Tally) : Value := t.documentWith t.techniques

def useAll (t : Tally) (names : List String) : Tally :=
  { t with uses := names.foldl (fun us name => us.put name ((us.get? name).getD 0 + 1)) t.uses }

/-- The counts after a call that left the given reduction. -/
def next (t : Tally) (c : Call) (reduction : Option Float) : Tally where
  total := t.total + 1
  successful := t.successful + if c.result = c.code then 0 else 1
  reduction := reduction
  uses := (t.useAll c.changers).uses

theorem exists_reduced (t : Tally) (x : Float) : ∃ y, t.reductionValue.add (.float x) = .ok (.float y) := by
  obtain ⟨total, successful, reduction, uses⟩ := t
  cases reduction with
  | none => exact ⟨_, rfl⟩
  | some r => exact ⟨_, rfl⟩

theorem changeItem_techniques (t : Tally) {ts ts' : Table Value} (h : f (.dict ts) = .ok (.dict ts')) :
    (t.documentWith ts).changeItem "techniques" f = .ok (t.documentWith ts') := by
  show (f (.dict ts) >>= fun x => (t.documentWith ts).withItem "techniques" x) = _
  rw [h]
  rfl

end Tally

/-! ### Applying a technique -/

def Method.isTextual : Method → Bool
  | .routine _ => false
  | _ => true

theorem isTextual_of_mem_levels : ∀ l ∈ levels, ∀ t ∈ l.techniques, t.method.isTextual := by
  simp [levels, idle, Method.isTextual]

theorem perform_apply {t : Technique} (h : t.method.isTextual) (s : String) (w : World) :
    ∃ t', (Technique.apply (.str s)).perform (t, w) = (.ok (.str (t.method.result s)), (t', w)) ∧
      t'.unused = t.unused := by
  have hrun : ((Task.job (t.method.run (.str s)) : Task Technique Value).orElse fun _ =>
      pure (.str s)).perform (t, w) = (.ok (.str (t.method.result s)), (t, w)) := by
    cases hm : t.method with
    | none | transform f => rfl
    | routine r =>
      rw [hm] at h
      cases h
    | substitution p r =>
      rw [perform_orElse]
      cases hs : Pattern.substitute p r s with
      | error f =>
        rw [Method.run, Method.result, hs]
        rfl
      | ok u =>
        rw [Method.run, Method.result, hs]
        rfl
  rw [Technique.apply, bind_self, bind_of_ok hrun]
  dsimp only
  split <;> exact ⟨_, rfl, rfl⟩

namespace Optimizer

variable {l : Level} {ls : List Level}

theorem unused_set_techniques {j : Nat} {t t' : Technique} (h : t'.unused = (l.techniques[j]?.getD t).unused) :
    Level.unused { l with techniques := l.techniques.set j t' } = l.unused := by
  have hset : (l.techniques.set j t').map Technique.unused = l.techniques.map Technique.unused := by
    refine List.ext_getElem? fun k => ?_
    rw [List.getElem?_map, List.getElem?_map, List.getElem?_set]
    split
    · subst k
      cases ht : l.techniques[j]? with
      | none => simp [List.getElem?_eq_none_iff.1 ht]
      | some u =>
        rw [ht] at h
        simp [(List.getElem?_eq_some_iff.1 ht).1, h]
    · rfl
  rw [Level.unused, Level.unused, hset]

theorem levels_set_techniquePart {o : Optimizer} {i j : Nat} {t t' : Technique}
    (h : t'.unused = ((techniquePart i j t).get o).unused) :
    ((techniquePart i j t).set t' o).levels.map Level.unused = o.levels.map Level.unused := by
  refine ext_getElem? fun k => ?_
  rw [techniquePart, getElem?_map, getElem?_map, getElem?_modify]
  split
  · subst k
    rw [techniquePart] at h
    cases hl : o.levels[i]? with
    | none => rfl
    | some l =>
      dsimp only at h
      rw [hl] at h
      exact congrArg some (unused_set_techniques h)
  · rw [id_map']

/-- The technique at its places is the one that was there when the levels were first listed. -/
theorem method_get_techniquePart {o : Optimizer}
    (h : o.levels.map Level.unused = ls.map Level.unused) {i j : Nat} {t : Technique}
    (hl : ls[i]? = some l) (ht : l.techniques[j]? = some t) (t' : Technique) :
    ((techniquePart i j t').get o).method = t.method := by
  have hlevel : o.levels[i]?.map Level.unused = some l.unused := by
    rw [← getElem?_map, h, getElem?_map, hl]
    rfl
  obtain ⟨l', hl', hsame⟩ := Option.map_eq_some_iff.1 hlevel
  have htechnique : l'.techniques[j]?.map Technique.unused = some t.unused := by
    rw [← getElem?_map]
    have := congrArg (fun l => l.techniques[j]?) hsame
    simpa [Level.unused, ht] using this
  obtain ⟨u, hu, hsame'⟩ := Option.map_eq_some_iff.1 htechnique
  dsimp only [techniquePart]
  rw [hl', Option.bind_some, hu]
  have hmethod : u.unused.method = t.unused.method := congrArg Technique.method hsame'
  exact hmethod

variable {path : String} {o : Optimizer} {current : Int} {t : Tally}

/-! ### Counting uses -/

theorem perform_count {c : Value} (h : f o.counts = .ok c) (w : World) :
    (count f).perform (o, w) = (.ok (), ({ o with counts := c }, w)) := by
  rw [count, bind_self, bind_lift h]
  rfl

theorem perform_growNote {ts : Table Value} {name : String} {n : Nat}
    (h : o.counts = t.documentWith ts) (hnote : get? ts name = some (Tally.usage n)) (w : World) :
    ((do
      count fun c => c.changeItem "techniques" fun ts =>
        ts.changeItem name fun t => t.changeItem "applications" next
      count fun c => c.changeItem "techniques" fun ts =>
        ts.changeItem name fun t => t.changeItem "successes" next) : Task Optimizer Unit).perform (o, w) =
      (.ok (), ({ o with counts := t.documentWith (put ts name (Tally.usage (n + 1))) }, w)) := by
  have happlications : (Tally.usage n).changeItem "applications" next =
      .ok (.dict [("applications", .int (n + 1 : Nat)), ("successes", .int n)]) := rfl
  have hsuccesses : (Value.dict [("applications", .int (n + 1 : Nat)), ("successes", .int n)]).changeItem
      "successes" next = .ok (Tally.usage (n + 1)) := rfl
  have hfirst := Tally.changeItem_techniques t (f := fun ts => ts.changeItem name fun t =>
    t.changeItem "applications" next) (changeItem_dict hnote happlications)
  have hsecond := Tally.changeItem_techniques t (f := fun ts => ts.changeItem name fun t =>
    t.changeItem "successes" next) (changeItem_dict (get?_put_self ts name _) hsuccesses)
  rw [← h] at hfirst
  rw [bind_of_ok (perform_count hfirst w), perform_count hsecond w, put_put]

theorem perform_countTechnique (h : o.counts = t.document) (name : String) (w : World) :
    (countTechnique name).perform (o, w) = (.ok (), ({ o with counts := (t.useAll [name]).document }, w)) := by
  have hitem : o.counts.item "techniques" = .ok (.dict t.techniques) := by
    rw [h]
    rfl
  have hget : Table.get? t.techniques name = (t.uses.get? name).map Tally.usage := Table.get?_map ..
  have hput (n : Nat) : Table.put t.techniques name (Tally.usage n) =
      Tally.techniques { t with uses := t.uses.put name n } := Table.put_map ..
  have huses : (t.useAll [name]).document =
      Tally.document { t with uses := t.uses.put name ((t.uses.get? name).getD 0 + 1) } := rfl
  rw [countTechnique, bind_self, bind_lift hitem, bind_lift (Value.has_dict _ _), Table.has, hget, huses]
  cases huse : t.uses.get? name with
  | none =>
    have hnew : o.counts.changeItem "techniques" (fun ts =>
        ts.withItem name (.dict [("applications", .int 0), ("successes", .int 0)])) =
        .ok (t.documentWith (Table.put t.techniques name (Tally.usage 0))) := by
      rw [h]
      exact t.changeItem_techniques rfl
    refine (bind_of_ok (perform_count hnew w) _).trans ?_
    refine (perform_growNote rfl (Table.get?_put_self ..) w).trans ?_
    rw [Table.put_put, hput (0 + 1)]
    rfl
  | some n =>
    rw [huse] at hget
    refine (perform_growNote h hget w).trans ?_
    rw [hput]
    rfl

/-! ### The techniques of a call -/

/-- An optimizer with the standard levels, apart from how often their techniques were used, and with the given
counts. -/
structure Shows (o : Optimizer) (path : String) (current : Int) (t : Tally) : Prop where
  path : o.path = path
  levels : o.levels.map Level.unused = Optimization.levels
  current : o.current = current
  counts : o.counts = t.document

theorem Shows.recount (h : Shows o path current t) (t' : Tally) :
    Shows { o with counts := t'.document } path current t' :=
  ⟨h.path, h.levels, h.current, rfl⟩

section

variable {ls : List Level}

/-- Code is changed by the techniques of a level, and those that changed it are counted. -/
theorem perform_applyLevel (hls : ls.map Level.unused = Optimization.levels) {i : Nat}
    (hl : ls[i]? = some l) {ts : List (Technique × Nat)} (hts : ∀ e ∈ ts, l.techniques[e.2]? = some e.1)
    (h : Shows o path current t) (s : String) (w : World) : ∃ o', (applyLevel i ts (.str s)).perform (o, w) =
        (.ok (.str (rewrite (ts.map Prod.fst) s), changers (ts.map Prod.fst) s), (o', w)) ∧
      Shows o' path current (t.useAll (changers (ts.map Prod.fst) s)) := by
  induction ts generalizing o t s with
  | nil => exact ⟨o, rfl, h⟩
  | cons e ts ih =>
    obtain ⟨u, j⟩ := e
    have hu := hts (u, j) mem_cons_self
    have hmethod : ((techniquePart i j u).get o).method = u.method :=
      method_get_techniquePart (h.levels.trans hls.symm) hl hu u
    have htextual : ((techniquePart i j u).get o).method.isTextual := by
      have hmem : l.unused ∈ Optimization.levels := hls ▸ mem_map_of_mem (mem_of_getElem? hl)
      rw [hmethod]
      exact isTextual_of_mem_levels _ hmem u.unused (mem_map_of_mem (mem_of_getElem? hu))
    obtain ⟨u', happly, hunused⟩ := perform_apply htextual s w
    have hwithin : (Task.within (techniquePart i j u) (Technique.apply (.str s))).perform (o, w) =
        (.ok (.str (u.method.result s)), ((techniquePart i j u).set u' o, w)) := by
      rw [← hmethod, Task.within, on, perform_of, happly]
    have hshows : Shows ((techniquePart i j u).set u' o) path current t :=
      ⟨h.path, (levels_set_techniquePart hunused).trans h.levels, h.current, h.counts⟩
    have hequal : (Value.str (u.method.result s)).equal (.str s) = (u.method.result s == s) := by
      rw [equal]
    have hrest := fun e he => hts e (mem_cons_of_mem (u, j) he)
    rw [applyLevel, bind_of_ok hwithin, hequal, map_cons, rewrite, changers]
    dsimp only
    by_cases hsame : u.method.result s = s
    · have hunchanged : (!u.method.result s == s) = false := by rw [beq_iff_eq.2 hsame]; rfl
      obtain ⟨o', hperform, hshows'⟩ := ih hrest hshows (u.method.result s)
      rw [if_pos hsame, hunchanged, if_neg Bool.false_ne_true, bind_of_ok hperform]
      exact ⟨o', rfl, hshows'⟩
    · have hchanged : (!u.method.result s == s) := by rw [beq_eq_false_iff_ne.2 hsame]; rfl
      obtain ⟨o', hperform, hshows'⟩ := ih hrest (hshows.recount (t.useAll [u.name])) (u.method.result s)
      rw [if_neg hsame, hchanged, if_pos rfl,
        bind_of_ok (perform_countTechnique hshows.counts u.name w), bind_of_ok hperform]
      exact ⟨o', rfl, hshows'⟩

/-- Code is changed by the techniques of the levels up to a limit, and those that changed it are counted. -/
theorem perform_applyLevels (hls : ls.map Level.unused = Optimization.levels) (limit : Int)
    {es : List (Level × Nat)} (hes : ∀ e ∈ es, ls[e.2]? = some e.1) (h : Shows o path current t)
    (s : String) (w : World) :
    ∃ o', (applyLevels (.int limit) es (.str s)).perform (o, w) =
        (.ok (.str (rewrite (techniquesUpTo limit (es.map Prod.fst)) s),
          changers (techniquesUpTo limit (es.map Prod.fst)) s), (o', w)) ∧
      Shows o' path current (t.useAll (changers (techniquesUpTo limit (es.map Prod.fst)) s)) := by
  induction es generalizing o t s with
  | nil => exact ⟨o, rfl, h⟩
  | cons e es ih =>
    obtain ⟨l, i⟩ := e
    have hrelate := relate_le_int l.number limit
    have hrest := fun e he => hes e (mem_cons_of_mem (l, i) he)
    rw [applyLevels, bind_lift hrelate, map_cons, techniquesUpTo, filter_cons]
    by_cases hle : l.number ≤ limit
    · have hlevel := perform_applyLevel hls (hes (l, i) mem_cons_self)
        (show ∀ e ∈ l.techniques.zipIdx, l.techniques[e.2]? = some e.1 from
          fun e he => mem_zipIdx_iff_getElem?.1 he) h s w
      rw [zipIdx_map_fst] at hlevel
      obtain ⟨o₁, hperform₁, hshows₁⟩ := hlevel
      obtain ⟨o₂, hperform₂, hshows₂⟩ := ih hrest hshows₁ (rewrite l.techniques s)
      rw [decide_eq_true hle, if_pos rfl, if_pos rfl, bind_of_ok hperform₁, flatMap_cons,
        rewrite_append, changers_append]
      dsimp only
      rw [bind_of_ok hperform₂]
      refine ⟨o₂, rfl, ?_⟩
      rw [Tally.useAll, foldl_append]
      exact hshows₂
    · obtain ⟨o', hperform, hshows⟩ := ih hrest h s
      rw [decide_eq_false hle, if_neg Bool.false_ne_true, if_neg Bool.false_ne_true]
      exact ⟨o', hperform, hshows⟩

end

/-! ### The highest level -/

/-- Levels in ascending order are sorted downwards by turning them around. -/
theorem mergeSort_levels (h : (ls.map Level.number).Pairwise (· < ·)) :
    ls.mergeSort (fun a b => a.number ≥ b.number) = ls.reverse := by
  have hdistinct : (ls.map Level.number).Nodup := h.imp ne_of_lt
  have hsorted := @List.pairwise_mergeSort Level (fun a b => decide (a.number ≥ b.number))
    (fun a b c hab hbc => by simp only [ge_iff_le, decide_eq_true_eq] at hab hbc ⊢; omega)
    (fun a b => by simp only [ge_iff_le, Bool.or_eq_true, decide_eq_true_eq]; omega) ls
  have hreversed : ls.reverse.Pairwise fun a b => decide (a.number ≥ b.number) :=
    pairwise_reverse.2 ((pairwise_map.1 h).imp fun hlt => decide_eq_true hlt.le)
  have hperm := (mergeSort_perm ls fun a b => decide (a.number ≥ b.number)).trans ls.reverse_perm.symm
  refine List.Perm.eq_of_pairwise (fun a b ha hb hab hba => ?_) hsorted hreversed hperm
  have hnumber : a.number = b.number := le_antisymm (of_decide_eq_true hba) (of_decide_eq_true hab)
  exact inj_on_of_nodup_map hdistinct (mem_mergeSort.1 ha) (mem_reverse.1 hb) hnumber

theorem reached_cons {v : Value} {key : String} {m : Int} (h : v.has key = .ok true)
    (hitem : v.item key = .ok (.int m)) (n : Int) (more : Table Value) :
    Level.reached v ((key, .int n) :: more) = if m < n then .ok false else Level.reached v more := by
  by_cases hlt : m < n
  · simp [Level.reached, h, hitem, relate_lt_int, hlt, bind, Except.bind, pure, Except.pure]
  · simp [Level.reached, h, hitem, relate_lt_int, hlt, bind, Except.bind]

theorem find_unused (v : Value) (ls : List Level) :
    bestLevel.find v (ls.map Level.unused) = (bestLevel.find v ls).map (Option.map Level.unused) := by
  induction ls with
  | nil => rfl
  | cons l ls ih =>
    rw [map_cons, bestLevel.find, bestLevel.find, ih]
    show (l.available v >>= _) = Except.map _ (l.available v >>= _)
    cases l.available v with
    | error f => rfl
    | ok b => cases b <;> rfl

/-- The first level may always be used and the last two never, since no improvement of speed is counted. -/
theorem available_levels (t : Tally) : Optimization.levels.map (fun l => l.available t.document) =
    [.ok true, .ok (decide (10 ≤ t.total)), .ok (decide (30 ≤ t.total ∧ 20 ≤ t.successful)), .ok false, .ok false] := by
  have htotal := @reached_cons t.document "total_optimizations" t.total rfl rfl
  have hsuccessful := @reached_cons t.document "successful_optimizations" t.successful rfl rfl
  have hperformance := @reached_cons t.document "performance_improvement" 0 rfl rfl
  have hnil : Level.reached t.document [] = .ok true := rfl
  simp only [Optimization.levels, map_cons, map_nil, Level.available, htotal, hsuccessful,
    hperformance, hnil, List.cons.injEq, and_true, true_and]
  refine ⟨?_, ?_, ?_, ?_⟩
  · split_ifs with h
    · rw [decide_eq_false (by omega)]
    · rw [decide_eq_true (by omega)]
  · split_ifs with h h'
    · rw [decide_eq_false (by omega)]
    · rw [decide_eq_false (by omega)]
    · rw [decide_eq_true (by omega)]
  · rw [if_pos (show (0 : Int) < 20 by omega), ite_self, ite_self]
  · rw [if_pos (show (0 : Int) < 40 by omega), ite_self, ite_self]

theorem find_levels (t : Tally) : ∃ l, bestLevel.find t.document Optimization.levels.reverse = .ok (some l) ∧
    l.number = levelOf t.total t.successful := by
  have havailable := available_levels t
  simp only [Optimization.levels, map_cons, map_nil, List.cons.injEq, and_true] at havailable
  obtain ⟨h1, h2, h3, h4, h5⟩ := havailable
  simp only [Optimization.levels, reverse_cons, reverse_nil, nil_append, cons_append,
    bestLevel.find, h1, h2, h3, h4, h5, levelOf]
  by_cases h30 : 30 ≤ t.total ∧ 20 ≤ t.successful
  · rw [decide_eq_true h30, if_pos h30]
    exact ⟨_, rfl, rfl⟩
  · rw [decide_eq_false h30, if_neg h30]
    by_cases h10 : 10 ≤ t.total
    · rw [decide_eq_true h10, if_pos h10]
      exact ⟨_, rfl, rfl⟩
    · rw [decide_eq_false h10, if_neg h10]
      exact ⟨_, rfl, rfl⟩

theorem perform_updateLevel (h : Shows o path current t) (w : World) :
    updateLevel.perform (o, w) = (.ok (), ({ o with current := levelOf t.total t.successful }, w)) := by
  have hnumbers : (o.levels.map Level.number).Pairwise (· < ·) := by
    have hstandard : o.levels.map Level.number = Optimization.levels.map Level.number := by
      rw [← h.levels, map_map]
      rfl
    rw [hstandard]
    decide
  have hfind := find_unused t.document o.levels.reverse
  rw [map_reverse, h.levels] at hfind
  obtain ⟨l, hl, hnumber⟩ := find_levels t
  rw [hl] at hfind
  cases hbest : bestLevel.find t.document o.levels.reverse with
  | error f =>
    rw [hbest] at hfind
    cases hfind
  | ok l? =>
    rw [hbest] at hfind
    cases l? with
    | none => cases hfind
    | some l' =>
      have hlevel : bestLevel o.counts o.levels = .ok (some l') := by
        rw [bestLevel, mergeSort_levels hnumbers, h.counts, hbest]
      have hsame : l = l'.unused := Option.some.inj (Except.ok.inj hfind)
      rw [updateLevel, bind_self, bind_lift hlevel, ← hnumber, hsame]
      rfl

/-! ### The shrinkage -/

/-- The quotient of two counts that are not too far from each other is a double. -/
theorem exists_div {i : Int} {n : Nat} (hn : 0 < n) (h : i.natAbs ≤ 4301 ^ 15 * n) :
    ∃ x, div (.int i) (.int n) = .ok (.float x) := by
  have hpos : (0 : ℝ) < n := by exact_mod_cast hn
  have hquotient : (i.natAbs : ℝ) / n < 2 ^ (1023 : Int) := by
    have hle : (i.natAbs : ℝ) / n ≤ 4301 ^ 15 := by
      rw [div_le_iff₀ hpos]
      exact_mod_cast h
    have hlt : (4301 ^ 15 : ℝ) < 2 ^ 195 := by norm_num
    have hpow : (2 : ℝ) ^ 195 ≤ 2 ^ (1023 : Int) := by
      rw [← zpow_natCast]
      exact zpow_le_zpow_right₀ one_le_two (by norm_num)
    exact hle.trans_lt (hlt.trans_le hpow)
  obtain ⟨x, hx⟩ := Option.isSome_iff_exists.1 (Decimal.isSome_ofFraction? ((i < 0) != ((n : Int) < 0)) hn hquotient)
  refine ⟨x, ?_⟩
  have hdiv : divInts i n = .ok x := by
    rw [divInts, if_neg (by omega), Int.natAbs_natCast, hx]
  show (divInts i n).map Value.float = _
  rw [hdiv]
  rfl

theorem exists_shrinkage {c : Call} (h : c.result ≠ c.code) :
    ∃ x, shrinkage (.str c.code) (.str c.result) = .ok (.float x) := by
  have hpos := c.length_code_pos h
  have hlength := c.length_result_le
  obtain ⟨x, hx⟩ := exists_div (i := (c.code.length : Int) - c.result.length) hpos (by omega)
  obtain ⟨y, hy⟩ : ∃ y, Decimal.ofInt? 100 = some y := Option.isSome_iff_exists.1 (by decide +kernel)
  have hmul : (Value.float x).mul (.int 100) = .ok (.float (x * y)) := by
    show (floatOfInt 100 >>= fun y => pure (Value.float (x * y))) = _
    rw [floatOfInt, hy]
    rfl
  refine ⟨x * y, ?_⟩
  show (div (.int ((c.code.length : Int) - c.result.length)) (.int c.code.length) >>= fun q =>
    q.mul (.int 100)) = _
  rw [hx]
  exact hmul

/-! ### The whole call -/

variable {p : FilePlace} {filed : Option Value} {w : World}

theorem perform_save (h : o.path = p.path) (hholds : p.Holds filed w.disk) :
    ∃ d, save.perform (o, w) = (.ok (), (o, w.withDisk d)) ∧ p.Holds (some o.counts) d := by
  obtain ⟨d, hwrite, hholds'⟩ := hholds.perform_saveQuietly o.counts
  rw [← h] at hwrite
  refine ⟨d, ?_, hholds'⟩
  rw [save, bind_self]
  exact (Task.perform_lift _ o w).trans (by rw [hwrite])

def asked (level : Option Int) : Value := level.elim .null .int

/-- The end of a call: the counts are saved, and the level that they allow becomes the current one. -/
theorem perform_finish (h : Shows o p.path current t) (hholds : p.Holds filed w.disk) (c : Call) : ∃ o' d, ((do
        save
        updateLevel
        return .dict [("optimized_code", .str c.result), ("techniques_applied", texts c.changers),
          ("optimization_level", .int c.limit),
          ("code_size_reduction", .int ((← (Value.str c.code).size) - (← (Value.str c.result).size)))]) :
            Task Optimizer Value).perform (o, w) = (.ok c.answer, (o', w.withDisk d)) ∧
      Shows o' p.path (levelOf t.total t.successful) t ∧ p.Holds (some t.document) d := by
  obtain ⟨d, hsave, hholds'⟩ := perform_save h.path hholds
  rw [h.counts] at hholds'
  rw [bind_of_ok hsave, bind_of_ok (perform_updateLevel h _)]
  exact ⟨_, d, rfl, ⟨h.path, h.levels, rfl, h.counts⟩, hholds'⟩

/-- The techniques of a call, apart from how often they were used, are those of the standard levels. -/
theorem perform_applyAll (h : Shows o path current t) (c : Call) (w : World) :
    ∃ o', (applyLevels (.int c.limit) o.levels.zipIdx (.str c.code)).perform (o, w) =
      (.ok (.str c.result, c.changers), (o', w)) ∧ Shows o' path current (t.useAll c.changers) := by
  obtain ⟨o', happly, hshows⟩ := perform_applyLevels h.levels c.limit
    (show ∀ e ∈ o.levels.zipIdx, o.levels[e.2]? = some e.1 from
      fun e he => mem_zipIdx_iff_getElem?.1 he) h c.code w
  rw [zipIdx_map_fst, ← rewrite_unused, ← changers_unused, ← techniquesUpTo_unused, h.levels] at happly
  rw [zipIdx_map_fst, ← changers_unused, ← techniquesUpTo_unused, h.levels] at hshows
  exact ⟨o', happly, hshows⟩

/-- What a call does: it answers the changed code, counts, saves the counts, and takes the level that they
allow. -/
theorem perform_optimize (h : Shows o p.path current t) (hholds : p.Holds filed w.disk) {c : Call}
    {level : Option Int} (hc : level.getD current = c.limit) :
    ∃ o' d r, (optimize (.str c.code) (asked level)).perform (o, w) = (.ok c.answer, (o', w.withDisk d)) ∧
      Shows o' p.path (levelOf (t.next c r).total (t.next c r).successful) (t.next c r) ∧
      p.Holds (some (t.next c r).document) d := by
  have hlimit : (if (asked level).isNull then Value.int o.current else asked level) = .int c.limit := by
    rw [h.current, ← hc]
    cases level <;> rfl
  obtain ⟨o₁, happly, h₁⟩ := perform_applyAll h c w
  have htotal : o₁.counts.changeItem "total_optimizations" next =
      .ok (Tally.document ⟨t.total + 1, t.successful, t.reduction, (t.useAll c.changers).uses⟩) := by
    rw [h₁.counts]
    rfl
  have hequal : (Value.str c.result).equal (.str c.code) = (c.result == c.code) := by rw [equal]
  rw [optimize, bind_self, hlimit]
  dsimp only
  rw [bind_of_ok happly]
  dsimp only
  rw [bind_of_ok (perform_count htotal w), hequal]
  by_cases hsame : c.result = c.code
  · have hnext : ⟨t.total + 1, t.successful, t.reduction, (t.useAll c.changers).uses⟩ = t.next c t.reduction := by
      simp only [Tally.next, if_pos hsame, Nat.add_zero]
    obtain ⟨o', d, hfinish, hshows, hholds'⟩ := perform_finish (h₁.recount (t.next c t.reduction)) hholds c
    refine ⟨o', d, t.reduction, ?_, hshows, hholds'⟩
    rw [hnext, beq_iff_eq.2 hsame, if_neg (by decide)]
    exact hfinish
  · obtain ⟨x, hx⟩ := exists_shrinkage hsame
    obtain ⟨y, hy⟩ := t.exists_reduced x
    have hnext : ⟨t.total + 1, t.successful + 1, some y, (t.useAll c.changers).uses⟩ = t.next c (some y) := by
      simp only [Tally.next, if_neg hsame]
    obtain ⟨o', d, hfinish, hshows, hholds'⟩ := perform_finish (h₁.recount (t.next c (some y))) hholds c
    refine ⟨o', d, some y, ?_, hshows, hholds'⟩
    have hsuccessful : (Tally.document ⟨t.total + 1, t.successful, t.reduction,
        (t.useAll c.changers).uses⟩).changeItem "successful_optimizations" next =
        .ok (Tally.document ⟨t.total + 1, t.successful + 1, t.reduction, (t.useAll c.changers).uses⟩) := rfl
    have hreduction : (Tally.document ⟨t.total + 1, t.successful + 1, t.reduction,
        (t.useAll c.changers).uses⟩).changeItem "code_size_reduction" (fun r => r.add (.float x)) =
        .ok (Tally.document ⟨t.total + 1, t.successful + 1, some y, (t.useAll c.changers).uses⟩) := by
      show (t.reductionValue.add (.float x) >>= fun r => _) = _
      rw [hy]
      rfl
    rw [beq_eq_false_iff_ne.2 hsame, if_pos (by decide), bind_of_ok (perform_count hsuccessful w),
      bind_lift hx, bind_of_ok (perform_count hreduction w), hnext]
    exact hfinish

end Optimizer

end Optimization

end GzLang
