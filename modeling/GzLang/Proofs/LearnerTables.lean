import GzLang.Learning.Learner
import GzLang.Proofs.PlainDocument
import GzLang.Proofs.Ranking
import GzLang.Proofs.World

/-!
# The tables of a learner

A learner keeps three tables (`Tables`): the weights and the confidences of features, by their identifiers, and the
lines that are known for each role. Learning a feature puts its identifier into the first two and its line into the
third (`perform_learnFeature`), so that these stay in step (`Consistent.learn`). From consistent tables there are
suggestions for every role: exactly the known lines whose confidence is great enough (`suggestions_perm`).
-/

namespace GzLang

open GzLang.Action Table Value

theorem Value.exists_lesser (x y : Float) : ∃ z, lesser (.float x) (.float y) = .ok (.float z) := by
  obtain ⟨b, hb⟩ := relate_of_numbers .lt (v := .float y) (w := .float x) rfl rfl
  refine ⟨if b then y else x, ?_⟩
  rw [lesser, hb]
  cases b <;> rfl

theorem Value.exists_greater (x y : Float) : ∃ z, greater (.float x) (.float y) = .ok (.float z) := by
  obtain ⟨b, hb⟩ := relate_of_numbers .gt (v := .float y) (w := .float x) rfl rfl
  refine ⟨if b then y else x, ?_⟩
  rw [greater, hb]
  cases b <;> rfl

theorem Value.has_texts (ss : List String) (s : String) : (texts ss).has s = .ok (decide (s ∈ ss)) := by
  show Except.ok ((ss.map Value.str).any (equal (.str s))) = _
  rw [List.any_map]
  congr 1
  rw [Bool.eq_iff_iff, List.any_eq_true, decide_eq_true_iff]
  constructor
  · rintro ⟨t, ht, heq⟩
    rw [eq_of_beq (show (s == t) from heq)]
    exact ht
  · intro hs
    exact ⟨s, hs, beq_self_eq_true s⟩

namespace Learning

variable {role line other : String}

def withLine (lines : List String) (line : String) : List String := if line ∈ lines then lines else lines ++ [line]

structure Tables where
  weights : Table Float := []
  confidence : Table Float := []
  known : Table (List String) := []

namespace Tables

variable (t : Tables)

def weightItems : Table Value := t.weights.map fun e => (e.1, .float e.2)

def confidenceItems : Table Value := t.confidence.map fun e => (e.1, .float e.2)

def knownItems : Table Value := t.known.map fun e => (e.1, texts e.2)

def linesOf (role : String) : List String := (t.known.get? role).getD []

def weigh (id : String) (weight : Float) : Tables := { t with weights := t.weights.put id weight }

def judge (id : String) (trust : Float) : Tables := { t with confidence := t.confidence.put id trust }

def list (role line : String) : Tables :=
  { t with known := t.known.put role (withLine (t.linesOf role) line) }

def learn (digest : String → String) (role line : String) (weight trust : Float) : Tables :=
  ((t.weigh (featureId digest role line) weight).judge (featureId digest role line) trust).list role line

theorem weigh_judge_again (id : String) (x y weight trust : Float) :
    (((t.weigh id x).judge id y).weigh id weight).judge id trust = (t.weigh id weight).judge id trust := by
  show { t with weights := (t.weights.put id x).put id weight, confidence := (t.confidence.put id y).put id trust } = _
  rw [put_put, put_put]
  rfl

/-- The weights and the confidences are those of the known lines, each listed once. -/
structure Consistent (digest : String → String) (t : Tables) : Prop where
  same : t.weights.keys = t.confidence.keys
  nodup : t.weights.keys.Nodup
  nodup_known : t.known.keys.Nodup
  listed : ∀ e ∈ t.known, e.2.Nodup
  ids : ∀ id, id ∈ t.weights.keys ↔ ∃ role, ∃ line ∈ t.linesOf role, id = featureId digest role line

theorem consistent_empty (digest : String → String) : Consistent digest {} where
  same := rfl
  nodup := List.nodup_nil
  nodup_known := List.nodup_nil
  listed := nofun
  ids id := by
    constructor
    · intro h
      cases h
    · rintro ⟨role, line, hline, -⟩
      cases hline

theorem linesOf_list_self (role line : String) : (t.list role line).linesOf role = withLine (t.linesOf role) line := by
  rw [list, linesOf, get?_put_self, Option.getD_some]

theorem linesOf_list_of_ne (h : role ≠ other) (line : String) : (t.list role line).linesOf other = t.linesOf other := by
  rw [list, linesOf, get?_put_of_ne _ h, linesOf]

theorem mem_linesOf_list {x : String} : x ∈ (t.list role line).linesOf other ↔
    x ∈ t.linesOf other ∨ other = role ∧ x = line := by
  by_cases h : role = other
  · subst h
    rw [linesOf_list_self, withLine]
    split
    · rename_i hline
      exact ⟨.inl, fun hx => hx.elim id fun hx => hx.2 ▸ hline⟩
    · simp
  · rw [linesOf_list_of_ne t h]
    exact ⟨.inl, fun hx => hx.elim id fun hx => absurd hx.1.symm h⟩

/-- The lines that are known in the end are those of the tables and of some features. -/
def Adds (features : Table String) (t' : Tables) : Prop :=
  ∀ role line, line ∈ t'.linesOf role ↔ line ∈ t.linesOf role ∨ (role, line) ∈ features

theorem adds_nil : t.Adds [] t := fun _ _ => by simp

theorem adds_learn_cons {digest : String → String} {e : String × String} {features : Table String} {t' : Tables}
    {weight trust : Float} (h : (t.learn digest e.1 e.2 weight trust).Adds features t') :
    t.Adds (e :: features) t' := by
  intro role line
  have hfirst : line ∈ (t.learn digest e.1 e.2 weight trust).linesOf role ↔
      line ∈ t.linesOf role ∨ role = e.1 ∧ line = e.2 := t.mem_linesOf_list
  rw [h, hfirst, List.mem_cons, Prod.ext_iff, or_assoc]

variable {t} {digest : String → String}

theorem Consistent.nodup_linesOf (h : Consistent digest t) (role : String) : (t.linesOf role).Nodup := by
  rw [linesOf]
  cases hlines : t.known.get? role with
  | none => exact List.nodup_nil
  | some lines => exact h.listed _ (mem_of_get?_eq hlines)

theorem Consistent.learn (h : Consistent digest t) (role line : String) (weight trust : Float) :
    Consistent digest (t.learn digest role line weight trust) where
  same := by
    show (t.weights.put _ _).keys = (t.confidence.put _ _).keys
    rw [keys_put, keys_put, h.same]
  nodup := nodup_keys_put h.nodup ..
  nodup_known := nodup_keys_put h.nodup_known ..
  listed e he := by
    rcases mem_put he with he | rfl
    · exact h.listed e he
    · have hnodup := h.nodup_linesOf role
      show (withLine (t.linesOf role) line).Nodup
      rw [withLine]
      split
      · exact hnodup
      · rw [List.nodup_append_comm]
        simp_all
  ids id := by
    show id ∈ (t.weights.put _ _).keys ↔ ∃ role', ∃ line' ∈ (t.list role line).linesOf role', _
    rw [mem_keys_put, h.ids]
    constructor
    · rintro (⟨role', line', hline', hid⟩ | hid)
      · exact ⟨role', line', (t.mem_linesOf_list).2 (.inl hline'), hid⟩
      · exact ⟨role, line, (t.mem_linesOf_list).2 (.inr ⟨rfl, rfl⟩), hid⟩
    · rintro ⟨role', line', hline', hid⟩
      rcases (t.mem_linesOf_list).1 hline' with hline' | ⟨rfl, rfl⟩
      · exact .inl ⟨role', line', hline', hid⟩
      · exact .inr hid

end Tables

/-! ### Learning a feature -/

namespace Learner

variable {threshold : Value}

def withTables (l : Learner) (t : Tables) : Learner :=
  { l with weights := .dict t.weightItems, confidence := .dict t.confidenceItems, known := .dict t.knownItems }

variable (l : Learner) {t : Tables} (w : World)

theorem withTables_weigh (t : Tables) (id : String) (x : Float) :
    { l.withTables t with weights := .dict (t.weightItems.put id (.float x)) } = l.withTables (t.weigh id x) := by
  rw [Tables.weightItems, put_map]
  rfl

theorem withTables_judge (t : Tables) (id : String) (x : Float) :
    { l.withTables t with confidence := .dict (t.confidenceItems.put id (.float x)) } =
      l.withTables (t.judge id x) := by
  rw [Tables.confidenceItems, put_map]
  rfl

theorem perform_enrol (hsame : t.weights.keys = t.confidence.keys) (id : String) :
    ∃ x y, (enrol id).perform (l.withTables t, w) = (.ok (), (l.withTables ((t.weigh id x).judge id y), w)) := by
  have hhas : (l.withTables t).weights.has id = .ok (t.weights.has id) := congrArg _ (has_map ..)
  rw [enrol, bind_self, bind_lift hhas]
  cases hid : t.weights.has id with
  | true =>
    have hthere : t.confidence.has id := by
      rw [has_iff_mem_keys, ← hsame, ← has_iff_mem_keys, hid]
    obtain ⟨x, hx⟩ := Option.isSome_iff_exists.1 hid
    obtain ⟨y, hy⟩ := Option.isSome_iff_exists.1 hthere
    refine ⟨x, y, ?_⟩
    rw [Tables.weigh, Tables.judge, put_self hx, put_self hy]
    rfl
  | false =>
    refine ⟨1.0, 0.5, ?_⟩
    have hweights : (l.withTables t).weights.withItem id (.float 1.0) =
        .ok (.dict (t.weightItems.put id (.float 1.0))) := rfl
    have hconfidence : (l.withTables t).confidence.withItem id (.float 0.5) =
        .ok (.dict (t.confidenceItems.put id (.float 0.5))) := rfl
    rw [Bool.not_false, if_pos rfl, bind_lift hweights, bind_update, bind_lift hconfidence]
    refine (Task.perform_update _ _ w).trans ?_
    rw [withTables_weigh]
    exact congrArg (fun l => (Except.ok (), (l, w))) (withTables_judge l (t.weigh id 1.0) id 0.5)

theorem perform_weigh {r x : Float} (hrate : l.rate = .float r) {id : String} (hx : t.weights.get? id = some x) :
    ∃ y, (weigh id).perform (l.withTables t, w) = (.ok (), (l.withTables (t.weigh id y), w)) := by
  have hitem : (l.withTables t).weights.item id = .ok (.float x) := item_map _ hx
  obtain ⟨one, hone⟩ : ∃ y, Decimal.ofInt? 1 = some y := Option.isSome_iff_exists.1 (by decide +kernel)
  have hfactor : add (.int 1) (l.withTables t).rate = .ok (.float (one + r)) := by
    show add (.int 1) l.rate = _
    rw [hrate]
    show (floatOfInt 1 >>= fun y => pure (Value.float (y + r))) = _
    rw [floatOfInt, hone]
    rfl
  have hproduct : (Value.float x).mul (.float (one + r)) = .ok (.float (x * (one + r))) := rfl
  have hput : (l.withTables t).weights.withItem id (.float (x * (one + r))) =
      .ok (.dict (t.weightItems.put id (.float (x * (one + r))))) := rfl
  refine ⟨x * (one + r), ?_⟩
  rw [weigh, bind_self, bind_lift hitem, bind_lift hfactor, bind_lift hproduct, bind_lift hput]
  exact congrArg (fun l => (Except.ok (), (l, w))) (withTables_weigh l t id _)

theorem perform_judge {id : String} {c : Float} (hc : t.confidence.get? id = some c) (result : Value) :
    ∃ y, (judge id result).perform (l.withTables t, w) = (.ok (), (l.withTables (t.judge id y), w)) := by
  have hitem : (l.withTables t).confidence.item id = .ok (.float c) := item_map _ hc
  have hput (y : Float) : (l.withTables t).confidence.withItem id (.float y) =
      .ok (.dict (t.confidenceItems.put id (.float y))) := rfl
  obtain ⟨more, hmore⟩ := exists_lesser 1.0 (c + 0.1)
  obtain ⟨less, hless⟩ := exists_greater 0.1 (c - 0.1)
  have hadd : (Value.float c).add (.float 0.1) = .ok (.float (c + 0.1)) := rfl
  have hsub : (Value.float c).sub (.float 0.1) = .ok (.float (c - 0.1)) := rfl
  rw [judge]
  cases result.isNull with
  | true =>
    refine ⟨c, ?_⟩
    rw [Tables.judge, put_self hc]
    rfl
  | false =>
    rw [if_neg Bool.false_ne_true, bind_self, bind_lift hitem]
    cases result.equal (.str "success") with
    | true =>
      refine ⟨more, ?_⟩
      rw [if_pos rfl, bind_lift hadd, bind_lift hmore, bind_lift (hput more)]
      exact congrArg (fun l => (Except.ok (), (l, w))) (withTables_judge l t id _)
    | false =>
      refine ⟨less, ?_⟩
      rw [if_neg Bool.false_ne_true, bind_lift hsub, bind_lift hless, bind_lift (hput less)]
      exact congrArg (fun l => (Except.ok (), (l, w))) (withTables_judge l t id _)

theorem perform_listLine (t : Tables) (role line : String) :
    (listLine role line).perform (l.withTables t, w) = (.ok (), (l.withTables (t.list role line), w)) := by
  have hlast {t : Tables} {lines : List String} (hlines : t.known.get? role = some lines) : ((do
        let l ← Task.self
        let lines ← l.known.item role
        if !(← lines.has line) then
          let known ← l.known.withItem role (← lines.pushed (.str line))
          Task.update fun l => { l with known }) : Task Learner Unit).perform (l.withTables t, w) =
        (.ok (), (l.withTables { t with known := t.known.put role (withLine lines line) }, w)) := by
    have hitem : (l.withTables t).known.item role = .ok (texts lines) := item_map _ hlines
    have hput : (l.withTables t).known.withItem role (texts (lines ++ [line])) =
        .ok (.dict (t.knownItems.put role (texts (lines ++ [line])))) := rfl
    rw [bind_self, bind_lift hitem, bind_lift (has_texts lines line), withLine]
    by_cases hline : line ∈ lines
    · rw [if_pos hline, decide_eq_true hline, Table.put_self hlines]
      rfl
    · rw [if_neg hline, decide_eq_false hline, Bool.not_false, if_pos rfl,
        bind_lift (pushed_texts lines line), bind_lift hput]
      refine (Task.perform_update _ _ w).trans ?_
      rw [Tables.knownItems, Table.put_map]
      rfl
  have hhas : (l.withTables t).known.has role = .ok (t.known.has role) := congrArg _ (has_map ..)
  rw [listLine, bind_self, bind_lift hhas, Tables.list, Tables.linesOf, Table.has]
  cases hlines : t.known.get? role with
  | some lines => exact hlast hlines
  | none =>
    have hput : (l.withTables t).known.withItem role (.list []) = .ok (.dict (t.knownItems.put role (texts []))) := rfl
    rw [Option.isSome_none, Bool.not_false, if_pos rfl, bind_self, bind_lift hput]
    refine (bind_of_ok (Task.perform_update _ _ w) _).trans ?_
    have hempty : { l.withTables t with known := .dict (t.knownItems.put role (texts [])) } =
        l.withTables { t with known := t.known.put role [] } := by
      rw [Tables.knownItems, Table.put_map]
      rfl
    rw [hempty]
    refine (hlast (Table.get?_put_self ..)).trans ?_
    rw [Table.put_put]
    rfl

/-- A feature is learned, and nothing but the tables changes. -/
theorem perform_learnFeature {r : Float} (hrate : l.rate = .float r) (hsame : t.weights.keys = t.confidence.keys)
    (result : Value) (role line : String) :
    ∃ weight trust, (learnFeature result role line).perform (l.withTables t, w) =
      (.ok (), (l.withTables (t.learn l.digest role line weight trust), w)) := by
  have hdigest : (l.withTables t).digest = l.digest := rfl
  rw [learnFeature, bind_self, hdigest]
  simp only [Tables.learn]
  generalize featureId l.digest role line = id
  obtain ⟨x, y, henrol⟩ := perform_enrol l w hsame id
  obtain ⟨weight, hweigh⟩ := perform_weigh l w (t := (t.weigh id x).judge id y) hrate (get?_put_self ..)
  obtain ⟨trust, hjudge⟩ := perform_judge l w (t := ((t.weigh id x).judge id y).weigh id weight)
    (get?_put_self ..) result
  refine ⟨weight, trust, ?_⟩
  rw [bind_of_ok henrol, bind_of_ok hweigh, bind_of_ok hjudge, Tables.weigh_judge_again, perform_listLine]

theorem perform_learnFeatures {r : Float} (hrate : l.rate = .float r) (ht : t.Consistent l.digest) (result : Value)
    (features : Table String) :
    ∃ t', (features.forM fun e => learnFeature result e.1 e.2).perform (l.withTables t, w) =
      (.ok (), (l.withTables t', w)) ∧ t'.Consistent l.digest ∧ t.Adds features t' := by
  induction features generalizing t with
  | nil => exact ⟨t, rfl, ht, t.adds_nil⟩
  | cons e features ih =>
    obtain ⟨weight, trust, hfirst⟩ := perform_learnFeature l w hrate ht.same result e.1 e.2
    obtain ⟨t', hrest, ht', hadds⟩ := ih (ht.learn e.1 e.2 weight trust)
    exact ⟨t', (bind_of_ok hfirst _).trans hrest, ht', t.adds_learn_cons hadds⟩

/-! ### Suggestions -/

def weightOf (t : Tables) (digest : String → String) (role line : String) : Float :=
  (t.weights.get? (featureId digest role line)).getD 1.0

def trustIn (t : Tables) (digest : String → String) (role line : String) : Float :=
  (t.confidence.get? (featureId digest role line)).getD 0.5

def entry (t : Tables) (digest : String → String) (role line : String) : Value :=
  .dict [("pattern", .str line), ("weight", .float (weightOf t digest role line)),
    ("confidence", .float (trustIn t digest role line))]

def reaches (t : Tables) (digest : String → String) (role : String) (threshold : Value) (line : String) : Bool :=
  ((Value.float (trustIn t digest role line)).relate .ge threshold).toOption.getD false

theorem suggestion?_eq (ht : t.Consistent l.digest) (hthreshold : threshold.IsNumber) (hline : line ∈ t.linesOf role) :
    (l.withTables t).suggestion? role threshold (.str line) = .ok (if reaches t l.digest role threshold line then
      some (entry t l.digest role line) else none) := by
  have hid : featureId l.digest role line ∈ t.weights.keys := (ht.ids _).2 ⟨role, line, hline, rfl⟩
  obtain ⟨x, hx⟩ := Option.isSome_iff_exists.1 ((has_iff_mem_keys _ _).2 hid)
  obtain ⟨c, hc⟩ := Option.isSome_iff_exists.1 ((has_iff_mem_keys _ _).2 (ht.same ▸ hid))
  obtain ⟨b, hb⟩ := relate_of_numbers .ge (v := .float c) rfl hthreshold
  have hdigest : (l.withTables t).digest = l.digest := rfl
  rw [suggestion?, hdigest, reaches, entry, weightOf, trustIn, hx, hc, Option.getD_some, Option.getD_some, hb]
  show (do
    if ← (l.withTables t).weights.has (featureId l.digest role line) then
      if ← (← (l.withTables t).confidence.item (featureId l.digest role line)).relate .ge threshold then
        return some (Value.dict [("pattern", .str line),
          ("weight", ← (l.withTables t).weights.itemD (featureId l.digest role line) (.float 1.0)),
          ("confidence", ← (l.withTables t).confidence.itemD (featureId l.digest role line) (.float 0.5))])
    return none) = _
  generalize featureId l.digest role line = id at hx hc
  have hhas : (l.withTables t).weights.has id = .ok true := by
    refine congrArg _ ((has_map ..).trans ?_)
    rw [Table.has, hx]
    rfl
  have hitem : (l.withTables t).confidence.item id = .ok (.float c) := item_map _ hc
  have hweight : (l.withTables t).weights.itemD id (.float 1.0) = .ok (.float x) := by
    show Except.ok ((get? t.weightItems id).getD _) = _
    rw [Tables.weightItems, get?_map, hx]
    rfl
  have hconfidence : (l.withTables t).confidence.itemD id (.float 0.5) = .ok (.float c) := by
    show Except.ok ((get? t.confidenceItems id).getD _) = _
    rw [Tables.confidenceItems, get?_map, hc]
    rfl
  rw [hhas, hitem, hweight, hconfidence]
  show ((Value.float c).relate .ge threshold >>= _) = _
  rw [hb]
  cases b <;> rfl

theorem mapM_suggestion? (ht : t.Consistent l.digest) (hthreshold : threshold.IsNumber) {lines : List String}
    (hlines : lines ⊆ t.linesOf role) :
    ∃ found, (lines.map Value.str).mapM ((l.withTables t).suggestion? role threshold) = .ok found ∧
      found.filterMap id = (lines.filter (reaches t l.digest role threshold)).map (entry t l.digest role) := by
  induction lines with
  | nil => exact ⟨[], rfl, rfl⟩
  | cons line lines ih =>
    obtain ⟨hline, hrest⟩ := List.cons_subset.1 hlines
    obtain ⟨found, hfound, hentries⟩ := ih hrest
    refine ⟨(if reaches t l.digest role threshold line then some (entry t l.digest role line) else none) :: found,
      ?_, ?_⟩
    · rw [List.map_cons, List.mapM_cons, suggestion?_eq l ht hthreshold hline, hfound]
      rfl
    · rw [List.filterMap_cons, List.filter_cons, hentries]
      cases reaches t l.digest role threshold line <;> rfl

/-- From consistent tables there are suggestions for every role: the known lines whose confidence reaches the
threshold. -/
theorem suggestions_perm (ht : t.Consistent l.digest) (role : String) (hthreshold : threshold.IsNumber) :
    ∃ vs, (l.withTables t).suggestions role threshold = .ok (.list vs) ∧
      vs.Perm (((t.linesOf role).filter (reaches t l.digest role threshold)).map (entry t l.digest role)) := by
  have hhas : (l.withTables t).known.has role = .ok (t.known.has role) := congrArg _ (has_map ..)
  obtain ⟨found, hfound, hentries⟩ := mapM_suggestion? l ht hthreshold (List.Subset.refl (t.linesOf role))
  rw [suggestions, hhas, Table.has, ← hentries]
  rw [Tables.linesOf] at hfound hentries
  cases hlines : t.known.get? role with
  | none =>
    rw [hlines] at hentries
    exact ⟨[], rfl, by rw [hentries]; exact .nil⟩
  | some lines =>
    have hitem : (l.withTables t).known.item role = .ok (texts lines) := item_map _ hlines
    have hnumbers : ∀ v ∈ found.filterMap id, ∃ x,
        (do (← v.item "weight").mul (← v.item "confidence")) = .ok x ∧ x.IsNumber := by
      rw [hentries]
      intro v hv
      obtain ⟨line, -, rfl⟩ := List.mem_map.1 hv
      exact ⟨.float (weightOf t l.digest role line * trustIn t l.digest role line), rfl, rfl⟩
    obtain ⟨sorted, hsorted, hperm⟩ := sortDescending_perm hnumbers
    refine ⟨sorted, ?_, hperm⟩
    rw [hlines, Option.getD_some] at hfound
    show ((l.withTables t).known.item role >>= _) = _
    rw [hitem]
    show ((lines.map Value.str).mapM ((l.withTables t).suggestion? role threshold) >>= _) = _
    rw [hfound]
    show (sortDescending _ _ >>= _) = _
    rw [hsorted]
    rfl

end Learner

end Learning

end GzLang
