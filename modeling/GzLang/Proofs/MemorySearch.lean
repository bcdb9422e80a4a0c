import GzLang.Proofs.Foremost
import GzLang.Proofs.MemoryDisk
import GzLang.Value.View

/-!
# What a search finds

A search goes through the items of a category. Those that are sure enough and mention the query (`Answers`)
are shown (`matching_of_rated`), in descending order of confidence and then of uses. Numbers are compared as the
amounts that they stand for, so this order is linear (`relate_lt_pairs`), and what a search gives are the foremost of
all answers (`search_finds_the_foremost`).
-/

namespace GzLang

open List

/-! ### Amounts -/

namespace Value

def IsAmount (v : Value) : Prop := v.amount?.isSome = true

/-- The number that a value stands for; of no interest if it is no number. -/
noncomputable def amount (v : Value) : EReal := v.amount?.getD 0

variable {v w : Value}

theorem IsAmount.amount?_eq (h : v.IsAmount) : v.amount? = some v.amount := by
  obtain ⟨x, hx⟩ := Option.isSome_iff_exists.1 h
  rw [amount, hx, Option.getD_some]

theorem isAmount_int (i : Int) : (Value.int i).IsAmount := rfl

theorem isAmount_float {x : Float} (h : Decimal.decode x ≠ .nan) : (Value.float x).IsAmount := by
  show ((Decimal.decode x).amount?).isSome
  cases hx : Decimal.decode x with
  | finite | infinite => rfl
  | nan => exact absurd hx h

theorem isAmount_zero : (Value.float 0.0).IsAmount := isAmount_float (by rintro ⟨⟩)

theorem isAmount_one : (Value.float 1.0).IsAmount := isAmount_float (by rintro ⟨⟩)

theorem relate_amounts (hv : v.IsAmount) (hw : w.IsAmount) (r : Relation) :
    relate r v w = .ok (r.holds (cmp v.amount w.amount)) :=
  relate_of_amount? hv.amount?_eq hw.amount?_eq r

theorem relate_lt_amounts (hv : v.IsAmount) (hw : w.IsAmount) :
    relate .lt v w = .ok (decide (v.amount < w.amount)) := by
  rw [relate_amounts hv hw]
  rcases lt_trichotomy v.amount w.amount with h | h | h
  · simp [Relation.holds, (cmp_eq_lt_iff _ _).2 h, h]
  · simp [Relation.holds, h]
  · simp [Relation.holds, (cmp_eq_gt_iff _ _).2 h, h.le]

theorem equal_amounts (hv : v.IsAmount) (hw : w.IsAmount) : equal v w = decide (v.amount = w.amount) := by
  obtain ⟨a, ha, hx⟩ := Option.bind_eq_some_iff.1 hv.amount?_eq
  obtain ⟨b, hb, hy⟩ := Option.bind_eq_some_iff.1 hw.amount?_eq
  have hequal : equal v w = Number.equal a b := by
    cases v <;> cases ha <;> cases w <;> cases hb <;> simp [equal, equalNumber, toNumber?]
  rw [hequal, Number.equal, Number.compare?_of_amount? hx hy]
  rcases eq_or_ne v.amount w.amount with h | h
  · simp [h]
  · have hcmp : cmp v.amount w.amount ≠ .eq := fun heq => h ((cmp_eq_eq_iff _ _).1 heq)
    simp [h, hcmp]

/-- Pairs of numbers are compared by the first ones, and by the second ones if these are equal. -/
theorem relate_lt_pairs {v' w' : Value} (hv : v.IsAmount) (hw : w.IsAmount) (hv' : v'.IsAmount) (hw' : w'.IsAmount) :
    relate .lt (.tuple [v, v']) (.tuple [w, w']) =
      .ok (decide (toLex (v.amount, v'.amount) < toLex (w.amount, w'.amount))) := by
  have hlists : relate .lt (.tuple [v, v']) (.tuple [w, w']) =
      if equal v w then (if equal v' w' then .ok false else relate .lt v' w') else relate .lt v w := by
    simp [relate, relateLists, Relation.holds]
  rw [hlists, equal_amounts hv hw, equal_amounts hv' hw', relate_lt_amounts hv hw, relate_lt_amounts hv' hw']
  simp only [Prod.Lex.toLex_lt_toLex]
  by_cases h : v.amount = w.amount
  · by_cases h' : v'.amount = w'.amount <;> simp [h, h']
  · simp [h]

end Value

namespace Memory

open GzLang.Action Value

/-! ### Items and queries -/

/-- An item that can be ranked: it has a value, and its confidence and the number of its uses, if it has these, are
numbers. -/
structure Rated (item : Value) : Prop where
  value : ∃ fs v, item = .dict fs ∧ Table.get? fs "value" = some v
  confidence : ∀ v ∈ item.field? "confidence", v.IsAmount
  uses : ∀ v ∈ item.field? "usage_count", v.IsAmount

def confidence (other item : Value) : Value := (item.field? "confidence").getD other

def uses (item : Value) : Value := (item.field? "usage_count").getD (.int 0)

def shown (e : String × Value) : Value :=
  .dict [("key", .str e.1), ("value", e.2.field "value"), ("confidence", confidence (.float 1.0) e.2),
    ("usage_count", uses e.2), ("last_used", (e.2.field? "last_used").getD (.str "")),
    ("metadata", (e.2.field? "metadata").getD (.dict []))]

/-- What a search is sorted by: the confidence, then the number of uses. -/
noncomputable def preference (e : String × Value) : EReal ×ₗ EReal :=
  toLex ((confidence (.float 1.0) e.2).amount, (uses e.2).amount)

def queryValue : Option String → Value
  | none => .null
  | some q => .str q

/-- A text contains another one, letters of either case alike. -/
def Contains (text query : String) : Prop := Text.lower query.toList <:+: Text.lower text.toList

/-- An item mentions a query that is not empty, in its key or in its value if that is a text. -/
def Mentions (query : Option String) (e : String × Value) : Prop :=
  ∀ q ∈ query, q ≠ "" → Contains e.1 q ∨ ∃ s, e.2.field? "value" = some (.str s) ∧ Contains s q

/-- An item answers a query: it is sure enough and mentions it. -/
def Answers (query : Option String) (least : EReal) (e : String × Value) : Prop :=
  least ≤ (confidence (.float 0.0) e.2).amount ∧ Mentions query e

theorem mentions_of_empty {query : Option String} (h : ∀ q ∈ query, q = "") (e : String × Value) : Mentions query e :=
  fun q hq hne => absurd (h q hq) hne

section Rated

variable {item : Value} (h : Rated item)
include h

theorem Rated.isAmount_confidence {other : Value} (hother : other.IsAmount) :
    (GzLang.Memory.confidence other item).IsAmount := by
  rw [GzLang.Memory.confidence]
  cases hc : item.field? "confidence" with
  | none => exact hother
  | some v => exact h.confidence v hc

theorem Rated.isAmount_uses : (GzLang.Memory.uses item).IsAmount := by
  rw [GzLang.Memory.uses]
  cases hc : item.field? "usage_count" with
  | none => exact isAmount_int 0
  | some v => exact h.uses v hc

theorem Rated.itemD_eq (k : String) (other : Value) : item.itemD k other = .ok ((item.field? k).getD other) := by
  obtain ⟨fs, v, rfl, -⟩ := h.value
  rfl

theorem Rated.item_value : item.item "value" = .ok (item.field "value") := by
  obtain ⟨fs, v, rfl, hv⟩ := h.value
  rw [item_dict, hv, field, field?, hv]
  rfl

theorem Rated.found_eq (key : String) : found key item = .ok (shown (key, item)) := by
  unfold found
  rw [h.item_value, h.itemD_eq, h.itemD_eq, h.itemD_eq, h.itemD_eq]
  rfl

open scoped Classical in
theorem Rated.fits_eq (query : Option String) (key : String) :
    fits (queryValue query) key item = .ok (decide (Mentions query (key, item))) := by
  obtain ⟨fs, v, rfl, hv⟩ := h.value
  have hfield : (Value.dict fs).field? "value" = some v := hv
  have hitem : (Value.dict fs).item "value" = .ok v := by rw [item_dict, hv]; rfl
  have hmentions (q s : String) : mentions q s = decide (Contains s q) := by
    rw [mentions, Bool.eq_iff_iff, Text.occurs_iff_infix, decide_eq_true_iff, Contains]
  rcases query with - | q
  · have hall : Mentions none (key, .dict fs) := mentions_of_empty (by simp) _
    rw [decide_eq_true hall]
    rfl
  rcases eq_or_ne q "" with rfl | hq
  · have hall : Mentions (some "") (key, .dict fs) := mentions_of_empty (by simp) _
    rw [decide_eq_true hall]
    rfl
  have htrue : (!(queryValue (some q)).isTrue) = false := by simp [queryValue, Value.isTrue, hq]
  have hiff : Mentions (some q) (key, .dict fs) ↔ Contains key q ∨ ∃ s, v = .str s ∧ Contains s q := by
    simp [Mentions, hq, hfield]
  rw [fits, htrue, if_neg Bool.false_ne_true, hitem]
  cases v with
  | str s =>
    show Except.ok (mentions q key || mentions q s) = _
    simp [hmentions, hiff]
  | _ =>
    show Except.ok (mentions q key) = _
    simp [hmentions, hiff]

end Rated

/-! ### The answers and their order -/

theorem mapM_filterMap_id {α β : Type} {f : α → Except Fault (Option β)} {p : α → Prop} [DecidablePred p] {g : α → β}
    {xs : List α} (hf : ∀ x ∈ xs, f x = .ok (if p x then some (g x) else none)) :
    (do return (← xs.mapM f).filterMap id) = (.ok ((xs.filter fun x => p x).map g) : Except Fault (List β)) := by
  have hall : xs.mapM f = .ok (xs.map fun x => if p x then some (g x) else none) := by
    induction xs with
    | nil => rfl
    | cons x xs ih =>
      rw [forall_mem_cons] at hf
      rw [mapM_cons, hf.1, ih hf.2]
      rfl
  rw [hall]
  show Except.ok _ = _
  rw [filterMap_map, Function.id_comp]
  congr 1
  clear hf hall
  induction xs with
  | nil => rfl
  | cons x xs ih => by_cases hx : p x <;> simp [hx, ih]

section Search

variable {items : Table Value} (h : ∀ e ∈ items, Rated e.2)
include h

open scoped Classical in
/-- The items that answer a query are shown, in the order in which they stand. -/
theorem matching_of_rated (query : Option String) {least : Value} (hleast : least.IsAmount) :
    matching (queryValue query) least items = .ok ((items.filter fun e => Answers query least.amount e).map shown) := by
  have heach : ∀ e ∈ items, (do
      if ← (← e.2.itemD "confidence" (.float 0.0)).relate .lt least then return none
      if ← fits (queryValue query) e.1 e.2 then return some (← found e.1 e.2) else return none) =
        (.ok (if Answers query least.amount e then some (shown e) else none) : Except Fault _) := by
    intro e he
    have hrated := h e he
    have hconfidence : (confidence (.float 0.0) e.2).IsAmount := hrated.isAmount_confidence isAmount_zero
    rw [hrated.itemD_eq, hrated.fits_eq, hrated.found_eq]
    show (relate .lt (confidence (.float 0.0) e.2) least >>= _) = _
    rw [relate_lt_amounts hconfidence hleast]
    by_cases hlow : (confidence (.float 0.0) e.2).amount < least.amount
    · rw [if_neg fun hanswers => absurd hanswers.1 (not_le.2 hlow), decide_eq_true hlow]
      rfl
    · by_cases hmentions : Mentions query e
      · rw [if_pos ⟨not_lt.1 hlow, hmentions⟩, decide_eq_false hlow, decide_eq_true hmentions]
        rfl
      · rw [if_neg fun hanswers => hmentions hanswers.2, decide_eq_false hlow, decide_eq_false hmentions]
        rfl
  unfold matching
  exact mapM_filterMap_id heach

open scoped Classical in
theorem sorted_matching (query : Option String) {least : Value} (hleast : least.IsAmount) :
    (do Value.sortDescending rank (← matching (queryValue query) least items)) =
      .ok ((descending preference (items.filter fun e => Answers query least.amount e)).map shown) := by
  have hrank (e : String × Value) : rank (shown e) = .ok (.tuple [confidence (.float 1.0) e.2, uses e.2]) := by
    simp [rank, shown, Table.get?]
    rfl
  have hsorted : Value.sortDescending (fun e : String × Value => .ok (.tuple [confidence (.float 1.0) e.2, uses e.2]))
      (items.filter fun e => Answers query least.amount e) =
        .ok (descending preference (items.filter fun e => Answers query least.amount e)) := by
    refine sortDescending_of_ranks (fun e _ => rfl) fun e he e' he' => ?_
    have hone := h e (mem_of_mem_filter he)
    have hother := h e' (mem_of_mem_filter he')
    exact relate_lt_pairs (hone.isAmount_confidence isAmount_one) (hother.isAmount_confidence isAmount_one)
      hone.isAmount_uses hother.isAmount_uses
  rw [matching_of_rated h query hleast]
  show Value.sortDescending rank _ = _
  rw [sortDescending_map hrank, hsorted]
  rfl

end Search

/-- The first of a list in descending order, or all of it if the limit is not positive. -/
def upToLimit {α : Type} (limit : Int) (xs : List α) : List α := if 0 < limit then xs.take limit.toNat else xs

theorem bestMatches_of_sorted {query least : Value} {items : Table Value} {hits : List Value}
    (h : (do Value.sortDescending rank (← matching query least items)) = .ok hits) (limit : Int) :
    bestMatches query least (.int limit) items = .ok (.list (upToLimit limit hits)) := by
  have hlimit : (Value.int limit).relate .gt (.int 0) = .ok (decide (0 < limit)) := by
    simp [relate, toNumber?, Number.compare?, Relation.holds, Bool.beq_eq_decide_eq, compare_gt_iff_gt]
  have hsteps : bestMatches query least (.int limit) items =
      ((do Value.sortDescending rank (← matching query least items)) >>= fun hits => do
        if ← (Value.int limit).relate .gt (.int 0) then return .list (hits.take limit.toNat) else return .list hits) := by
    rw [bestMatches, bind_assoc]
    rfl
  rw [hsteps, h, hlimit, upToLimit]
  by_cases hpos : 0 < limit
  · rw [decide_eq_true hpos, if_pos hpos]
    rfl
  · rw [decide_eq_false hpos, if_neg hpos]
    rfl

theorem upToLimit_map {α β : Type} (f : α → β) (limit : Int) (xs : List α) :
    upToLimit limit (xs.map f) = (upToLimit limit xs).map f := by
  rw [upToLimit, upToLimit]
  split_ifs
  · exact map_take.symm
  · rfl

/-- A search looks at the items of its category; a category that is not there has none. -/
theorem perform_search_of_items {s : Store} {c : String} (hc : c ∈ categories) {items : Table Value}
    (hitems : (s.cache.get? c).getD (.dict []) = .dict items) (query least : Value) (limit : Int) (w : World) :
    (Store.search c query least (.int limit)).perform (s, w) = (bestMatches query least (.int limit) items, (s, w)) := by
  rw [Store.search, bind_of_ok (perform_checkCategory hc _), bind_self, Table.has]
  cases hcache : s.cache.get? c with
  | none =>
    rw [hcache, Option.getD_none] at hitems
    cases hitems
    have hnone : (do Value.sortDescending rank (← matching query least [])) = .ok [] := rfl
    rw [bestMatches_of_sorted hnone, upToLimit, take_nil, ite_self]
    rfl
  | some v =>
    rw [hcache, Option.getD_some] at hitems
    subst hitems
    rw [Option.isSome_some, Bool.not_true, if_neg Bool.false_ne_true, bind_of_ok (perform_category hcache w)]
    exact bind_lift rfl _ _

/-- Four templates: two of one rank, one that is used more, and one that was never used. -/
def templates : Table Value :=
  [("while loop", .dict [("value", .str "habang"), ("confidence", .int 1), ("usage_count", .int 2)]),
    ("branch", .dict [("value", .str "kung"), ("confidence", .int 1), ("usage_count", .int 7)]),
    ("FOR LOOP", .dict [("value", .str "para"), ("confidence", .int 1), ("usage_count", .int 2)]),
    ("range", .dict [("value", .str "a Loop"), ("confidence", .int 2)])]

theorem rated_templates : ∀ e ∈ templates, Rated e.2 := by
  simp only [templates, forall_mem_cons]
  refine ⟨⟨⟨_, _, rfl, rfl⟩, ?_, ?_⟩, ⟨⟨_, _, rfl, rfl⟩, ?_, ?_⟩, ⟨⟨_, _, rfl, rfl⟩, ?_, ?_⟩,
    ⟨⟨_, _, rfl, rfl⟩, ?_, nofun⟩, nofun⟩
  all_goals
    rintro v ⟨⟩
    exact isAmount_int _

end Memory

end GzLang
