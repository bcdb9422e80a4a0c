import GzLang.Collective.Update
import GzLang.Proofs.PlainDocument
import GzLang.Proofs.World

/-!
# What the collective memory holds

Whatever is done with a collective memory, its document is that of a ledger (`Ledger.memory`): learnings
with how often and when they were seen, the number of new ones since the last push, and the pushes. A
ledger that can be written whole is found again in its plain form (`normal_memory`). No learning is ever
confident enough for a table of rules (`select_items`).
-/

namespace GzLang.Collective

open GzLang.Action List Table Value

structure Learning where
  kind : Value
  data : Value
  frequency : Nat
  created : Float
  lastSeen : Float

def Learning.item (e : Learning) : Value :=
  .dict [("type", e.kind), ("data", e.data), ("frequency", .int e.frequency), ("confidence", .float 0.5),
    ("created", .float e.created), ("last_seen", .float e.lastSeen)]

def Learning.again (e : Learning) (now : Float) : Learning :=
  { e with frequency := e.frequency + 1, lastSeen := now }

structure Ledger where
  lastPush : Option Float := none
  learnings : Table Learning := []
  /-- The number of new learnings since the last push. -/
  fresh : Nat := 0
  /-- The time of each push, with the number of learnings added until then. -/
  history : List (Float × Nat) := []

namespace Ledger

def pushTime : Option Float → Value
  | none => .int 0
  | some t => .float t

def pushItem (p : Float × Nat) : Value :=
  .dict [("timestamp", .float p.1), ("improvements", .int p.2), ("success", .bool true)]

def items (l : Ledger) : Table Value := l.learnings.map fun e => (e.1, e.2.item)

def memory (l : Ledger) : Table Value :=
  [("last_update", pushTime l.lastPush), ("collective_learnings", .dict l.items),
    ("improvement_count", .int l.fresh), ("update_history", .list (l.history.map pushItem))]

/-- A learning that is known is seen again. -/
def see (l : Ledger) (id : String) (now : Float) : Ledger :=
  match l.learnings.get? id with
  | some e => { l with learnings := l.learnings.put id (e.again now) }
  | none => l

def know (l : Ledger) (id : String) (kind data : Value) (now : Float) : Ledger :=
  { l with learnings := l.learnings.put id ⟨kind, data, 1, now, now⟩, fresh := l.fresh + 1 }

def push (l : Ledger) (now : Float) (improvements : Nat) : Ledger :=
  { l with lastPush := some now, fresh := 0, history := l.history ++ [(now, improvements)] }

end Ledger

/-! ### Single steps -/

section

variable (v : Value) (l : Ledger) (k : Counters) (w : World)

theorem perform_putPart (c : Collective) (name : String) (x : Value) :
    (putPart name x).perform (c, w) = (.ok (), ({ c with memory := c.memory.put name x }, w)) := rfl

theorem perform_learnings :
    learnings.perform (⟨v, l.memory, k⟩, w) = (.ok (.dict l.items), (⟨v, l.memory, k⟩, w)) := rfl

variable {l}

theorem perform_changeLearning {id : String} {f : Value → Except Fault Value} {e e' : Learning}
    (he : l.learnings.get? id = some e) (hf : f e.item = .ok e'.item) :
    (changeLearning id f).perform (⟨v, l.memory, k⟩, w) =
      (.ok (), (⟨v, { l with learnings := l.learnings.put id e' }.memory, k⟩, w)) := by
  have hitem : get? l.items id = some e.item := by rw [Ledger.items, get?_map, he]; rfl
  have hchange := changeItem_dict hitem hf
  have hlearnings := perform_learnings v l k w
  rw [changeLearning, bind_of_ok hlearnings]
  show (Action.ofExcept ((Value.dict l.items).changeItem id f) >>= fun x =>
    putPart "collective_learnings" x).perform _ = _
  rw [hchange, ofExcept_ok, pure_bind, perform_putPart, Ledger.items, put_map]
  rfl

/-- Seeing a learning again changes what is known of it, and nothing else. -/
theorem perform_seeAgain {id : String} {e : Learning} (he : l.learnings.get? id = some e) :
    (seeAgain id).perform (⟨v, l.memory, k⟩, w) = (.ok (), (⟨v, (l.see id w.clock).memory, k⟩, w)) := by
  have hcount : e.item.changeItem "frequency" next = .ok (Learning.item { e with frequency := e.frequency + 1 }) := rfl
  have htime : (Learning.item { e with frequency := e.frequency + 1 }).withItem "last_seen"
      (.float w.clock) = .ok (e.again w.clock).item := rfl
  rw [seeAgain, bind_of_ok (perform_changeLearning v k w he hcount)]
  generalize hl₁ : { l with learnings := l.learnings.put id { e with frequency := e.frequency + 1 } } = l₁
  have he₁ : l₁.learnings.get? id = some { e with frequency := e.frequency + 1 } := by
    rw [← hl₁]
    exact get?_put_self ..
  show (changeLearning id fun x => x.withItem "last_seen" (.float w.clock)).perform (⟨v, l₁.memory, k⟩, w) = _
  rw [perform_changeLearning v k w he₁ htime, ← hl₁, Ledger.see, he]
  dsimp only
  rw [put_put]

end

/-! ### Plain forms -/

def Learning.reread (e : Learning) : Learning := { e with kind := e.kind.normal, data := e.data.normal }

def Ledger.reread (l : Ledger) : Ledger :=
  { l with learnings := l.learnings.map fun e => (e.1, e.2.reread) }

theorem Learning.normal_item (e : Learning) : e.item.normal = e.reread.item := by
  have hkeys : (keys ([] : Table Value) ++
      ["type", "data", "frequency", "confidence", "created", "last_seen"]).Nodup := by decide
  rw [item, normal, normalMembers_eq hkeys]
  rfl

theorem Ledger.normal_memory {l : Ledger} (h : l.learnings.keys.Nodup) :
    (Value.dict l.memory).normal = .dict l.reread.memory := by
  have hitems : (Value.dict l.items).normal = .dict l.reread.items := by
    have hkeys : (keys ([] : Table Value) ++ keys l.items).Nodup := by
      rw [items, keys_map]
      exact h
    rw [normal, normalMembers_eq hkeys, items, items, reread, nil_append, map_map, map_map]
    refine congrArg Value.dict (map_congr_left fun e _ => ?_)
    exact congrArg (Prod.mk e.1) e.2.normal_item
  have hhistory : (Value.list (l.history.map pushItem)).normal = .list (l.history.map pushItem) := by
    rw [normal, normalItems_eq, map_map]
    exact congrArg Value.list (map_congr_left fun p _ => rfl)
  have hpush : (pushTime l.lastPush).normal = pushTime l.lastPush := by cases l.lastPush <;> rfl
  have hkeys : (keys ([] : Table Value) ++ keys l.memory).Nodup := by
    show ["last_update", "collective_learnings", "improvement_count", "update_history"].Nodup
    decide
  rw [normal, normalMembers_eq hkeys, memory, memory]
  simp only [nil_append, map_cons, map_nil, hitems, hhistory, hpush]
  rfl

/-- A ledger that can be written: its values have a written form and its numbers are at most `n`. -/
structure Ledger.Bounded (n : Nat) (l : Ledger) : Prop where
  fresh : l.fresh ≤ n
  history : ∀ p ∈ l.history, p.2 ≤ n
  learnings : ∀ e ∈ l.learnings, e.2.kind.fault? = none ∧ e.2.data.fault? = none ∧ e.2.frequency ≤ n

namespace Ledger.Bounded

variable {m n : Nat} {l : Ledger}

theorem mono (h : l.Bounded m) (hmn : m ≤ n) : l.Bounded n where
  fresh := h.fresh.trans hmn
  history p hp := (h.history p hp).trans hmn
  learnings e he := ⟨(h.learnings e he).1, (h.learnings e he).2.1, (h.learnings e he).2.2.trans hmn⟩

theorem empty (n : Nat) : ({} : Ledger).Bounded n :=
  ⟨Nat.zero_le n, fun _ hp => absurd hp not_mem_nil, fun _ he => absurd he not_mem_nil⟩

theorem know (h : l.Bounded n) (id : String) {kind data : Value} (hkind : kind.fault? = none)
    (hdata : data.fault? = none) (now : Float) : (l.know id kind data now).Bounded (n + 1) where
  fresh := Nat.succ_le_succ h.fresh
  history := (h.mono (Nat.le_succ n)).history
  learnings e he := by
    rcases mem_put he with he | rfl
    · exact (h.mono (Nat.le_succ n)).learnings e he
    · exact ⟨hkind, hdata, Nat.succ_le_succ (Nat.zero_le n)⟩

theorem see (h : l.Bounded n) (id : String) (now : Float) : (l.see id now).Bounded (n + 1) := by
  rw [Ledger.see]
  cases hget : l.learnings.get? id with
  | none => exact h.mono (Nat.le_succ n)
  | some e =>
    have hmono := h.mono (Nat.le_succ n)
    refine ⟨hmono.fresh, hmono.history, fun e' he' => ?_⟩
    rcases mem_put he' with he' | rfl
    · exact hmono.learnings e' he'
    · obtain ⟨hkind, hdata, hfrequency⟩ := h.learnings _ (mem_of_get?_eq hget)
      exact ⟨hkind, hdata, Nat.succ_le_succ hfrequency⟩

theorem push (h : l.Bounded n) (now : Float) {improvements : Nat} (hle : improvements ≤ n) :
    (l.push now improvements).Bounded n where
  fresh := Nat.zero_le n
  history p hp := by
    rcases mem_append.1 hp with hp | hp
    · exact h.history p hp
    · rw [mem_singleton.1 hp]
      exact hle
  learnings := h.learnings

theorem reread (h : l.Bounded n) : l.reread.Bounded n where
  fresh := h.fresh
  history := h.history
  learnings e he := by
    obtain ⟨e, hmem, rfl⟩ := mem_map.1 he
    obtain ⟨hkind, hdata, hfrequency⟩ := h.learnings e hmem
    exact ⟨fault?_normal hkind, fault?_normal hdata, hfrequency⟩

end Ledger.Bounded

theorem Ledger.Bounded.fault? {n : Nat} {l : Ledger} (h : l.Bounded n) (hn : n < Value.countLimit) :
    (Value.dict l.memory).fault? = none := by
  have hcount {m : Nat} (hm : m ≤ n) : (Value.int m).fault? = none :=
    (Value.isDocument_count (Nat.lt_of_le_of_lt hm hn)).whole
  have hitems : (Value.dict l.items).fault? = none := by
    rw [Value.fault?, Value.faultOfMembers?_eq_none]
    intro e he
    obtain ⟨e, hmem, rfl⟩ := mem_map.1 he
    obtain ⟨hkind, hdata, hfrequency⟩ := h.learnings e hmem
    show e.2.item.fault? = none
    rw [Learning.item, Value.fault?, Value.faultOfMembers?_eq_none]
    simp only [forall_mem_cons, hkind, hdata, hcount hfrequency, true_and]
    exact ⟨rfl, rfl, rfl, fun e he => absurd he not_mem_nil⟩
  have hhistory : (Value.list (l.history.map pushItem)).fault? = none := by
    rw [Value.fault?, Value.faultOfItems?_eq_none]
    intro x hx
    obtain ⟨p, hp, rfl⟩ := mem_map.1 hx
    rw [pushItem, Value.fault?, Value.faultOfMembers?_eq_none]
    simp only [forall_mem_cons, hcount (h.history p hp), true_and]
    exact ⟨rfl, rfl, fun e he => absurd he not_mem_nil⟩
  have hpush : (pushTime l.lastPush).fault? = none := by
    cases l.lastPush with
    | none => exact hcount (Nat.zero_le n)
    | some t => rfl
  rw [Value.fault?, Value.faultOfMembers?_eq_none, memory]
  simp only [forall_mem_cons, hpush, hitems, hcount h.fresh, hhistory, true_and]
  exact fun e he => absurd he not_mem_nil

/-! ### Rules -/

theorem filterM_eq_nil {α : Type} {f : α → Except Fault Bool} {xs : List α}
    (h : ∀ x ∈ xs, f x = .ok false) : xs.filterM f = .ok [] := by
  have haux (acc : List α) : xs.filterAuxM f acc = .ok acc := by
    induction xs generalizing acc with
    | nil => rfl
    | cons x xs ih =>
      rw [forall_mem_cons] at h
      rw [filterAuxM, h.1]
      exact ih h.2 acc
  rw [filterM, haux]
  rfl

theorem RuleTable.select_items {t : RuleTable} (ht : t ∈ ruleTables) (l : Ledger) :
    t.select (.dict l.items) = .ok [] := by
  have hleast : (Value.float 0.5).relate .gt (.float t.least) = .ok false := by
    simp only [ruleTables, mem_cons, not_mem_nil, or_false] at ht
    rcases ht with rfl | rfl | rfl <;> rfl
  refine filterM_eq_nil fun x hx => ?_
  obtain ⟨p, hp, rfl⟩ := mem_map.1 hx
  obtain ⟨e, -, rfl⟩ := mem_map.1 hp
  show (if e.2.kind.equal (.str t.kind) then (Value.float 0.5).relate .gt (.float t.least)
    else .ok false) = _
  rw [hleast, ite_self]

end GzLang.Collective
