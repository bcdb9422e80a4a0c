import GzLang.Memory.Store
import GzLang.Proofs.PlainDocument

/-!
# What a memory knows under its keys

An item of a memory is a document; what counts are five of its fields (`Entry`). An item shows an entry
if it has these fields (`Shows`), and a document shows a shelf of entries if its items do, one by one
(`Shown`). Storing, retrieving and removing change the entry in the way that `Entry.renewed`,
`Entry.used` and `Entry.removed` say, and whatever a memory answers depends on the entries only
(`bestMatches_eq`, `valuesFrom_eq`, `categoryStats_eq`).
-/

namespace GzLang

open Table

/-! ### The greater of two numbers -/

namespace Value

def higher (v w : Value) : Value := (v.greater w).toOption.getD v

theorem higher_cases (v w : Value) : v.higher w = v ∨ v.higher w = w := by
  unfold higher greater
  cases relate .gt w v with
  | error f => exact .inl rfl
  | ok b =>
    cases b
    · exact .inl rfl
    · exact .inr rfl

theorem greater_eq {v w : Value} {x y : EReal} (hv : v.amount? = some x) (hw : w.amount? = some y) :
    v.greater w = .ok (v.higher w) := by
  unfold higher greater
  rw [relate_of_amount? hw hv]
  rfl

theorem amount?_higher {v w : Value} {x y : EReal} (hv : v.amount? = some x) (hw : w.amount? = some y) :
    (v.higher w).amount? = some (max x y) := by
  have hgreater : v.greater w = .ok (if Relation.holds .gt (cmp y x) then w else v) := by
    unfold greater
    rw [relate_of_amount? hw hv]
    rfl
  rw [higher, hgreater]
  show (if Relation.holds .gt (cmp y x) then w else v).amount? = _
  rcases lt_or_ge x y with h | h
  · rw [(cmp_eq_gt_iff y x).2 h, max_eq_right h.le]
    exact hw
  · rw [if_neg, max_eq_left h]
    · exact hv
    · simp [Relation.holds, cmp_eq_gt_iff, not_lt.2 h]

end Value

open Value

namespace Memory

variable {b : Backend}

/-! ### Entries -/

structure Entry where
  value : Value
  confidence : Value
  uses : Nat
  notes : Table Value
  /-- When it was last used, unless the memory has lost it. -/
  lastUsed : Option String

def noteValue : Option (Table Value) → Value
  | none => .null
  | some es => .dict es

namespace Entry

def first (now : String) (value confidence : Value) (notes : Option (Table Value)) : Entry :=
  ⟨value, confidence, 1, notes.getD [], some now⟩

/-- The entry after a value was stored under its key again. -/
def renewed (e : Entry) (now : String) (value confidence : Value) (notes : Option (Table Value)) : Entry :=
  ⟨value, confidence.higher e.confidence, e.uses + 1, e.notes.merge (notes.getD []), some now⟩

def used (e : Entry) (now : String) : Entry := { e with uses := e.uses + 1, lastUsed := some now }

def removed (e : Entry) : Entry := { e with confidence := removedConfidence }

def item (e : Entry) : Value :=
  .dict ([("value", e.value), ("confidence", e.confidence), ("usage_count", .int e.uses),
    ("metadata", .dict e.notes)] ++ (e.lastUsed.map fun t => ("last_used", .str t)).toList)

end Entry

structure Fields (fs : Table Value) (e : Entry) : Prop where
  value : fs.get? "value" = some e.value
  confidence : fs.get? "confidence" = some e.confidence
  uses : fs.get? "usage_count" = some (.int e.uses)
  notes : fs.get? "metadata" = some (.dict e.notes)
  lastUsed : fs.get? "last_used" = e.lastUsed.map .str

/-- An item that can be saved and shows an entry. -/
structure Shows (item : Value) (e : Entry) : Prop where
  document : item.IsDocument
  fields : ∃ fs, item = .dict fs ∧ Fields fs e

def Shown (document : Value) (t : Table Entry) : Prop :=
  ∃ items, document = .dict items ∧ Table.Alongside Shows items t

theorem fields_item (e : Entry) : ∃ fs, e.item = .dict fs ∧ Fields fs e := by
  refine ⟨_, rfl, ?_⟩
  cases h : e.lastUsed with
  | none => constructor <;> simp [get?, h]
  | some t => constructor <;> simp [get?, h]

/-! ### What the answers depend on -/

def Entry.hit (e : Entry) (key : String) : Value :=
  .dict [("key", .str key), ("value", e.value), ("confidence", e.confidence), ("usage_count", .int e.uses),
    ("last_used", .str (e.lastUsed.getD "")), ("metadata", .dict e.notes)]

section Fields

variable {fs : Table Value} {e : Entry} (h : Fields fs e)
include h

theorem found_eq (key : String) : found key (.dict fs) = .ok (e.hit key) := by
  unfold found
  simp only [item, itemD, h.value, h.confidence, h.uses, h.notes, h.lastUsed, bind, Except.bind, Option.getD_some]
  cases hused : e.lastUsed <;> simp [Entry.hit, hused] <;> rfl

theorem item_value_eq : (Value.dict fs).item "value" = .ok e.value := by
  rw [item, h.value]

theorem itemD_confidence_eq (other : Value) : (Value.dict fs).itemD "confidence" other = .ok e.confidence := by
  rw [itemD, h.confidence, Option.getD_some]

theorem itemD_uses_eq (other : Value) : (Value.dict fs).itemD "usage_count" other = .ok (.int e.uses) := by
  rw [itemD, h.uses, Option.getD_some]

theorem itemD_notes_eq (other : Value) : (Value.dict fs).itemD "metadata" other = .ok (.dict e.notes) := by
  rw [itemD, h.notes, Option.getD_some]

end Fields

def plainItems (t : Table Entry) : Table Value := t.map fun e => (e.1, e.2.item)

section Shelf

variable {items : Table Value} {t : Table Entry} (h : Table.Alongside Shows items t)
include h

/-- What goes through the items one by one and looks at their fields only gives the same for the plainest
items. -/
theorem mapM_plainItems {α : Type} {f : String × Value → Except Fault α}
    (hf : ∀ key fs gs e, Fields fs e → Fields gs e → f (key, .dict fs) = f (key, .dict gs)) :
    items.mapM f = (plainItems t).mapM f := by
  induction h with
  | nil => rfl
  | @cons i e items t hie _ ih =>
    obtain ⟨hkey, hshows⟩ := hie
    obtain ⟨fs, hfs, hfields⟩ := hshows.fields
    obtain ⟨gs, hgs, hplain⟩ := fields_item e.2
    have hfirst : f i = f (e.1, e.2.item) := by
      rw [hgs, ← hf e.1 fs gs e.2 hfields hplain, ← hkey, ← hfs]
    rw [plainItems, List.map_cons, List.mapM_cons, List.mapM_cons, ih, hfirst]
    rfl

theorem matching_eq (query least : Value) : matching query least items = matching query least (plainItems t) := by
  unfold matching
  rw [mapM_plainItems h]
  intro key fs gs e hfs hgs
  simp only [itemD_confidence_eq hfs, itemD_confidence_eq hgs, found_eq hfs, found_eq hgs, fits,
    item_value_eq hfs, item_value_eq hgs]

theorem bestMatches_eq (query least limit : Value) : bestMatches query least limit items =
    bestMatches query least limit (plainItems t) := by
  rw [bestMatches, matching_eq h, bestMatches]

theorem valuesFrom_eq (least : Value) : valuesFrom least items = valuesFrom least (plainItems t) := by
  unfold valuesFrom
  rw [mapM_plainItems h]
  intro key fs gs e hfs hgs
  simp only [itemD_confidence_eq hfs, itemD_confidence_eq hgs, item_value_eq hfs, item_value_eq hgs]

theorem mapM_values_plainItems {α : Type} {f : Value → Except Fault α}
    (hf : ∀ fs gs e, Fields fs e → Fields gs e → f (.dict fs) = f (.dict gs)) :
    (values items).mapM f = (values (plainItems t)).mapM f := by
  rw [values, values, List.mapM_map, List.mapM_map]
  exact mapM_plainItems h fun _ => hf

theorem categoryStats_eq : categoryStats (.dict items) = categoryStats (.dict (plainItems t)) := by
  have hlength : items.length = (plainItems t).length := by
    rw [plainItems, List.length_map]
    exact List.Forall₂.length_eq h
  unfold categoryStats
  simp only [size, table, hlength, bind, Except.bind, Functor.map, Except.map]
  rw [mapM_values_plainItems h, mapM_values_plainItems h, mapM_values_plainItems h]
  · intro fs gs e hfs hgs
    rw [itemD_confidence_eq hfs, itemD_confidence_eq hgs]
  · intro fs gs e hfs hgs
    rw [itemD_uses_eq hfs, itemD_uses_eq hgs]
  · intro fs gs e hfs hgs
    rw [itemD_confidence_eq hfs, itemD_confidence_eq hgs]

end Shelf

/-! ### What is done to the items -/

/-- The first count that a backend cannot save. -/
def Backend.countLimit : Backend → Nat
  | .files => Value.countLimit
  | .database => 2 ^ 63

theorem countLimit_database_le (b : Backend) : Backend.database.countLimit ≤ b.countLimit := by
  cases b with
  | files =>
    have hdigits : 63 ≤ Text.maxLiteralDigits := by decide
    have hten : 2 ^ 63 ≤ 10 ^ 63 := Nat.pow_le_pow_left (by norm_num) 63
    exact hten.trans (Nat.pow_le_pow_right (show 0 < 10 by norm_num) hdigits)
  | database => exact le_rfl

theorem isDocument_count {n : Nat} (h : n < b.countLimit) : (Value.int n).IsDocument := by
  cases b with
  | files => exact Value.isDocument_count h
  | database => exact Value.isDocument_count (h.trans_le (countLimit_database_le .files))

theorem noteValue_isTrue (notes : Option (Table Value)) :
    (if (noteValue notes).isTrue then noteValue notes else .dict []) = .dict (notes.getD []) := by
  cases notes with
  | none => rfl
  | some es => cases es <;> rfl

theorem isDocument_notes {notes : Option (Table Value)} (h : ∀ es ∈ notes, (Value.dict es).IsDocument) :
    (Value.dict (notes.getD [])).IsDocument := by
  cases notes with
  | none => exact isDocument_dict_iff.2 ⟨List.nodup_nil, fun e he => by cases he⟩
  | some es => exact h es rfl

variable {e : Entry}

section Steps

variable {now : String} {value confidence : Value} {notes : Option (Table Value)}
  (hvalue : value.IsDocument) (hconfidence : confidence.IsDocument)
  (hnotes : ∀ es ∈ notes, (Value.dict es).IsDocument)

include hvalue hconfidence hnotes in
theorem shows_newItem : Shows (newItem now value confidence (noteValue notes)) (.first now value confidence notes) := by
  have hone : (Value.int (1 : Nat)).IsDocument := ⟨rfl, rfl⟩
  rw [newItem, noteValue_isTrue]
  refine ⟨isDocument_dict_iff.2 ⟨by simp [keys], ?_⟩, _, rfl, ?_⟩
  · simp only [List.forall_mem_cons]
    exact ⟨hvalue, hconfidence, hone, isDocument_str _, isDocument_str _,
      isDocument_notes hnotes, fun _ he => by cases he⟩
  · constructor <;> simp [get?, Entry.first]

include hvalue hconfidence hnotes in
theorem renewItem_eq {item : Value} (h : Shows item e) {x y : EReal}
    (hx : confidence.amount? = some x) (hy : e.confidence.amount? = some y) (huses : e.uses + 1 < b.countLimit) :
    ∃ item', renewItem now item value confidence (noteValue notes) = .ok item' ∧
      Shows item' (e.renewed now value confidence notes) := by
  obtain ⟨hdocument, fs, rfl, hfs⟩ := h
  refine ⟨.dict [("value", value), ("confidence", confidence.higher e.confidence),
    ("usage_count", .int (e.uses + 1 : Nat)), ("last_used", .str now),
    ("metadata", .dict (e.notes.merge (notes.getD [])))], ?_, ?_⟩
  · unfold renewItem
    simp only [itemD_confidence_eq hfs, itemD_uses_eq hfs, itemD_notes_eq hfs, bind, Except.bind,
      greater_eq hx hy, next, add, toNumber?, arithmetic]
    cases notes with
    | none => rfl
    | some es => cases es <;> rfl
  · have hkept := hdocument.get? hfs.confidence
    have hhigher : (confidence.higher e.confidence).IsDocument := by
      rcases higher_cases confidence e.confidence with heq | heq <;> rwa [heq]
    have hmerged := (hdocument.get? hfs.notes).merge (isDocument_notes hnotes)
    refine ⟨isDocument_dict_iff.2 ⟨by simp [keys], ?_⟩, _, rfl, ?_⟩
    · simp only [List.forall_mem_cons]
      exact ⟨hvalue, hhigher, isDocument_count huses, isDocument_str _, hmerged, fun _ he => by cases he⟩
    · constructor <;> simp [get?, Entry.renewed]

end Steps

theorem exists_used {item : Value} (h : Shows item e) (now : String) (huses : e.uses + 1 < b.countLimit) :
    ∃ counted item', item.withItem "usage_count" (.int (e.uses + 1 : Nat)) = .ok counted ∧
      counted.withItem "last_used" (.str now) = .ok item' ∧ item'.item "value" = .ok e.value ∧
      Shows item' (e.used now) := by
  obtain ⟨hdocument, fs, rfl, hfs⟩ := h
  have hfields : Fields (put (put fs "usage_count" (.int (e.uses + 1 : Nat))) "last_used" (.str now)) (e.used now) := by
    constructor <;> simp [get?_put_of_ne, Entry.used, hfs.value, hfs.confidence, hfs.notes]
  refine ⟨_, _, rfl, rfl, (item_value_eq hfields).trans rfl, ?_, _, rfl, hfields⟩
  exact (hdocument.put _ (isDocument_count huses)).put _ (isDocument_str now)

theorem exists_removed {item : Value} (h : Shows item e) :
    ∃ item', item.withItem "confidence" removedConfidence = .ok item' ∧ Shows item' e.removed := by
  obtain ⟨hdocument, fs, rfl, hfs⟩ := h
  refine ⟨_, rfl, hdocument.put _ ⟨rfl, rfl⟩, _, rfl, ?_⟩
  constructor <;> simp [get?_put_of_ne, Entry.removed, hfs.value, hfs.uses, hfs.notes, hfs.lastUsed]

end Memory

end GzLang
