import GzLang.Text.Digit
import GzLang.Value.Display
import GzLang.Value.Document
import GzLang.Proofs.Rounding
import GzLang.Proofs.Tables

/-!
# Plain documents

Some values have no written form: writing stops at the first fault (`fault?`), an object or an
integer with too many digits. Others have the written form of another value, their plain form
(`normal`): a tuple is written as a list, a statistic as a double, and of two members with one name
only the later one can be read again. A plain document (`IsDocument`) has neither problem.
-/

namespace GzLang

open List Table

namespace Value

variable {es : Table Value}
variable {k : String} {acc : Table Value}

mutual

def fault? : Value → Option Fault
  | .int i =>
    match intText i with
    | .ok _ => none
    | .error e => some e
  | .object name => some (.wrongKind ("Object of type " ++ name ++ " is not JSON serializable"))
  | .list xs => faultOfItems? xs
  | .tuple xs => faultOfItems? xs
  | .dict es => faultOfMembers? es
  | .null => none
  | .bool _ => none
  | .float _ => none
  | .statistic _ => none
  | .str _ => none

def faultOfItems? : List Value → Option Fault
  | [] => none
  | x :: xs => (fault? x).or (faultOfItems? xs)

def faultOfMembers? : List (String × Value) → Option Fault
  | [] => none
  | (_, v) :: es => (fault? v).or (faultOfMembers? es)

end

mutual

def normal : Value → Value
  | .list xs => .list (normalItems xs)
  | .tuple xs => .list (normalItems xs)
  | .dict es => .dict (normalMembers [] es)
  | .statistic x => .float x
  | .null => .null
  | .bool b => .bool b
  | .int i => .int i
  | .float x => .float x
  | .str s => .str s
  | .object name => .object name

def normalItems : List Value → List Value
  | [] => []
  | x :: xs => normal x :: normalItems xs

def normalMembers (acc : Table Value) : List (String × Value) → Table Value
  | [] => acc
  | (k, v) :: es => normalMembers (acc.put k (normal v)) es

end

/-- A value that documents hold as it is: it has a written form and is its own plain form. -/
structure IsDocument (v : Value) : Prop where
  normal : v.normal = v
  whole : v.fault? = none

theorem normalItems_eq (xs : List Value) : normalItems xs = xs.map normal := by
  induction xs with
  | nil => rfl
  | cons x xs ih => rw [normalItems, ih, map_cons]

theorem faultOfItems?_eq_none (xs : List Value) : faultOfItems? xs = none ↔ ∀ x ∈ xs, x.fault? = none := by
  induction xs with
  | nil => simp [faultOfItems?]
  | cons x xs ih => rw [faultOfItems?, Option.or_eq_none_iff, ih, forall_mem_cons]

theorem faultOfMembers?_eq_none (es : List (String × Value)) :
    faultOfMembers? es = none ↔ ∀ e ∈ es, e.2.fault? = none := by
  induction es with
  | nil => simp [faultOfMembers?]
  | cons e es ih => rw [faultOfMembers?, Option.or_eq_none_iff, ih, forall_mem_cons]

mutual

theorem fault?_normal : ∀ {v : Value}, v.fault? = none → v.normal.fault? = none
  | .list xs, h => by
    rw [fault?] at h
    rw [normal, fault?]
    exact faultOfItems?_normal h
  | .tuple xs, h => by
    rw [fault?] at h
    rw [normal, fault?]
    exact faultOfItems?_normal h
  | .dict es, h => by
    rw [fault?] at h
    rw [normal, fault?]
    exact faultOfMembers?_normal rfl h
  | .null, _ => rfl
  | .bool _, _ => rfl
  | .int _, h => h
  | .float _, _ => rfl
  | .statistic _, _ => rfl
  | .str _, _ => rfl
  | .object _, h => h

theorem faultOfItems?_normal : ∀ {xs : List Value}, faultOfItems? xs = none → faultOfItems? (normalItems xs) = none
  | [], _ => rfl
  | x :: xs, h => by
    rw [faultOfItems?, Option.or_eq_none_iff] at h
    rw [normalItems, faultOfItems?, Option.or_eq_none_iff]
    exact ⟨fault?_normal h.1, faultOfItems?_normal h.2⟩

theorem faultOfMembers?_normal : ∀ {acc : Table Value} {es : List (String × Value)},
    faultOfMembers? acc = none → faultOfMembers? es = none → faultOfMembers? (normalMembers acc es) = none
  | acc, [], hacc, _ => hacc
  | acc, (k, v) :: es, hacc, h => by
    rw [faultOfMembers?, Option.or_eq_none_iff] at h
    have hput : faultOfMembers? (acc.put k v.normal) = none := by
      rw [faultOfMembers?_eq_none] at hacc ⊢
      intro e he
      rcases mem_put he with he | rfl
      · exact hacc e he
      · exact fault?_normal h.1
    rw [normalMembers]
    exact faultOfMembers?_normal hput h.2

end

theorem nodup_normalMembers (h : acc.keys.Nodup) (es : List (String × Value)) : (normalMembers acc es).keys.Nodup := by
  induction es generalizing acc with
  | nil => exact h
  | cons e es ih => exact ih (nodup_keys_put h _ _)

theorem normalMembers_eq {es : List (String × Value)} (h : (acc.keys ++ Table.keys es).Nodup) :
    normalMembers acc es = acc ++ es.map fun e => (e.1, e.2.normal) := by
  induction es generalizing acc with
  | nil => simp [normalMembers]
  | cons e es ih =>
    have hnot : e.1 ∉ acc.keys := by
      intro hmem
      exact (nodup_append.1 h).2.2 _ hmem _ mem_cons_self rfl
    have hnext : ((acc ++ [(e.1, e.2.normal)] : Table Value).keys ++ Table.keys es).Nodup := by
      simpa [Table.keys] using h
    rw [normalMembers, Table.put_of_not_mem hnot, ih hnext, append_assoc]
    rfl

/-- A table is a plain document if its names are different and its values are plain documents. -/
theorem isDocument_dict_iff : (Value.dict es).IsDocument ↔ es.keys.Nodup ∧ ∀ e ∈ es, e.2.IsDocument := by
  constructor
  · rintro ⟨hnormal, hwhole⟩
    have hes : normalMembers [] es = es := by
      rw [normal] at hnormal
      exact Value.dict.inj hnormal
    have hnodup : es.keys.Nodup := by
      rw [← hes]
      exact nodup_normalMembers (show (keys ([] : Table Value)).Nodup from nodup_nil) es
    have hmap := normalMembers_eq (show (keys ([] : Table Value) ++ es.keys).Nodup from hnodup)
    rw [hes, nil_append] at hmap
    refine ⟨hnodup, fun e he => ⟨?_, ?_⟩⟩
    · have hself : es.map id = es.map fun e => (e.1, e.2.normal) := by rw [map_id, ← hmap]
      exact (congrArg Prod.snd (map_inj_left.1 hself e he)).symm
    · rw [fault?] at hwhole
      exact (faultOfMembers?_eq_none es).1 hwhole e he
  · rintro ⟨hnodup, hmembers⟩
    refine ⟨?_, ?_⟩
    · have hself : (es.map fun e => (e.1, e.2.normal)) = es.map id :=
        map_congr_left fun e he => by rw [(hmembers e he).normal]; rfl
      rw [normal, normalMembers_eq (show (keys ([] : Table Value) ++ es.keys).Nodup from hnodup),
        nil_append, hself, map_id]
    · rw [fault?, faultOfMembers?_eq_none]
      exact fun e he => (hmembers e he).whole

theorem isDocument_str (s : String) : (Value.str s).IsDocument := ⟨rfl, rfl⟩

theorem IsDocument.get? (h : (Value.dict es).IsDocument) {v : Value} (hv : es.get? k = some v) : v.IsDocument :=
  (isDocument_dict_iff.1 h).2 (k, v) (mem_of_get?_eq hv)

theorem item_map {α : Type} (f : α → Value) {t : Table α} {x : α} (h : t.get? k = some x) :
    (Value.dict (t.map fun e => (e.1, f e.2))).item k = .ok (f x) := by
  rw [item_dict, get?_map, h]
  rfl

theorem changeItem_dict {f : Value → Except Fault Value} {v v' : Value} (hv : es.get? k = some v) (h : f v = .ok v') :
    (Value.dict es).changeItem k f = .ok (.dict (es.put k v')) := by
  rw [changeItem, item_dict, hv]
  show (f v >>= fun x => (Value.dict es).withItem k x) = _
  rw [h]
  rfl

theorem IsDocument.put (h : (Value.dict es).IsDocument) (k : String) {v : Value}
    (hv : v.IsDocument) : (Value.dict (es.put k v)).IsDocument := by
  rw [isDocument_dict_iff] at h ⊢
  refine ⟨nodup_keys_put h.1 k v, fun e he => ?_⟩
  rcases mem_put he with he | rfl
  · exact h.2 e he
  · exact hv

theorem IsDocument.merge {es fs : Table Value} (he : (Value.dict es).IsDocument)
    (hf : (Value.dict fs).IsDocument) : (Value.dict (es.merge fs)).IsDocument := by
  have hmembers := (isDocument_dict_iff.1 hf).2
  clear hf
  induction fs generalizing es with
  | nil => exact he
  | cons f fs ih =>
    rw [forall_mem_cons] at hmembers
    exact ih (he.put f.1 hmembers.1) hmembers.2

theorem isDocument_int {i : Int} (h : Decimal.digitCount i.natAbs ≤ 4300) : (Value.int i).IsDocument := by
  refine ⟨rfl, ?_⟩
  have hlength : (toString i.natAbs).length ≤ 4300 := by
    rw [Nat.toString_eq_ofList_toDigits, String.length_ofList]
    exact h
  simp only [fault?, intText, gt_iff_lt, not_lt.2 hlength, if_false]

/-- The first count that is too long to be written. -/
def countLimit : Nat := 10 ^ Text.maxLiteralDigits

theorem lt_countLimit {n : Nat} (h : n < 10 ^ 9) : n < countLimit :=
  h.trans_le (Nat.pow_le_pow_right (by omega) (by decide))

theorem isDocument_count {n : Nat} (h : n < countLimit) : (Value.int n).IsDocument := by
  have hpos : 0 < Text.maxLiteralDigits := by decide
  have hdigits : Decimal.digitCount n ≤ Text.maxLiteralDigits := (Decimal.digitCount_le_iff hpos).2 h
  exact isDocument_int hdigits

/-! ### Lists of texts -/

theorem pushed_texts (ss : List String) (s : String) : (texts ss).pushed (.str s) = .ok (texts (ss ++ [s])) := by
  rw [texts, texts, map_append]
  rfl

theorem size_texts (ss : List String) : (texts ss).size = .ok ss.length := by
  rw [texts, size, length_map]

theorem isDocument_list {xs : List Value} (h : ∀ x ∈ xs, x.IsDocument) : (Value.list xs).IsDocument where
  normal := by
    have hself : xs.map normal = xs.map id := map_congr_left fun x hx => (h x hx).normal
    rw [normal, normalItems_eq, hself, map_id]
  whole := by
    rw [fault?, faultOfItems?_eq_none]
    exact fun x hx => (h x hx).whole

theorem isDocument_texts (ss : List String) : (texts ss).IsDocument := by
  refine isDocument_list fun x hx => ?_
  obtain ⟨s, -, rfl⟩ := mem_map.1 hx
  exact isDocument_str s

end Value

end GzLang
