import Mathlib
import GzLang.Table

/-!
# Tables with different names

Putting keeps the names of a table different, and a table of different names is what its list of entries
makes (`ofList_eq`). Looking up and putting go through a change of all values (`get?_map`, `put_map`). Two
tables stand alongside each other (`Alongside`) if they have the same names in
the same order and related values; they do so after every pair of puts.
-/

namespace GzLang.Table

open List

variable {α β : Type}

variable {t : Table α} {k : String}
variable {v : α} {es : List (String × α)} {e : String × α}

theorem nodup_keys_put (h : t.keys.Nodup) (k : String) (v : α) : (t.put k v).keys.Nodup := by
  rw [keys_put]
  split
  · exact h
  · rw [nodup_append_comm]
    simp_all

theorem put_of_not_mem (h : k ∉ t.keys) (v : α) : t.put k v = t ++ [(k, v)] := by
  induction t with
  | nil => rfl
  | cons e t ih =>
    simp only [keys, map_cons, mem_cons, not_or] at h
    rw [put, if_neg (Ne.symm h.1), ih h.2, cons_append]

theorem has_iff_mem_keys (t : Table α) (k : String) : t.has k ↔ k ∈ t.keys := by
  induction t with
  | nil => simp [has, keys]
  | cons e t ih =>
    by_cases h : e.1 = k
    · simp [has, get?, keys, h]
    · rw [has, get?, if_neg h]
      simpa [keys, Ne.symm h, has] using ih

theorem mem_of_get?_eq (h : t.get? k = some v) : (k, v) ∈ t := by
  induction t with
  | nil => cases h
  | cons e t ih =>
    by_cases he : e.1 = k
    · rw [get?, if_pos he] at h
      cases h
      rw [← he]
      exact mem_cons_self
    · rw [get?, if_neg he] at h
      exact mem_cons_of_mem e (ih h)

theorem get?_of_mem (h : t.keys.Nodup) (hmem : (k, v) ∈ t) : t.get? k = some v := by
  induction t with
  | nil => cases hmem
  | cons e t ih =>
    rw [keys, map_cons, nodup_cons] at h
    rcases mem_cons.1 hmem with rfl | hmem
    · simp [get?]
    · have hne : e.1 ≠ k := fun he => h.1 (he ▸ mem_map_of_mem (f := Prod.fst) hmem)
      rw [get?, if_neg hne]
      exact ih h.2 hmem

theorem mem_put (h : e ∈ t.put k v) : e ∈ t ∨ e = (k, v) := by
  induction t with
  | nil => simpa [put] using h
  | cons f t ih =>
    rw [put] at h
    split at h
    · rcases mem_cons.1 h with rfl | h
      · exact .inr rfl
      · exact .inl (mem_cons_of_mem f h)
    · rcases mem_cons.1 h with rfl | h
      · exact .inl mem_cons_self
      · exact (ih h).imp (mem_cons_of_mem f) id

theorem put_self (h : t.get? k = some v) : t.put k v = t := by
  induction t with
  | nil => cases h
  | cons e t ih =>
    rw [get?] at h
    rw [put]
    split at h
    · rename_i he
      rw [if_pos he, ← Option.some.inj h, ← he]
    · rename_i he
      rw [if_neg he, ih h]

theorem mem_keys_put {k j : String} : j ∈ (t.put k v).keys ↔ j ∈ t.keys ∨ j = k := by
  rw [keys_put]
  split
  · rename_i hk
    exact ⟨.inl, fun h => h.elim id fun hj => hj ▸ hk⟩
  · rw [mem_append, mem_singleton]

theorem merge_eq (h : (t.keys ++ keys es).Nodup) : merge t es = t ++ es := by
  induction es generalizing t with
  | nil => simp [merge]
  | cons e es ih =>
    have hnot : e.1 ∉ t.keys := fun hmem => (nodup_append.1 h).2.2 _ hmem _ mem_cons_self rfl
    have hnext : ((t ++ [(e.1, e.2)] : Table α).keys ++ keys es).Nodup := by simpa [keys] using h
    show merge (t.put e.1 e.2) es = t ++ e :: es
    rw [put_of_not_mem hnot, ih hnext, append_assoc]
    rfl

theorem ofList_eq (h : (keys es).Nodup) : ofList es = es := by
  rw [ofList, merge_eq (by simpa [keys] using h), nil_append]

/-! ### Tables with all values changed -/

theorem get?_map (f : α → β) (t : Table α) (k : String) : get? (t.map fun e => (e.1, f e.2)) k = (t.get? k).map f := by
  induction t with
  | nil => rfl
  | cons e t ih =>
    rw [map_cons, get?, get?, ih]
    split <;> rfl

theorem has_map (f : α → β) (t : Table α) (k : String) : has (t.map fun e => (e.1, f e.2)) k = t.has k := by
  rw [has, get?_map, Option.isSome_map, has]

theorem put_map (f : α → β) (t : Table α) (k : String) (v : α) :
    put (t.map fun e => (e.1, f e.2)) k (f v) = (t.put k v).map fun e => (e.1, f e.2) := by
  induction t with
  | nil => rfl
  | cons e t ih =>
    rw [map_cons, put, put, ih]
    split <;> rfl

theorem keys_map (f : α → β) (t : Table α) : keys (t.map fun e => (e.1, f e.2)) = t.keys := by
  rw [keys, keys, map_map]
  rfl

/-! ### Tables alongside each other -/

/-- Two tables with the same names in the same order and related values. -/
def Alongside (R : α → β → Prop) (t : Table α) (u : Table β) : Prop :=
  List.Forall₂ (fun e f => e.1 = f.1 ∧ R e.2 f.2) t u

section Alongside

variable {R : α → β → Prop} {t : Table α} {u : Table β}

theorem Alongside.keys_eq (h : Alongside R t u) : t.keys = u.keys := by
  induction h with
  | nil => rfl
  | cons he _ ih =>
    simp only [keys, map_cons] at ih ⊢
    rw [he.1, ih]

theorem Alongside.exists_of_mem (h : Alongside R t u) (he : e ∈ t) : ∃ f ∈ u, e.1 = f.1 ∧ R e.2 f.2 := by
  induction h with
  | nil => cases he
  | @cons e' f _ _ hef _ ih =>
    rcases mem_cons.1 he with rfl | he
    · exact ⟨f, mem_cons_self, hef⟩
    · obtain ⟨f', hf', hrel⟩ := ih he
      exact ⟨f', mem_cons_of_mem f hf', hrel⟩

theorem Alongside.get? (h : Alongside R t u) (k : String) : Option.Rel R (t.get? k) (u.get? k) := by
  induction h with
  | nil => exact .none
  | @cons e f _ _ he _ ih =>
    rw [Table.get?, Table.get?, he.1]
    split
    · exact .some he.2
    · exact ih

theorem Alongside.put (h : Alongside R t u) (k : String) {w : β} (hR : R v w) :
    Alongside R (t.put k v) (u.put k w) := by
  induction h with
  | nil => exact .cons ⟨rfl, hR⟩ .nil
  | @cons e f _ _ he hrest ih =>
    rw [Table.put, Table.put, he.1]
    split
    · exact .cons ⟨rfl, hR⟩ hrest
    · exact .cons ⟨rfl, he.2⟩ ih

end Alongside

end GzLang.Table
