import GzLang.Proofs.MemoryDisk
import GzLang.Proofs.MemoryItems

/-!
# A memory's items as rows of a database

A row keeps of an item its value, its confidence, the number of its uses and its notes. The confidence is
kept as a double, which stands for the same number if it was one (`realCell_float`). Saving a category
replaces its rows (`perform_saveCategory_database`), and what is then found for it shows the entries without
the times at which they were used (`Entry.reread`).
-/

namespace GzLang

open List

namespace Decimal

variable {v : Value} {x : Float} {negative : Bool} {column : Nat}

theorem roundDiv_mul (k : Nat) {d : Nat} (hd : 0 < d) : roundDiv (k * d) d = k :=
  roundDiv_eq (by omega) (by omega) hd (by omega)

theorem rounds_self (m : Nat) (q : Int) : Rounds m q (m * 2 ^ q) := by
  have hpow : (0 : ℝ) < 2 ^ q := by positivity
  have hreach : 0 < reach m q := by
    rw [reach]
    split <;> norm_num
  refine ⟨by nlinarith, by nlinarith, ?_⟩
  rintro (h | h)
  · nlinarith
  · nlinarith

theorem exists_nearestInt {m : Nat} {q : Int} (hx : decode x = .finite negative m q) (hwhole : Value.isWhole x) :
    ∃ n : Nat, Calendar.nearestInt x = (if negative then -n else n : Int) ∧ (n : ℝ) = m * 2 ^ q := by
  have hn : ∃ n : Nat, roundDiv (twoScaled m q).1 (twoScaled m q).2 = n ∧ (n : ℝ) = m * 2 ^ q := by
    simp only [Value.isWhole, hx, Bool.or_eq_true, decide_eq_true_eq, beq_iff_eq] at hwhole
    rw [twoScaled]
    split_ifs with hq
    · obtain ⟨n, hn⟩ := Nat.dvd_of_mod_eq_zero (hwhole.resolve_left (by omega))
      have hpow : 0 < Nat.pow 2 (-q).toNat := by
        rw [Nat.pow_eq]
        positivity
      refine ⟨n, ?_, ?_⟩
      · rw [hn, mul_comm, roundDiv_mul n hpow]
      · rw [hn, Nat.cast_mul, cast_two_pow (by omega), mul_right_comm, zpow_neg_mul 2 (by norm_num), one_mul]
    · refine ⟨m * Nat.pow 2 q.toNat, ?_, ?_⟩
      · simpa using roundDiv_mul (m * Nat.pow 2 q.toNat) Nat.one_pos
      · rw [Nat.cast_mul, cast_two_pow (by omega)]
  obtain ⟨n, hround, hn⟩ := hn
  refine ⟨n, ?_, hn⟩
  simp only [Calendar.nearestInt, hx, hround]

/-- A whole double is the double of its integer, up to the sign of zero. -/
theorem amount?_ofInt_nearestInt {m : Nat} {q : Int} (hx : decode x = .finite negative m q) (hwhole : Value.isWhole x) :
    (decode (ofInt (Calendar.nearestInt x))).amount? = (decode x).amount? := by
  obtain ⟨n, hint, hn⟩ := exists_nearestInt hx hwhole
  rw [hint, hx]
  rcases Nat.eq_zero_or_pos m with rfl | hm
  · have hzero : n = 0 := by simpa using hn
    subst hzero
    have hof : decode (ofInt 0) = .finite false 0 (-1074) := rfl
    cases negative <;> simp [hof, Binary64.amount?, amount]
  · have hpos : 0 < n := by
      have : (0 : ℝ) < n := by
        rw [hn]
        positivity
      exact_mod_cast this
    have hof : ofFraction? negative n 1 = some x := by
      rw [ofFraction?_of_rounds negative (inRange_of_decode hx) hm Nat.one_pos, encode_of_decode hx]
      simpa [hn] using rounds_self m q
    have hsign : decide ((if negative then -n else n : Int) < 0) = negative := by
      cases negative <;> simp [hpos]
    have habs : (if negative then -n else n : Int).natAbs = n := by cases negative <;> simp
    rw [ofInt, ofInt?, hsign, habs, hof, Option.getD_some, hx]

end Decimal

namespace Memory

open GzLang.Action Decimal

variable {b : Backend} {t : Table Entry} {item v' : Value}

/-! ### The columns -/

theorem not_abs_lt (hx : decode x = .infinite negative) : ¬ x.abs < 9e18 := by
  cases negative with
  | false =>
    obtain rfl : x = 1.0 / 0.0 := decode_injective (hx.trans rfl)
    decide
  | true =>
    obtain rfl : x = -(1.0 / 0.0) := decode_injective (hx.trans rfl)
    decide

/-- A column of doubles keeps the number that a double stands for. -/
theorem realCell_float (column : Nat) {r : EReal} (hx : (decode x).amount? = some r) :
    ∃ y, realCell column (.float x) = .ok (.float y) ∧ (decode y).amount? = some r := by
  have hself : (x != x) = false := by simp [bne, (beq_iff hx hx).2 rfl]
  rw [realCell, integerCell, hself, if_neg Bool.false_ne_true]
  split_ifs with hint
  · rw [Bool.and_eq_true, decide_eq_true_eq] at hint
    refine ⟨ofInt (Calendar.nearestInt x), rfl, ?_⟩
    cases hdecode : decode x with
    | finite negative m q => rw [amount?_ofInt_nearestInt hdecode hint.1, hx]
    | infinite negative => exact absurd hint.2 (not_abs_lt hdecode)
    | nan => simp [Value.isWhole, hdecode] at hint
  · exact ⟨x, rfl, hx⟩

theorem integerCell_cases {u : Value} (h : integerCell column v = .ok u) :
    u = .null ∨ (∃ s, u = .str s) ∨ (∃ x, u = .float x) ∨ ∃ i, u = .int i := by
  cases v with
  | null => cases h; exact .inl rfl
  | str s => cases h; exact .inr (.inl ⟨s, rfl⟩)
  | bool b => cases h; exact .inr (.inr (.inr ⟨_, rfl⟩))
  | int i =>
    rw [integerCell] at h
    split at h
    · cases h; exact .inr (.inr (.inr ⟨i, rfl⟩))
    · cases h
  | float x =>
    rw [integerCell] at h
    split_ifs at h
    · cases h; exact .inl rfl
    · cases h; exact .inr (.inr (.inr ⟨_, rfl⟩))
    · cases h; exact .inr (.inr (.inl ⟨x, rfl⟩))
  | statistic x => cases h
  | list xs => cases h
  | tuple xs => cases h
  | dict es => cases h
  | object name => cases h

theorem realCell_cases (h : realCell column v = .ok v') : v' = .null ∨ (∃ s, v' = .str s) ∨ ∃ x, v' = .float x := by
  rw [realCell] at h
  cases hcell : integerCell column v with
  | error f =>
    rw [hcell] at h
    cases h
  | ok u =>
    rw [hcell] at h
    obtain rfl | ⟨s, rfl⟩ | ⟨x, rfl⟩ | ⟨i, rfl⟩ := integerCell_cases hcell <;> cases h
    · exact .inl rfl
    · exact .inr (.inl ⟨s, rfl⟩)
    · exact .inr (.inr ⟨x, rfl⟩)
    · exact .inr (.inr ⟨_, rfl⟩)

theorem isDocument_realCell (h : realCell column v = .ok v') : v'.IsDocument := by
  obtain rfl | ⟨s, rfl⟩ | ⟨x, rfl⟩ := realCell_cases h <;> exact ⟨rfl, rfl⟩

/-- A confidence that is a number and that the backend keeps as such. -/
structure Numeric (b : Backend) (v : Value) : Prop where
  number : ∃ x, v.amount? = some x
  kept : b = .database → ∃ v', realCell 5 v = .ok v' ∧ v'.amount? = v.amount?

theorem numeric_float (b : Backend) (hx : decode x ≠ .nan) : Numeric b (.float x) := by
  obtain ⟨r, hr⟩ : ∃ r, (decode x).amount? = some r := by
    cases h : decode x with
    | finite negative m q => exact ⟨_, rfl⟩
    | infinite negative => exact ⟨_, rfl⟩
    | nan => exact absurd h hx
  obtain ⟨y, hy, hsame⟩ := realCell_float 5 hr
  exact ⟨⟨r, hr⟩, fun _ => ⟨.float y, hy, hsame.trans hr.symm⟩⟩

def Backend.reread : Backend → Value → Value
  | .files, v => v
  | .database, v => (realCell 5 v).toOption.getD v

theorem Numeric.realCell_eq (h : Numeric .database v) : realCell 5 v = .ok (Backend.database.reread v) := by
  obtain ⟨v', hv', -⟩ := h.kept rfl
  rw [Backend.reread, hv']
  rfl

theorem Numeric.amount?_reread (h : Numeric b v) : (b.reread v).amount? = v.amount? := by
  cases b with
  | files => rfl
  | database =>
    obtain ⟨v', hv', hamount⟩ := h.kept rfl
    rw [Backend.reread, hv']
    exact hamount

theorem Numeric.reread (h : Numeric b v) : Numeric b (b.reread v) := by
  obtain ⟨x, hx⟩ := h.number
  have hnumber : (b.reread v).amount? = some x := h.amount?_reread.trans hx
  refine ⟨⟨x, hnumber⟩, ?_⟩
  rintro rfl
  obtain heq | ⟨s, heq⟩ | ⟨y, heq⟩ := realCell_cases h.realCell_eq <;> rw [heq] at hnumber ⊢
  · cases hnumber
  · cases hnumber
  · obtain ⟨z, hz, hsame⟩ := realCell_float 5 hnumber
    exact ⟨_, hz, hsame.trans hnumber.symm⟩

/-! ### Rows -/

def Entry.reread (b : Backend) (e : Entry) : Entry :=
  match b with
  | .files => e
  | .database => { e with confidence := b.reread e.confidence, lastUsed := none }

def Entry.row (c key : String) (e : Entry) : Table Value :=
  [("category", .str c), ("key", .str key), ("value", e.value),
    ("confidence", Backend.database.reread e.confidence), ("usage_count", .int e.uses),
    ("metadata", .dict e.notes)]

def shelfRows (c : String) (t : Table Entry) : List (Table Value) := t.map fun e => e.2.row c e.1

theorem integerCell_count (column : Nat) {n : Nat} (h : n < 2 ^ 63) : integerCell column (.int n) = .ok (.int n) := by
  rw [integerCell, if_pos]
  simpa [Nat.pow_eq] using h

theorem rowOf_eq {e : Entry} (h : Shows item e) (hnumeric : Numeric .database e.confidence)
    (huses : e.uses < 2 ^ 63) (c key : String) : rowOf c key item = .ok (e.row c key) := by
  obtain ⟨hdocument, fs, rfl, hfs⟩ := h
  have hrender : ∃ s, Json.render .line (.dict e.notes) = .ok s := by
    have hdump := (Json.parse_dump .line (.dict e.notes)).1
    rw [(hdocument.get? hfs.notes).whole] at hdump
    refine ⟨(Json.dump .line (.dict e.notes)).2, ?_⟩
    rw [Json.render, show Json.dump .line (.dict e.notes) = (.ok (), _) from Prod.ext hdump rfl]
  obtain ⟨s, hs⟩ := hrender
  unfold rowOf
  simp only [item_value_eq hfs, itemD_notes_eq hfs, itemD_confidence_eq hfs, itemD_uses_eq hfs, hs,
    hnumeric.realCell_eq, integerCell_count 6 huses, bind, Except.bind]
  rfl

theorem rowIn_row (c' c key : String) (e : Entry) : rowIn c' (e.row c key) = (c == c') := rfl

theorem rowIn_unique {c c' : String} {r : Table Value} (h : rowIn c r) (h' : rowIn c' r) : c = c' := by
  unfold rowIn at h h'
  split at h
  · rename_i heq
    rw [heq] at h'
    exact (beq_iff_eq.1 h).symm.trans (beq_iff_eq.1 h')
  · cases h

theorem filter_shelfRows (c : String) (t : Table Entry) : (shelfRows c t).filter (rowIn c) = shelfRows c t := by
  rw [filter_eq_self]
  intro r hr
  obtain ⟨e, -, rfl⟩ := mem_map.1 hr
  simp [rowIn_row]

theorem filter_shelfRows_of_ne {c c' : String} (h : c' ≠ c) (t : Table Entry) :
    (shelfRows c t).filter (rowIn c') = [] := by
  rw [filter_eq_nil_iff]
  intro r hr
  obtain ⟨e, -, rfl⟩ := mem_map.1 hr
  simp [rowIn_row, Ne.symm h]

/-- The rows of a database after those of a category were replaced. -/
def replaceRows (rs : List (Table Value)) (c : String) (t : Table Entry) : List (Table Value) :=
  (rs.filter fun r => !rowIn c r) ++ shelfRows c t

theorem rowItems_replaceRows (rs : List (Table Value)) (c : String) (t : Table Entry) :
    rowItems (replaceRows rs c t) = Function.update (rowItems rs) c (rowItems (shelfRows c t) c) := by
  funext c'
  rw [rowItems, replaceRows, filter_append, filter_filter]
  by_cases heq : c' = c
  · subst heq
    have hnone : (rs.filter fun r => rowIn c' r && !rowIn c' r) = [] := by simp
    rw [hnone, nil_append, Function.update_self]
    rfl
  · have hsame : (rs.filter fun r => rowIn c' r && !rowIn c r) = rs.filter (rowIn c') := by
      refine filter_congr fun r _ => ?_
      cases hr : rowIn c' r with
      | false => rfl
      | true =>
        cases hr' : rowIn c r with
        | false => rfl
        | true => exact absurd (rowIn_unique hr hr') heq
    rw [hsame, filter_shelfRows_of_ne heq, append_nil, Function.update_of_ne heq]
    rfl

/-! ### Saving the rows of a category -/

def shelfUses (t : Table Entry) : Nat := (t.map fun e => e.2.uses).sum

theorem uses_le_shelfUses {e : String × Entry} (h : e ∈ t) : e.2.uses ≤ shelfUses t :=
  single_le_sum (fun _ _ => Nat.zero_le _) _ (mem_map_of_mem (f := fun e => e.2.uses) h)

theorem total_counts (ns : List Nat) : Value.total (ns.map fun n : Nat => .int n) = .ok (.int ns.sum) := by
  have hfold (i : Nat) : (ns.map fun n : Nat => Value.int n).foldlM Value.add (.int i) =
      .ok (.int (i + ns.sum : Nat)) := by
    induction ns generalizing i with
    | nil => rfl
    | cons n ns ih =>
      rw [map_cons, foldlM_cons]
      refine (ih (i + n)).trans ?_
      rw [sum_cons, Nat.add_assoc]
  simpa [Value.total] using hfold 0

/-- The shelves that can be saved: their keys are different and their confidences are kept. -/
structure Sound (b : Backend) (t : Table Entry) : Prop where
  nodup : t.keys.Nodup
  numeric : ∀ e ∈ t, Numeric b e.2.confidence

theorem Shown.isDocument (h : Shown v t) (hnodup : t.keys.Nodup) : v.IsDocument := by
  obtain ⟨items, rfl, halong⟩ := h
  rw [Value.isDocument_dict_iff, halong.keys_eq]
  refine ⟨hnodup, fun i hi => ?_⟩
  obtain ⟨e, -, -, hshows⟩ := halong.exists_of_mem hi
  exact hshows.document

theorem perform_mapM_of_still {σ α β : Type} {f : α → Action σ β} {g : α → Except Fault β} {l : List α} {s : σ}
    (h : ∀ x ∈ l, (f x).perform s = (g x, s)) : (l.mapM f).perform s = (l.mapM g, s) := by
  induction l with
  | nil => rfl
  | cons x l ih =>
    rw [forall_mem_cons] at h
    rw [mapM_cons, mapM_cons, perform_bind, h.1]
    cases g x with
    | error e => rfl
    | ok y =>
      refine (perform_bind _ _ s).trans ?_
      rw [ih h.2]
      cases l.mapM g <;> rfl

section Database

variable {directory : String} {s : Store} {w : World} {found : String → Value} {c : String}
  {items : Table Value} {t : Table Entry}

theorem perform_insertRows (h : Table.Alongside Shows items t)
    (hnumeric : ∀ e ∈ t, Numeric .database e.2.confidence) (huses : ∀ e ∈ t, e.2.uses < 2 ^ 63)
    (hclosed : s.closed = false) (rs : List (Table Value)) :
    (Store.insertRows c items).perform ({ s with pending := some rs }, w) =
      (.ok (), ({ s with pending := some (rs ++ shelfRows c t) }, w)) := by
  induction h generalizing rs with
  | nil =>
    rw [shelfRows, map_nil, append_nil]
    rfl
  | @cons i e items t hie _ ih =>
    rw [forall_mem_cons] at hnumeric huses
    have hrow : rowOf c i.1 i.2 = .ok (e.2.row c e.1) := by
      rw [hie.1]
      exact rowOf_eq hie.2 hnumeric.1 huses.1 c e.1
    have hrows : Store.rows.perform ({ s with pending := some rs }, w) =
        (.ok rs, ({ s with pending := some rs }, w)) := by
      rw [Store.rows, bind_self, hclosed]
      rfl
    have hrest := ih hnumeric.2 huses.2 (rs ++ [e.2.row c e.1])
    rw [append_assoc, singleton_append] at hrest
    obtain ⟨key, item⟩ := i
    rw [Store.insertRows, bind_lift hrow, bind_of_ok hrows]
    exact (bind_of_ok (Task.perform_update _ _ w) _).trans hrest

theorem mapM_uses (h : Table.Alongside Shows items t) : (items.mapM fun e => e.2.itemD "usage_count" (.int 0)) =
      .ok ((t.map fun e => e.2.uses).map fun n : Nat => .int n) := by
  induction h with
  | nil => rfl
  | @cons i e items t hie _ ih =>
    obtain ⟨fs, hfs, hfields⟩ := hie.2.fields
    rw [mapM_cons, hfs, itemD_uses_eq hfields, ih]
    rfl

theorem perform_saveCategory_database (hs : Open .database directory s)
    (h : Holds .database w.disk directory found) (hc : c ∈ categories) (hv : s.cache.get? c = some v)
    (hshown : Shown v t) (hsound : Sound .database t) (huses : shelfUses t < 2 ^ 63) :
    ∃ d, (Store.saveCategory c).perform (s, w) = (.ok (), (s, w.withDisk d)) ∧
      Holds .database d directory (Function.update found c (rowItems (shelfRows c t) c)) := by
  obtain ⟨rs, hrs, hfound⟩ := h.exists_rows
  obtain ⟨items, rfl, halong⟩ := hshown
  have hsame : { s with pending := none } = s := by rw [← hs.pending]
  have hupdate (c' : String) (hc' : c' ∈ categories) : rowItems (replaceRows rs c t) c' =
      Function.update found c (rowItems (shelfRows c t) c) c' := by
    rw [rowItems_replaceRows]
    by_cases heq : c' = c
    · rw [heq, Function.update_self, Function.update_self]
    · rw [Function.update_of_ne heq, Function.update_of_ne heq, hfound c' hc']
  have hholds := (h.room.holds_rows (replaceRows rs c t)).congr hupdate
  refine ⟨_, ?_, hholds⟩
  have hrows {ps : List (Table Value)} : Store.rows.perform ({ s with pending := some ps }, w) =
      (.ok ps, ({ s with pending := some ps }, w)) := by
    rw [Store.rows, bind_self, hs.closed]
    rfl
  have hdocument {ps : List (Table Value)} : (Store.category c).perform ({ s with pending := some ps }, w) =
      (.ok (.dict items), ({ s with pending := some ps }, w)) :=
    perform_category (s := { s with pending := some ps }) hv w
  have hinsert := perform_insertRows (c := c) (w := w) halong hsound.numeric
    (fun e he => (uses_le_shelfUses he).trans_lt huses) hs.closed (rs.filter fun r => !rowIn c r)
  have hcommit := h.room.perform_commit (s := { s with pending := some (replaceRows rs c t) }) hs.directory
    (replaceRows rs c t)
  rw [Store.saveCategory, bind_of_ok (perform_checkCategory hc _), bind_self, hs.backend]
  refine (bind_of_ok (hs.perform_rows hrs) _).trans ?_
  refine (bind_of_ok (Task.perform_update _ s w) _).trans ?_
  refine (bind_of_ok hdocument _).trans ?_
  refine (bind_lift (x := items) rfl _ _).trans ((bind_of_ok hinsert _).trans ?_)
  refine (bind_of_ok ((perform_mapM_of_still fun i _ => perform_ofExcept _ _).trans
    (congrArg (·, _) (mapM_uses halong))) _).trans ?_
  rw [bind_lift (total_counts _)]
  refine (bind_lift (integerCell_count 4 huses) _ _).trans ?_
  refine (bind_of_ok hrows _).trans (hcommit.trans ?_)
  rw [← hs.pending]

def rereadAll (b : Backend) (t : Table Entry) : Table Entry := t.map fun e => (e.1, e.2.reread b)

theorem keys_rereadAll (b : Backend) (t : Table Entry) : (rereadAll b t).keys = t.keys := by
  rw [Table.keys, rereadAll, map_map]
  rfl

theorem Sound.reread (h : Sound b t) : Sound b (rereadAll b t) := by
  refine ⟨(keys_rereadAll b t).symm ▸ h.nodup, fun e' he' => ?_⟩
  obtain ⟨e, he, rfl⟩ := mem_map.1 he'
  cases b with
  | files => exact h.numeric e he
  | database => exact (h.numeric e he).reread

def Entry.rowItem (e : Entry) : Value :=
  .dict [("value", e.value), ("confidence", Backend.database.reread e.confidence),
    ("usage_count", .int e.uses), ("metadata", .dict e.notes)]

theorem shows_rowItem {e : Entry} (h : Shows item e) (hnumeric : Numeric .database e.confidence) :
    Shows e.rowItem (e.reread .database) := by
  obtain ⟨hdocument, fs, rfl, hfs⟩ := h
  refine ⟨Value.isDocument_dict_iff.2 ⟨by simp [Table.keys], ?_⟩, _, rfl, ?_⟩
  · simp only [forall_mem_cons]
    exact ⟨hdocument.get? hfs.value, isDocument_realCell hnumeric.realCell_eq, hdocument.get? hfs.uses,
      hdocument.get? hfs.notes, fun _ he => by cases he⟩
  · constructor <;> simp [Table.get?, Entry.reread]

/-- What is found for a category after its rows were replaced shows the shelf as it is read back. -/
theorem shown_rowItems (h : Table.Alongside Shows items t) (hsound : Sound .database t) (c : String) :
    Shown (rowItems (shelfRows c t) c) (rereadAll .database t) := by
  have hitems : (shelfRows c t).map itemOf = t.map fun e => (e.1, e.2.rowItem) := by
    rw [shelfRows, map_map]
    rfl
  have hkeys : Table.keys (t.map fun e => (e.1, e.2.rowItem)) = t.keys := by
    rw [Table.keys, map_map]
    rfl
  refine ⟨_, rfl, ?_⟩
  rw [filter_shelfRows, hitems, Table.ofList_eq (hkeys ▸ hsound.nodup)]
  have hnumeric := hsound.numeric
  clear hsound hitems hkeys
  induction h with
  | nil => exact .nil
  | @cons i e items t hie _ ih =>
    rw [forall_mem_cons] at hnumeric
    exact .cons ⟨rfl, shows_rowItem hie.2 hnumeric.1⟩ (ih hnumeric.2)

end Database

end Memory

end GzLang
