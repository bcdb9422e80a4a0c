import GzLang.Proofs.MemoryRows

/-!
# Sessions with a memory

A memory answers requests. Behind its items are shelves of entries, one for each category (`Shelves`), and
what a request does to them (`Request.effect`) and how it is answered (`Request.reply`) can be said without
the items, the disk and the rows. A memory that shows shelves (`Knows`) does and answers that
(`Knows.answer`), request after request (`Knows.serve`).
-/

namespace GzLang.Memory

open GzLang.Action

variable {c : String}
variable {t : Table Entry} {items : Table Value} {α : Type}

/-! ### Requests -/

inductive Request where
  | store (category key : String) (value confidence : Value) (notes : Option (Table Value))
  | retrieve (category key : String) (other : Value)
  | search (category : String) (query least limit : Value)
  | getAll (category : String) (least : Value)
  | remove (category key : String)
  | stats
  | sync
  | advance (dt : Float)
  | reopen

def Request.answer : Request → Task Store Value
  | .store c key value confidence notes => do
    Store.store c key value confidence (noteValue notes)
    return .null
  | .retrieve c key other => Store.retrieve c key other
  | .search c query least limit => Store.search c query least limit
  | .getAll c least => Store.getAll c least
  | .remove c key => do return .bool (← Store.remove c key)
  | .stats => Store.stats
  | .sync => do
    Store.sync
    return .null
  | .advance dt => do
    Job.advance dt
    return .null
  | .reopen => do
    Store.close
    let s ← Task.self
    let s ← Store.open s.directory s.backend
    Task.update fun _ => s
    return .null

/-- Answer requests one after the other, whatever becomes of each of them. -/
def serve (rs : List Request) : Task Store Unit :=
  rs.forM fun r => do let _ ← r.answer.outcome

/-! ### Shelves -/

abbrev Shelves := String → Table Entry

def stamp (clock : Float) : String := Calendar.isoText (Calendar.ofSeconds clock)

def Request.effect (b : Backend) (clock : Float) (k : Shelves) : Request → Shelves
  | .store c key value confidence notes =>
    Function.update k c ((k c).put key (((k c).get? key).elim
      (.first (stamp clock) value confidence notes) (·.renewed (stamp clock) value confidence notes)))
  | .retrieve c key _ =>
    ((k c).get? key).elim k fun e => Function.update k c ((k c).put key (e.used (stamp clock)))
  | .remove c key => ((k c).get? key).elim k fun e => Function.update k c ((k c).put key e.removed)
  | .reopen => fun c => rereadAll b (k c)
  | _ => k

def Request.reply (k : Shelves) : Request → Except Fault Value
  | .store c _ _ _ _ => do
    checkCategory c
    return .null
  | .retrieve c key other => do
    checkCategory c
    return ((k c).get? key).elim other (·.value)
  | .search c query least limit => do
    checkCategory c
    bestMatches query least limit (plainItems (k c))
  | .getAll c least => do
    checkCategory c
    valuesFrom least (plainItems (k c))
  | .remove c key => do
    checkCategory c
    return .bool ((k c).has key)
  | .stats => do
    return .dict (← categories.mapM fun c => return (c, ← categoryStats (.dict (plainItems (k c)))))
  | _ => .ok .null

def Request.clock (t : Float) : Request → Float
  | .advance dt => t + dt
  | _ => t

def course (b : Backend) : List Request → Float → Shelves → Shelves
  | [], _, k => k
  | r :: rs, t, k => course b rs (r.clock t) (r.effect b t k)

def clockAfter (rs : List Request) (t : Float) : Float := rs.foldl (fun t r => r.clock t) t

/-- A memory that is open and shows shelves. -/
structure Knows (b : Backend) (directory : String) (k : Shelves) (s : Store) (w : World) : Prop where
  isOpen : Open b directory s
  disk : ∃ found, Holds b w.disk directory found
  shown : ∀ c ∈ categories, ∃ v, s.cache.get? c = some v ∧ Shown v (k c)
  sound : ∀ c ∈ categories, Sound b (k c)

variable {b : Backend} {directory : String} {k : Shelves} {s : Store} {w : World}

/-! ### Shelves that are changed -/

theorem shelfUses_put (t : Table Entry) (key : String) (e : Entry) :
    shelfUses (t.put key e) + (t.get? key).elim 0 Entry.uses = shelfUses t + e.uses := by
  induction t with
  | nil => simp [shelfUses, Table.put]
  | cons f t ih =>
    by_cases h : f.1 = key
    · simp only [shelfUses, Table.put, Table.get?, h, if_true, List.map_cons, List.sum_cons, Option.elim]
      omega
    · simp only [shelfUses, Table.put, Table.get?, h, if_false, List.map_cons, List.sum_cons] at ih ⊢
      omega

theorem Sound.put (h : Sound b t) (key : String) {e : Entry} (he : Numeric b e.confidence) : Sound b (t.put key e) := by
  refine ⟨Table.nodup_keys_put h.nodup key e, fun f hf => ?_⟩
  rcases Table.mem_put hf with hf | rfl
  · exact h.numeric f hf
  · exact he

theorem Knows.put (h : Knows b directory k s w) {v : Value} (hv : Shown v t) (ht : Sound b t) :
    Knows b directory (Function.update k c t) (s.withCache (Table.put s.cache c v)) w := by
  refine ⟨h.isOpen.withCache _, h.disk, fun c' hc' => ?_, fun c' hc' => ?_⟩
  · by_cases heq : c' = c
    · subst heq
      exact ⟨v, Table.get?_put_self _ _ _, by rwa [Function.update_self]⟩
    · rw [Store.cache_withCache, Table.get?_put_of_ne _ (Ne.symm heq), Function.update_of_ne heq]
      exact h.shown c' hc'
  · by_cases heq : c' = c
    · rwa [heq, Function.update_self]
    · rw [Function.update_of_ne heq]
      exact h.sound c' hc'

theorem Knows.putEntry (h : Knows b directory k s w) (hc : c ∈ categories)
    (hitems : Table.Alongside Shows items (k c)) (key : String) {item : Value} {e : Entry} (he : Shows item e)
    (hnumeric : Numeric b e.confidence) : Knows b directory (Function.update k c ((k c).put key e))
      (s.withCache (Table.put s.cache c (.dict (Table.put items key item)))) w :=
  h.put ⟨_, rfl, hitems.put key he⟩ ((h.sound c hc).put key hnumeric)

theorem Knows.exists_items (h : Knows b directory k s w) (hc : c ∈ categories) :
    ∃ items, s.cache.get? c = some (.dict items) ∧ Table.Alongside Shows items (k c) ∧ Table.has s.cache c := by
  obtain ⟨v, hv, items, rfl, halong⟩ := h.shown c hc
  exact ⟨items, hv, halong, by rw [Table.has, hv]; rfl⟩

theorem get?_cases (h : Table.Alongside Shows items t) (key : String) : items.get? key = none ∧ t.get? key = none ∨
      ∃ item e, items.get? key = some item ∧ t.get? key = some e ∧ Shows item e := by
  have hrel := h.get? key
  generalize items.get? key = i, t.get? key = o at hrel ⊢
  cases hrel with
  | none => exact .inl ⟨rfl, rfl⟩
  | some hshows => exact .inr ⟨_, _, rfl, rfl, hshows⟩

section Lookup

variable {items : Table Value} {key : String} {item : Value}

theorem dict_has_of_none (h : items.get? key = none) : (Value.dict items).has key = .ok false := by
  rw [Value.has, Value.holds, Table.has, h]
  rfl

theorem dict_has_of_some (h : items.get? key = some item) : (Value.dict items).has key = .ok true := by
  rw [Value.has, Value.holds, Table.has, h]
  rfl

theorem dict_item_of_some (h : items.get? key = some item) : (Value.dict items).item key = .ok item := by
  rw [Value.item, h]

end Lookup

/-! ### Single requests -/

theorem perform_timestamp (s : Store) (w : World) :
    (liftM Job.timestamp : Task Store String).perform (s, w) = (.ok (stamp w.clock), (s, w)) := rfl

theorem numeric_removedConfidence (b : Backend) : Numeric b removedConfidence := numeric_float b (by rintro ⟨⟩)

theorem perform_seek {v : Value} (hc : c ∈ categories) (hv : s.cache.get? c = some v)
    (a : Store → Task Store α) (f : Value → Task Store α) :
    ((liftM (checkCategory c) : Task Store Unit) >>= fun _ => Task.self >>= fun s =>
      if (!Table.has s.cache c) = true then a s else Store.category c >>= f).perform (s, w) = (f v).perform (s, w) := by
  have hhas : Table.has s.cache c := by
    rw [Table.has, hv]
    rfl
  rw [bind_of_ok (perform_checkCategory hc _), bind_self, hhas, if_neg (by simp),
    bind_of_ok (perform_category hv w)]

section

variable (h : Knows b directory k s w)
include h

theorem Knows.putItem (hc : c ∈ categories) (key : String)
    {value confidence : Value} {notes : Option (Table Value)} (hvalue : value.IsDocument)
    (hconfidence : confidence.IsDocument) (hnumeric : Numeric b confidence)
    (hnotes : ∀ es ∈ notes, (Value.dict es).IsDocument) (huses : shelfUses (k c) + 1 < b.countLimit) :
    ∃ s', (Store.putItem c key value confidence (noteValue notes)).perform (s, w) = (.ok (), (s', w)) ∧
      Knows b directory (Request.effect b w.clock k (.store c key value confidence notes)) s' w := by
  obtain ⟨items, hitems, halong, hhas⟩ := h.exists_items hc
  rw [Store.putItem, bind_of_ok (perform_checkCategory hc _), bind_self, hhas]
  simp only [Bool.not_true, Bool.false_eq_true, if_false]
  rw [bind_of_ok (perform_category hitems w), bind_of_ok (perform_timestamp s w)]
  rcases get?_cases halong key with ⟨hitem, hentry⟩ | ⟨item, e, hitem, hentry, hshows⟩
  · have hnew : Shows (newItem (stamp w.clock) value confidence (noteValue notes))
        (.first (stamp w.clock) value confidence notes) := shows_newItem hvalue hconfidence hnotes
    rw [Request.effect, hentry]
    refine ⟨_, ?_, h.putEntry hc halong key hnew hnumeric⟩
    rw [bind_lift (dict_has_of_none hitem)]
    rfl
  · have he : (key, e) ∈ k c := Table.mem_of_get?_eq hentry
    have hnumber := (h.sound c hc).numeric _ he
    obtain ⟨x, hx⟩ := hnumeric.number
    obtain ⟨y, hy⟩ := hnumber.number
    have hcount : e.uses ≤ shelfUses (k c) := uses_le_shelfUses he
    obtain ⟨item', hrenew, hshows'⟩ :
        ∃ item', renewItem (stamp w.clock) item value confidence (noteValue notes) = .ok item' ∧
          Shows item' (e.renewed (stamp w.clock) value confidence notes) :=
      renewItem_eq hvalue hconfidence hnotes hshows hx hy (b := b) (by omega)
    have hhigher : Numeric b (confidence.higher e.confidence) := by
      rcases Value.higher_cases confidence e.confidence with heq | heq <;> rwa [heq]
    rw [Request.effect, hentry]
    refine ⟨_, ?_, h.putEntry hc halong key hshows' hhigher⟩
    rw [bind_lift (dict_has_of_some hitem), if_pos rfl, bind_lift (dict_item_of_some hitem), bind_lift hrenew]
    rfl

theorem Knows.retrieve (hc : c ∈ categories) (key : String)
    (other : Value) (huses : shelfUses (k c) + 1 < b.countLimit) :
    ∃ s', (Store.retrieve c key other).perform (s, w) = (.ok (((k c).get? key).elim other (·.value)), (s', w)) ∧
      Knows b directory (Request.effect b w.clock k (.retrieve c key other)) s' w := by
  obtain ⟨items, hitems, halong, hhas⟩ := h.exists_items hc
  rw [Store.retrieve, perform_seek hc hitems]
  rcases get?_cases halong key with ⟨hitem, hentry⟩ | ⟨item, e, hitem, hentry, hshows⟩
  · refine ⟨s, ?_, ?_⟩
    · rw [bind_lift (dict_has_of_none hitem), hentry]
      rfl
    · rw [Request.effect, hentry]
      exact h
  · have he : (key, e) ∈ k c := Table.mem_of_get?_eq hentry
    have hcount : e.uses ≤ shelfUses (k c) := uses_le_shelfUses he
    obtain ⟨counted, item', hcounted, hitem', hvalue, hshows'⟩ := exists_used hshows (stamp w.clock) (b := b) (by omega)
    rw [Request.effect, hentry]
    refine ⟨_, ?_, h.putEntry hc halong key hshows' ((h.sound c hc).numeric _ he)⟩
    · have huses' : item.itemD "usage_count" (.int 0) = .ok (.int e.uses) := by
        obtain ⟨fs, rfl, hfs⟩ := hshows.fields
        exact itemD_uses_eq hfs _
      have hcount' : (Value.int e.uses).next = .ok (.int (e.uses + 1 : Nat)) := rfl
      have hput : (Value.dict items).withItem key item' = .ok (.dict (Table.put items key item')) := rfl
      rw [bind_lift (dict_has_of_some hitem), if_neg (by simp),
        bind_lift (dict_item_of_some hitem), bind_lift huses', bind_lift hcount',
        bind_lift hcounted, bind_of_ok (perform_timestamp s w), bind_lift hitem',
        bind_lift hput, Store.putCategory, bind_update, hvalue]
      rfl

theorem Knows.remove (hc : c ∈ categories) (key : String) :
    ∃ s', (Store.remove c key).perform (s, w) = (.ok ((k c).has key), (s', w)) ∧
      Knows b directory (Request.effect b w.clock k (.remove c key)) s' w := by
  obtain ⟨items, hitems, halong, hhas⟩ := h.exists_items hc
  rw [Store.remove, perform_seek hc hitems]
  rcases get?_cases halong key with ⟨hitem, hentry⟩ | ⟨item, e, hitem, hentry, hshows⟩
  · refine ⟨s, ?_, ?_⟩
    · rw [bind_lift (dict_has_of_none hitem), Table.has, hentry]
      rfl
    · rw [Request.effect, hentry]
      exact h
  · obtain ⟨item', hmarked, hshows'⟩ := exists_removed hshows
    rw [Request.effect, hentry]
    refine ⟨_, ?_, h.putEntry hc halong key hshows' (numeric_removedConfidence b)⟩
    rw [bind_lift (dict_has_of_some hitem), Table.has, hentry, if_neg (by simp),
      bind_lift (dict_item_of_some hitem), bind_lift hmarked]
    rfl

theorem Knows.search (hc : c ∈ categories)
    (query least limit : Value) : (Store.search c query least limit).perform (s, w) =
      (bestMatches query least limit (plainItems (k c)), (s, w)) := by
  obtain ⟨items, hitems, halong, -⟩ := h.exists_items hc
  rw [Store.search, perform_seek hc hitems, ← bestMatches_eq halong]
  exact bind_lift rfl _ _

theorem Knows.getAll (hc : c ∈ categories) (least : Value) :
    (Store.getAll c least).perform (s, w) = (valuesFrom least (plainItems (k c)), (s, w)) := by
  obtain ⟨items, hitems, halong, -⟩ := h.exists_items hc
  rw [Store.getAll, perform_seek hc hitems, ← valuesFrom_eq halong]
  exact bind_lift rfl _ _

theorem Knows.stats : Store.stats.perform (s, w) = (Request.reply k .stats, (s, w)) := by
  have hpresent : (categories.filterMap fun c => (Table.get? s.cache c).map fun v => (c, v)) =
      categories.map fun c => (c, (Table.get? s.cache c).getD .null) := by
    rw [← List.filterMap_eq_map]
    refine List.filterMap_congr fun c hc => ?_
    obtain ⟨items, hitems, -⟩ := h.exists_items hc
    simp [hitems]
  have heach : ((categories.map fun c => (c, (Table.get? s.cache c).getD .null)).mapM fun e =>
        (do return (e.1, ← categoryStats e.2) : Task Store (String × Value))).perform (s, w) =
      (categories.mapM fun c => do return (c, ← categoryStats (.dict (plainItems (k c)))), (s, w)) := by
    rw [List.mapM_map]
    refine perform_mapM_of_still fun c hc => ?_
    obtain ⟨items, hitems, halong, -⟩ := h.exists_items hc
    rw [Function.comp_apply, hitems, Option.getD_some, categoryStats_eq halong]
    cases categoryStats (.dict (plainItems (k c))) <;> rfl
  rw [Store.stats, bind_self, Request.reply]
  refine (perform_bind _ _ _).trans ?_
  rw [hpresent, heach]
  cases categories.mapM fun c =>
    (do return (c, ← categoryStats (.dict (plainItems (k c)))) : Except Fault (String × Value)) <;> rfl

theorem Knows.sync (huses : ∀ c ∈ categories, shelfUses (k c) < b.countLimit) :
    ∃ s' d, Store.sync.perform (s, w) = (.ok (), (s', w.withDisk d)) ∧ Knows b directory k s' (w.withDisk d) ∧
      ∃ found, Holds b d directory found ∧ ∀ c ∈ categories, Shown (found c) (rereadAll b (k c)) := by
  have hkept : ∀ c ∈ categories, ∃ kept, Shown kept (rereadAll b (k c)) ∧
      ∀ d found, Holds b d directory found → ∃ d', (Store.saveCategory c).perform (s, w.withDisk d) =
        (.ok (), (s, w.withDisk d')) ∧ Holds b d' directory (Function.update found c kept) := by
    intro c hc
    obtain ⟨v, hv, hshown⟩ := h.shown c hc
    have hopen := h.isOpen
    have hsound := h.sound c hc
    cases b with
    | files =>
      have hdocument := hshown.isDocument hsound.nodup
      have hsame : rereadAll .files (k c) = k c := List.map_id _
      refine ⟨v, by rwa [hsame], fun d found hd => ?_⟩
      obtain ⟨d', hsave, hholds⟩ := perform_saveCategory_files (w := w.withDisk d) hopen hd hc hv
      rw [hdocument.whole] at hsave
      rw [Json.reloaded, hdocument.whole, hdocument.normal] at hholds
      exact ⟨d', hsave, hholds⟩
    | database =>
      obtain ⟨items, rfl, halong⟩ := hshown
      refine ⟨_, shown_rowItems halong hsound c, fun d found hd => ?_⟩
      exact perform_saveCategory_database (w := w.withDisk d) hopen hd hc hv ⟨items, rfl, halong⟩ hsound (huses c hc)
  choose! kept hkept hsave using hkept
  obtain ⟨found, hfound⟩ := h.disk
  have hhas (c : String) (hc : c ∈ categories) : Table.has s.cache c := by
    obtain ⟨_, _, _, hhas⟩ := h.exists_items hc
    exact hhas
  obtain ⟨s', d, hsync, hopen, hcache, hholds⟩ :=
    @perform_sync b directory s w found (fun _ => none) kept h.isOpen hsave hhas hfound
  refine ⟨s', d, hsync, ⟨hopen, ⟨_, hholds⟩, ?_, h.sound⟩, _, hholds, fun c hc => ?_⟩
  · rw [hcache]
    exact h.shown
  · rw [settle_of_forall fun _ _ => rfl, if_pos hc]
    exact hkept c hc

theorem Knows.syncIfDue (huses : ∀ c ∈ categories, shelfUses (k c) < b.countLimit) :
    ∃ s' d, Store.syncIfDue.perform (s, w) = (.ok (), (s', w.withDisk d)) ∧ Knows b directory k s' (w.withDisk d) := by
  have hseconds : (liftM Job.seconds : Task Store Float).perform (s, w) = (.ok w.clock, (s, w)) := rfl
  rw [Store.syncIfDue, bind_of_ok hseconds, bind_self]
  split_ifs
  · obtain ⟨s', d, hsync, hknows, -⟩ := h.sync huses
    exact ⟨s', d, hsync, hknows⟩
  · exact ⟨s, w.disk, rfl, h⟩

/-- A memory that is closed and opened again shows the shelves as they are read back. -/
theorem Knows.reopen (huses : ∀ c ∈ categories, shelfUses (k c) < b.countLimit) :
    ∃ s' d, (Request.answer .reopen).perform (s, w) = (.ok .null, (s', w.withDisk d)) ∧
      Knows b directory (Request.effect b w.clock k .reopen) s' (w.withDisk d) := by
  obtain ⟨s₁, d₁, hsync, hknows, found, hfound, hshown⟩ := h.sync huses
  obtain ⟨s₂, d₂, hopen, hs₂, hd₂, hcache⟩ := perform_open (w := w.withDisk d₁) hfound
  have hclose : Store.close.perform (s, w) = (.ok (), ({ s₁ with closed := s₁.backend == .database }, w.withDisk d₁)) :=
    (bind_of_ok hsync _).trans (Task.perform_update _ _ _)
  refine ⟨s₂, d₂, ?_, hs₂, ⟨found, hd₂⟩, fun c hc => ⟨found c, hcache c hc, hshown c hc⟩,
    fun c hc => (h.sound c hc).reread⟩
  have hnew : (liftM (Store.open s₁.directory s₁.backend) : Task Store Store).perform
      ({ s₁ with closed := s₁.backend == .database }, w.withDisk d₁) =
        (.ok s₂, ({ s₁ with closed := s₁.backend == .database }, w.withDisk d₂)) := by
    rw [Task.perform_lift, hknows.isOpen.directory, hknows.isOpen.backend, hopen]
    rfl
  rw [Request.answer, bind_of_ok hclose, bind_self]
  refine (bind_of_ok hnew _).trans ?_
  rfl

end

/-! ### Sessions -/

/-- The requests of a session that only stores what can be saved: documents, notes that are documents, and
confidences that are numbers and are kept as such. -/
def Request.Plain (b : Backend) : Request → Prop
  | .store _ _ value confidence notes => value.IsDocument ∧ confidence.IsDocument ∧ Numeric b confidence ∧
    ∀ es ∈ notes, (Value.dict es).IsDocument
  | _ => True

/-- Entries that were used so seldom that some more uses can be counted. -/
def Few (b : Backend) (n : Nat) (k : Shelves) : Prop := ∀ c ∈ categories, shelfUses (k c) + n < b.countLimit

theorem Few.mono {m n : Nat} (h : Few b m k) (hle : n ≤ m) : Few b n k :=
  fun c hc => (Nat.add_le_add_left hle _).trans_lt (h c hc)

theorem shelfUses_rereadAll (b : Backend) (t : Table Entry) : shelfUses (rereadAll b t) = shelfUses t := by
  rw [shelfUses, rereadAll, List.map_map]
  cases b <;> rfl

theorem Few.effect {n : Nat} (h : Few b (n + 1) k) (t : Float) (r : Request) : Few b n (r.effect b t k) := by
  have hupdate {c key : String} {e : Entry} (he : e.uses ≤ ((k c).get? key).elim 0 Entry.uses + 1) :
      Few b n (Function.update k c ((k c).put key e)) := by
    intro c' hc'
    by_cases heq : c' = c
    · subst heq
      have hput := shelfUses_put (k c') key e
      have hfew := h c' hc'
      rw [Function.update_self]
      omega
    · have hfew := h c' hc'
      rw [Function.update_of_ne heq]
      omega
  have hsame : Few b n k := h.mono (Nat.le_succ n)
  cases r with
  | store c key value confidence notes =>
    refine hupdate ?_
    cases (k c).get? key <;> simp [Entry.first, Entry.renewed]
  | retrieve c key other =>
    rw [Request.effect]
    cases hentry : (k c).get? key with
    | none => exact hsame
    | some e => exact hupdate (by simp [hentry, Entry.used])
  | remove c key =>
    rw [Request.effect]
    cases hentry : (k c).get? key with
    | none => exact hsame
    | some e => exact hupdate (by simp [hentry, Entry.removed])
  | reopen =>
    intro c hc
    rw [Request.effect, shelfUses_rereadAll]
    exact hsame c hc
  | search | getAll | stats | sync | advance => exact hsame

theorem Knows.congr (h : Knows b directory k s w) {k' : Shelves} (heq : ∀ c ∈ categories, k c = k' c) :
    Knows b directory k' s w :=
  ⟨h.isOpen, h.disk, fun c hc => heq c hc ▸ h.shown c hc, fun c hc => heq c hc ▸ h.sound c hc⟩

theorem Knows.update_of_not_mem (h : Knows b directory k s w) (hc : c ∉ categories)
    (t : Table Entry) : Knows b directory (Function.update k c t) s w := by
  refine h.congr fun c' hc' => ?_
  have hne : c' ≠ c := fun heq => hc (heq ▸ hc')
  rw [Function.update_of_ne hne]

theorem bind_checkCategory_of_not_mem {σ : Type} (hc : c ∉ categories) (f : Unit → Action σ α) (s : σ) :
    ((liftM (checkCategory c) : Action σ Unit) >>= f).perform s = (.error (.unknownCategory c), s) := by
  rw [checkCategory, if_neg hc]
  rfl

theorem checkCategory_bind (f : Unit → Except Fault α) :
    (checkCategory c >>= f) = if c ∈ categories then f () else .error (.unknownCategory c) := by
  rw [checkCategory]
  split_ifs <;> rfl

/-- A memory that shows shelves answers a request as the shelves say, and then shows the shelves after the
request. -/
theorem Knows.answer (h : Knows b directory k s w) (hfew : Few b 1 k) {r : Request} (hr : r.Plain b) :
    ∃ s' w', r.answer.perform (s, w) = (r.reply k, (s', w')) ∧
      Knows b directory (r.effect b w.clock k) s' w' ∧ w'.clock = r.clock w.clock := by
  have huses : Few b 0 k := hfew.mono (Nat.zero_le 1)
  cases r with
  | store c key value confidence notes =>
    rw [Request.answer, Request.reply, checkCategory_bind]
    by_cases hc : c ∈ categories
    · obtain ⟨hvalue, hconfidence, hnumeric, hnotes⟩ := hr
      obtain ⟨s₁, hput, hknows⟩ := h.putItem hc key hvalue hconfidence hnumeric hnotes (hfew c hc)
      have hfew' := hfew.effect w.clock (.store c key value confidence notes)
      obtain ⟨s₂, d, hsync, hknows'⟩ := hknows.syncIfDue fun c hc => by simpa using hfew' c hc
      refine ⟨s₂, w.withDisk d, ?_, hknows', rfl⟩
      rw [if_pos hc, Store.store]
      refine (bind_of_ok ((bind_of_ok hput _).trans hsync) _).trans rfl
    · refine ⟨s, w, ?_, h.update_of_not_mem hc _, rfl⟩
      rw [if_neg hc, Store.store, Store.putItem]
      refine bind_of_error ?_ _
      refine bind_of_error ?_ _
      exact bind_checkCategory_of_not_mem hc _ _
  | retrieve c key other =>
    rw [Request.answer, Request.reply, checkCategory_bind]
    by_cases hc : c ∈ categories
    · obtain ⟨s', hanswer, hknows⟩ := h.retrieve hc key other (hfew c hc)
      exact ⟨s', w, by rw [if_pos hc]; exact hanswer, hknows, rfl⟩
    · refine ⟨s, w, ?_, ?_, rfl⟩
      · rw [if_neg hc, Store.retrieve]
        exact bind_checkCategory_of_not_mem hc _ _
      · rw [Request.effect]
        cases (k c).get? key with
        | none => exact h
        | some e => exact h.update_of_not_mem hc _
  | search c query least limit =>
    refine ⟨s, w, ?_, h, rfl⟩
    rw [Request.answer, Request.reply, checkCategory_bind]
    by_cases hc : c ∈ categories
    · rw [if_pos hc, h.search hc]
    · rw [if_neg hc, Store.search]
      exact bind_checkCategory_of_not_mem hc _ _
  | getAll c least =>
    refine ⟨s, w, ?_, h, rfl⟩
    rw [Request.answer, Request.reply, checkCategory_bind]
    by_cases hc : c ∈ categories
    · rw [if_pos hc, h.getAll hc]
    · rw [if_neg hc, Store.getAll]
      exact bind_checkCategory_of_not_mem hc _ _
  | remove c key =>
    rw [Request.answer, Request.reply, checkCategory_bind]
    by_cases hc : c ∈ categories
    · obtain ⟨s', hanswer, hknows⟩ := h.remove hc key
      exact ⟨s', w, by rw [if_pos hc, bind_of_ok hanswer]; rfl, hknows, rfl⟩
    · refine ⟨s, w, ?_, ?_, rfl⟩
      · rw [if_neg hc, Store.remove]
        exact bind_of_error (bind_checkCategory_of_not_mem hc _ _) _
      · rw [Request.effect]
        cases (k c).get? key with
        | none => exact h
        | some e => exact h.update_of_not_mem hc _
  | stats => exact ⟨s, w, h.stats, h, rfl⟩
  | sync =>
    obtain ⟨s', d, hsync, hknows, -⟩ := h.sync huses
    exact ⟨s', w.withDisk d, bind_of_ok hsync _, hknows, rfl⟩
  | advance dt => exact ⟨s, { w with clock := w.clock + dt }, rfl, ⟨h.isOpen, h.disk, h.shown, h.sound⟩, rfl⟩
  | reopen =>
    obtain ⟨s', d, hreopen, hknows⟩ := h.reopen huses
    exact ⟨s', w.withDisk d, hreopen, hknows, rfl⟩

/-- A memory that shows shelves serves every session, and then shows the shelves after it. -/
theorem Knows.serve {rs : List Request} (h : Knows b directory k s w) (hfew : Few b rs.length k)
    (hrs : ∀ r ∈ rs, r.Plain b) :
    ∃ s' w', (Memory.serve rs).perform (s, w) = (.ok (), (s', w')) ∧
      Knows b directory (course b rs w.clock k) s' w' ∧ w'.clock = clockAfter rs w.clock := by
  induction rs generalizing k s w with
  | nil => exact ⟨s, w, rfl, h, rfl⟩
  | cons r rs ih =>
    rw [List.forall_mem_cons] at hrs
    have hone : 1 ≤ (r :: rs).length := Nat.succ_pos _
    obtain ⟨s₁, w₁, hanswer, hknows, hclock⟩ := h.answer (hfew.mono hone) hrs.1
    obtain ⟨s₂, w₂, hserve, hknows', hclock'⟩ := ih hknows (hfew.effect w.clock r) hrs.2
    have hfirst : (do let _ ← r.answer.outcome : Task Store Unit).perform (s, w) = (.ok (), (s₁, w₁)) := by
      have houtcome : r.answer.outcome.perform (s, w) = (.ok (r.reply k), (s₁, w₁)) := by
        rw [Action.outcome, perform_of, hanswer]
      rw [bind_of_ok houtcome]
      rfl
    rw [hclock] at hknows' hclock'
    exact ⟨s₂, w₂, (bind_of_ok hfirst _).trans hserve, hknows', hclock'⟩

/-- A memory that is opened in an empty directory shows empty shelves. -/
theorem Empty.exists_knows (h : Empty w.disk directory) (b : Backend) :
    ∃ s w', (Store.open directory b).perform w = (.ok s, w') ∧ Knows b directory (fun _ => []) s w' ∧
      w'.clock = w.clock := by
  obtain ⟨s, d, hopen, hs, hd, hcache⟩ := perform_open (h.holds b)
  exact ⟨s, w.withDisk d, hopen, ⟨hs, ⟨_, hd⟩, fun c hc => ⟨_, hcache c hc, [], rfl, .nil⟩,
    fun _ _ => ⟨List.nodup_nil, fun e he => by cases he⟩⟩, rfl⟩

end GzLang.Memory
