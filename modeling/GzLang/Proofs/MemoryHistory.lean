import GzLang.Proofs.MemorySession

/-!
# A memory never forgets

What happens to a key of a category is a list of events (`life`): it is stored, its value is asked for, or
it is marked as removed, and nothing counts before it was first stored. Whatever else is asked of a memory,
and however often it is closed and opened again, its items tell these lives (`Tells`): the value that was
stored last, the number of uses, the notes put over one another, and the greatest of the confidences that
still count (`standing`).
-/

namespace GzLang.Memory

open GzLang.Action List Table Request

variable {r : Request}
variable {x : EReal} {confidence : Value} {rs : List Request}

/-! ### What happens to a key -/

inductive Event where
  | stored (value confidence : Value) (notes : Table Value)
  | retrieved
  | removed

namespace Event

def isStore : Event → Bool
  | stored _ _ _ => true
  | _ => false

def isRemoval : Event → Bool
  | removed => true
  | _ => false

def value? : Event → Option Value
  | stored v _ _ => some v
  | _ => none

def confidence? : Event → Option Value
  | stored _ c _ => some c
  | _ => none

def notes? : Event → Option (Table Value)
  | stored _ _ n => some n
  | _ => none

end Event

def Request.event? (c key : String) : Request → Option Event
  | .store c' key' value confidence notes =>
    if c' = c ∧ key' = key then some (.stored value confidence (notes.getD [])) else none
  | .retrieve c' key' _ => if c' = c ∧ key' = key then some .retrieved else none
  | .remove c' key' => if c' = c ∧ key' = key then some .removed else none
  | _ => none

/-- What happens to a key from the first time on that it is stored. -/
def life (c key : String) (rs : List Request) : List Event :=
  (rs.filterMap (event? c key)).dropWhile fun e => !e.isStore

/-- The confidences that were stored since the last removal, together with that of a removal if there was
one. -/
def standing (es : List Event) : List Value :=
  (es.rtakeWhile fun e => !e.isRemoval).filterMap Event.confidence? ++
    if es.any Event.isRemoval then [removedConfidence] else []

def amounts (vs : List Value) : Set EReal := { x | ∃ v ∈ vs, v.amount? = some x }

theorem life_concat_of_none {c key : String} (h : r.event? c key = none) (rs : List Request) :
    life c key (rs ++ [r]) = life c key rs := by
  rw [life, life, filterMap_append]
  simp [h]

theorem life_concat_of_some {c key : String} {e : Event} (h : r.event? c key = some e)
    (rs : List Request) : life c key (rs ++ [r]) =
      if life c key rs = [] ∧ e.isStore = false then [] else life c key rs ++ [e] := by
  have hone : [r].filterMap (event? c key) = [e] := by simp [h]
  rw [life, life, filterMap_append, hone, dropWhile_append]
  by_cases hlife : (rs.filterMap (event? c key)).dropWhile (fun e => !e.isStore) = []
  · cases hstore : e.isStore <;> simp [hlife, hstore]
  · rw [if_neg (by simpa using hlife), if_neg fun hboth => hlife hboth.1]

section Standing

variable (es : List Event)

theorem standing_removed : standing (es ++ [.removed]) = [removedConfidence] := by
  rw [standing, rtakeWhile_concat_neg _ _ _ (by simp [Event.isRemoval])]
  simp [Event.isRemoval]

theorem standing_retrieved : standing (es ++ [.retrieved]) = standing es := by
  have hany : (es ++ [Event.retrieved]).any Event.isRemoval = es.any Event.isRemoval := by simp [Event.isRemoval]
  rw [standing, rtakeWhile_concat_pos _ _ _ (by simp [Event.isRemoval]), filterMap_append, hany]
  simp [standing, Event.confidence?]

theorem mem_standing_stored (v c u : Value) (n : Table Value) :
    u ∈ standing (es ++ [.stored v c n]) ↔ u = c ∨ u ∈ standing es := by
  have hany : (es ++ [Event.stored v c n]).any Event.isRemoval = es.any Event.isRemoval := by
    simp [Event.isRemoval]
  have hone : [Event.stored v c n].filterMap Event.confidence? = [c] := rfl
  rw [standing, rtakeWhile_concat_pos _ _ _ (by simp [Event.isRemoval]), filterMap_append, hany,
    hone, standing, mem_append, mem_append, mem_singleton, mem_append, or_assoc,
    or_left_comm]

theorem amounts_standing_stored (v : Value) {c : Value} (hx : c.amount? = some x)
    (n : Table Value) : amounts (standing (es ++ [.stored v c n])) = insert x (amounts (standing es)) := by
  ext y
  constructor
  · rintro ⟨u, hu, hy⟩
    rcases (mem_standing_stored es v c u n).1 hu with rfl | hu
    · exact .inl (Option.some.inj (hy.symm.trans hx))
    · exact .inr ⟨u, hu, hy⟩
  · rintro (rfl | ⟨u, hu, hy⟩)
    · exact ⟨c, (mem_standing_stored es v c c n).2 (.inl rfl), hx⟩
    · exact ⟨u, (mem_standing_stored es v c u n).2 (.inr hu), hy⟩

end Standing

theorem filterMap_concat_of_none {α β : Type} {f : α → Option β} {x : α} (h : f x = none) (l : List α) :
    (l ++ [x]).filterMap f = l.filterMap f := by
  simp [h]

/-! ### Entries record lives -/

/-- An entry that records what happened to its key. -/
structure Records (es : List Event) (e : Entry) : Prop where
  value : (es.filterMap Event.value?).getLast? = some e.value
  uses : e.uses = es.countP fun e => !e.isRemoval
  notes : e.notes = (es.filterMap Event.notes?).foldl merge []
  confidence : ∃ x, e.confidence.amount? = some x ∧ IsGreatest (amounts (standing es)) x

theorem records_first (now : String) (value : Value) (hx : confidence.amount? = some x) {notes : Option (Table Value)}
    (hnotes : ∀ es ∈ notes, (Value.dict es).IsDocument) :
    Records [.stored value confidence (notes.getD [])] (.first now value confidence notes) := by
  refine ⟨rfl, rfl, ?_, x, hx, ?_⟩
  · have hnodup := (Value.isDocument_dict_iff.1 (isDocument_notes hnotes)).1
    exact (ofList_eq hnodup).symm
  · have hamounts := amounts_standing_stored [] value hx (notes.getD [])
    rw [nil_append] at hamounts
    have hnone : amounts (standing []) = ∅ := by simp [amounts, standing]
    rw [hamounts, hnone, insert_empty_eq]
    exact isGreatest_singleton

section Records

variable {es : List Event} {e : Entry} (h : Records es e)
include h

theorem Records.ne_nil : es ≠ [] := by
  rintro rfl
  cases h.value

theorem Records.renewed (now : String) (value : Value)
    (hx : confidence.amount? = some x) (notes : Option (Table Value)) :
    Records (es ++ [.stored value confidence (notes.getD [])]) (e.renewed now value confidence notes) := by
  obtain ⟨y, hy, hgreatest⟩ := h.confidence
  refine ⟨?_, ?_, ?_, max x y, Value.amount?_higher hx hy, ?_⟩
  · rw [filterMap_append]
    exact getLast?_concat
  · rw [countP_append, ← h.uses]
    rfl
  · rw [filterMap_append, foldl_append, ← h.notes]
    rfl
  · rw [amounts_standing_stored es value hx]
    exact hgreatest.insert x

theorem Records.used (now : String) : Records (es ++ [.retrieved]) (e.used now) := by
  obtain ⟨y, hy, hgreatest⟩ := h.confidence
  refine ⟨?_, ?_, ?_, y, hy, by rwa [standing_retrieved]⟩
  · rw [filterMap_concat_of_none rfl]
    exact h.value
  · rw [countP_append, ← h.uses]
    rfl
  · rw [filterMap_concat_of_none rfl]
    exact h.notes

theorem Records.removed : Records (es ++ [.removed]) e.removed := by
  obtain ⟨x, hx⟩ := (numeric_removedConfidence .files).number
  refine ⟨?_, ?_, ?_, x, hx, ?_⟩
  · rw [filterMap_concat_of_none rfl]
    exact h.value
  · rw [countP_append, ← h.uses]
    rfl
  · rw [filterMap_concat_of_none rfl]
    exact h.notes
  · have hamounts : amounts (standing (es ++ [.removed])) = {x} := by
      rw [standing_removed]
      ext y
      simp [amounts, hx, eq_comm]
    rw [hamounts]
    exact isGreatest_singleton

theorem Records.reread {b : Backend} (hnumeric : Numeric b e.confidence) : Records es (e.reread b) := by
  obtain ⟨y, hy, hgreatest⟩ := h.confidence
  cases b with
  | files => exact h
  | database => exact ⟨h.value, h.uses, h.notes, y, hnumeric.amount?_reread.trans hy, hgreatest⟩

end Records

/-! ### Requests extend lives -/

variable {b : Backend} {k : Shelves} {c key : String}

/-- What is on a shelf under a key records what happened to the key. -/
def Recorded (es : List Event) : Option Entry → Prop
  | none => es = []
  | some e => Records es e

theorem get?_update_put_of_ne {c' key' : String} (h : ¬ (c' = c ∧ key' = key)) (e : Entry) :
    get? (Function.update k c' ((k c').put key' e) c) key = (k c).get? key := by
  by_cases hc : c' = c
  · subst hc
    rw [Function.update_self, get?_put_of_ne _ fun hkey => h ⟨rfl, hkey⟩]
  · rw [Function.update_of_ne (Ne.symm hc)]

theorem get?_rereadAll (t : Table Entry) : (rereadAll b t).get? key = (t.get? key).map (Entry.reread b) := by
  induction t with
  | nil => rfl
  | cons e t ih =>
    rw [rereadAll, map_cons, get?, get?]
    split
    · rfl
    · exact ih

variable {es : List Event}

theorem Recorded.change (h : Recorded es ((k c).get? key)) {event : Event}
    (hevent : event.isStore = false) {change : Entry → Entry}
    (hchange : ∀ e, Records es e → Records (es ++ [event]) (change e)) :
    Recorded (if es = [] ∧ event.isStore = false then [] else es ++ [event])
      (get? (((k c).get? key).elim k (fun e => Function.update k c ((k c).put key (change e))) c) key) := by
  cases hentry : (k c).get? key with
  | none =>
    rw [hentry] at h
    rw [if_pos ⟨h, hevent⟩, Option.elim_none, hentry]
    rfl
  | some e =>
    rw [hentry] at h
    rw [if_neg fun hboth => h.ne_nil hboth.1, Option.elim_some, Function.update_self, get?_put_self]
    exact hchange e h

theorem get?_elim_of_ne {c' key' : String} (h : ¬ (c' = c ∧ key' = key)) (change : Entry → Entry) :
    get? (((k c').get? key').elim k (fun e => Function.update k c' ((k c').put key' (change e))) c) key =
      (k c).get? key := by
  cases (k c').get? key' with
  | none => rfl
  | some e => exact get?_update_put_of_ne h _

theorem Recorded.effect (h : Recorded (life c key rs) ((k c).get? key))
    (hsound : Sound b (k c)) (hr : r.Plain b) (t : Float) :
    Recorded (life c key (rs ++ [r])) (get? (r.effect b t k c) key) := by
  cases r with
  | store c' key' value confidence notes =>
    obtain ⟨-, -, hnumeric, hnotes⟩ := hr
    obtain ⟨x, hx⟩ := hnumeric.number
    by_cases hsame : c' = c ∧ key' = key
    · have hevent : event? c key (.store c' key' value confidence notes) =
          some (.stored value confidence (notes.getD [])) := if_pos hsame
      rw [life_concat_of_some hevent, if_neg (by simp [Event.isStore])]
      obtain ⟨rfl, rfl⟩ := hsame
      rw [effect, Function.update_self, get?_put_self]
      cases hentry : (k c').get? key' with
      | none =>
        rw [hentry] at h
        rw [show life c' key' rs = [] from h]
        exact records_first _ value hx hnotes
      | some e =>
        rw [hentry] at h
        exact Records.renewed h _ value hx notes
    · have hevent : event? c key (.store c' key' value confidence notes) = none := if_neg hsame
      rw [life_concat_of_none hevent, effect, get?_update_put_of_ne hsame]
      exact h
  | retrieve c' key' other =>
    by_cases hsame : c' = c ∧ key' = key
    · have hevent : event? c key (.retrieve c' key' other) = some .retrieved := if_pos hsame
      rw [life_concat_of_some hevent]
      obtain ⟨rfl, rfl⟩ := hsame
      exact h.change rfl fun e he => he.used _
    · have hevent : event? c key (.retrieve c' key' other) = none := if_neg hsame
      rw [life_concat_of_none hevent, effect, get?_elim_of_ne hsame]
      exact h
  | remove c' key' =>
    by_cases hsame : c' = c ∧ key' = key
    · have hevent : event? c key (.remove c' key') = some .removed := if_pos hsame
      rw [life_concat_of_some hevent]
      obtain ⟨rfl, rfl⟩ := hsame
      exact h.change rfl fun e he => he.removed
    · have hevent : event? c key (.remove c' key') = none := if_neg hsame
      rw [life_concat_of_none hevent, effect, get?_elim_of_ne hsame]
      exact h
  | reopen =>
    rw [life_concat_of_none rfl, effect, get?_rereadAll]
    cases hentry : (k c).get? key with
    | none =>
      rw [hentry] at h
      exact h
    | some e =>
      rw [hentry] at h
      exact Records.reread h (hsound.numeric _ (mem_of_get?_eq hentry))
  | search c' query least limit => rwa [life_concat_of_none rfl]
  | getAll c' least => rwa [life_concat_of_none rfl]
  | stats => rwa [life_concat_of_none rfl]
  | sync => rwa [life_concat_of_none rfl]
  | advance dt => rwa [life_concat_of_none rfl]

def Request.confidence? : Request → Option Value
  | .store _ _ _ confidence _ => some confidence
  | _ => none

/-- What holds of all confidences that are stored, and of what is made of them, holds of all on the
shelves. -/
theorem forall_confidence_effect {P : Value → Prop} (hremoved : P removedConfidence)
    (hreread : ∀ v, P v → P (b.reread v)) (h : ∀ c, ∀ e ∈ k c, P e.2.confidence)
    (hr : ∀ v ∈ r.confidence?, P v) (t : Float) (c : String) : ∀ e ∈ r.effect b t k c, P e.2.confidence := by
  have hupdate {c' key' : String} {e : Entry} (he : P e.confidence) :
      ∀ e' ∈ Function.update k c' ((k c').put key' e) c, P e'.2.confidence := by
    intro e' he'
    by_cases hc : c = c'
    · subst hc
      rw [Function.update_self] at he'
      rcases mem_put he' with he' | rfl
      · exact h c e' he'
      · exact he
    · rw [Function.update_of_ne hc] at he'
      exact h c e' he'
  have hmem {c' key' : String} {e : Entry} (he : (k c').get? key' = some e) : P e.confidence :=
    h c' _ (mem_of_get?_eq he)
  cases r with
  | store c' key' value confidence notes =>
    refine hupdate ?_
    cases hentry : (k c').get? key' with
    | none => exact hr confidence rfl
    | some e =>
      show P (confidence.higher e.confidence)
      rcases Value.higher_cases confidence e.confidence with heq | heq <;> rw [heq]
      · exact hr confidence rfl
      · exact hmem hentry
  | retrieve c' key' other =>
    rw [effect]
    cases hentry : (k c').get? key' with
    | none => exact h c
    | some e => exact hupdate (show P e.confidence from hmem hentry)
  | remove c' key' =>
    rw [effect]
    cases (k c').get? key' with
    | none => exact h c
    | some e => exact hupdate hremoved
  | reopen =>
    intro e' he'
    obtain ⟨e, he, rfl⟩ := mem_map.1 he'
    have hkept := hreread e.2.confidence (h c e he)
    cases b <;> exact hkept
  | search c' query least limit => exact h c
  | getAll c' least => exact h c
  | stats => exact h c
  | sync => exact h c
  | advance dt => exact h c

theorem nodup_effect (h : ∀ c, (k c).keys.Nodup) (r : Request) (b : Backend) (t : Float) (c : String) :
    (keys (r.effect b t k c)).Nodup := by
  have hupdate (c' key' : String) (e : Entry) : (keys (Function.update k c' ((k c').put key' e) c)).Nodup := by
    by_cases hc : c = c'
    · subst hc
      rw [Function.update_self]
      exact nodup_keys_put (h c) key' e
    · rw [Function.update_of_ne hc]
      exact h c
  cases r with
  | store c' key' value confidence notes => exact hupdate c' key' _
  | retrieve c' key' other =>
    rw [effect]
    cases (k c').get? key' with
    | none => exact h c
    | some e => exact hupdate c' key' _
  | remove c' key' =>
    rw [effect]
    cases (k c').get? key' with
    | none => exact h c
    | some e => exact hupdate c' key' _
  | reopen =>
    rw [effect, keys_rereadAll]
    exact h c
  | search c' query least limit => exact h c
  | getAll c' least => exact h c
  | stats => exact h c
  | sync => exact h c
  | advance dt => exact h c

theorem Sound.effect (h : ∀ c, Sound b (k c)) (hr : r.Plain b) (t : Float) (c : String) :
    Sound b (r.effect b t k c) := by
  refine ⟨nodup_effect (fun c => (h c).nodup) r b t c, ?_⟩
  refine forall_confidence_effect (numeric_removedConfidence b) (fun v hv => hv.reread)
    (fun c => (h c).numeric) (fun v hv => ?_) t c
  cases r with
  | store c' key' value confidence notes =>
    cases hv
    exact hr.2.2.1
  | _ => cases hv

theorem course_concat (b : Backend) (rs : List Request) (r : Request) (t : Float) (k : Shelves) :
    course b (rs ++ [r]) t k = r.effect b (clockAfter rs t) (course b rs t k) := by
  induction rs generalizing t k with
  | nil => rfl
  | cons r' rs ih => exact ih _ _

theorem recorded_course (hrs : ∀ r ∈ rs, r.Plain b) (t : Float) : (∀ c, Sound b (course b rs t (fun _ => []) c)) ∧
      ∀ c key, Recorded (life c key rs) (get? (course b rs t (fun _ => []) c) key) := by
  induction rs using reverseRecOn with
  | nil => exact ⟨fun _ => ⟨nodup_nil, fun e he => by cases he⟩, fun _ _ => rfl⟩
  | append_singleton rs r ih =>
    obtain ⟨hsound, hrecorded⟩ := ih fun r hr => hrs r (mem_append_left _ hr)
    have hr := hrs r (by simp)
    rw [course_concat]
    exact ⟨Sound.effect hsound hr _, fun c key => (hrecorded c key).effect (hsound c) hr _⟩

theorem life_ne_nil_iff (c key : String) (rs : List Request) :
    life c key rs ≠ [] ↔ ∃ value confidence notes, .store c key value confidence notes ∈ rs := by
  rw [life, ne_eq, dropWhile_eq_nil_iff]
  constructor
  · intro h
    push Not at h
    obtain ⟨e, he, hstore⟩ := h
    obtain ⟨r, hr, hevent⟩ := mem_filterMap.1 he
    cases r with
    | store c' key' value confidence notes =>
      by_cases hsame : c' = c ∧ key' = key
      · obtain ⟨rfl, rfl⟩ := hsame
        exact ⟨value, confidence, notes, hr⟩
      · rw [event?, if_neg hsame] at hevent
        cases hevent
    | retrieve c' key' other =>
      rw [event?] at hevent
      split_ifs at hevent
      cases hevent
      exact absurd rfl hstore
    | remove c' key' =>
      rw [event?] at hevent
      split_ifs at hevent
      cases hevent
      exact absurd rfl hstore
    | search c' query least limit => cases hevent
    | getAll c' least => cases hevent
    | stats => cases hevent
    | sync => cases hevent
    | advance dt => cases hevent
    | reopen => cases hevent
  · rintro ⟨value, confidence, notes, hr⟩ h
    have hevent : event? c key (.store c key value confidence notes) =
        some (.stored value confidence (notes.getD [])) := if_pos ⟨rfl, rfl⟩
    have := h _ (mem_filterMap.2 ⟨_, hr, hevent⟩)
    simp [Event.isStore] at this

/-! ### A memory never forgets -/

/-- An item that tells what happened to its key. -/
structure Tells (es : List Event) (item : Value) : Prop where
  value : ∃ v, item.item "value" = .ok v ∧ (es.filterMap Event.value?).getLast? = some v
  uses : item.item "usage_count" = .ok (.int (es.countP fun e => !e.isRemoval))
  notes : item.item "metadata" = .ok (.dict ((es.filterMap Event.notes?).foldl merge []))
  confidence : ∃ v x, item.item "confidence" = .ok v ∧ v.amount? = some x ∧
    IsGreatest (amounts (standing es)) x

theorem Records.tells {e : Entry} (h : Records es e) {item : Value} (hitem : Shows item e) : Tells es item := by
  obtain ⟨-, fs, rfl, hfs⟩ := hitem
  obtain ⟨x, hx, hgreatest⟩ := h.confidence
  refine ⟨⟨e.value, item_value_eq hfs, h.value⟩, ?_, ?_, e.confidence, x, ?_, hx, hgreatest⟩
  · rw [Value.item, hfs.uses, h.uses]
  · rw [Value.item, hfs.notes, h.notes]
  · rw [Value.item, hfs.confidence]

theorem empty_directory : Empty [("m", .directory)] "m" := by
  refine ⟨⟨by cbv, by cbv, .inl (by cbv)⟩, fun name hname => ?_⟩
  have hlength := Disk.length_key_lt "m" (isName_of_mem hname)
  have hkey : Disk.key "m" = "m" := by cbv
  have hne : "m" ≠ Disk.key (Disk.join "m" name) := by
    intro heq
    rw [hkey, ← heq] at hlength
    exact lt_irrefl _ hlength
  rw [Disk.node?_join _ _ (isName_of_mem hname)]
  simp [get?, hne]

/-- A key that is stored, removed, stored again and used, with the memory closed and opened in between. -/
def removalSession : List Request :=
  [.store "code_templates" "loop" (.str "while") (.float 0.9) (some [("by", .str "ann")]),
    .remove "code_templates" "loop", .reopen,
    .store "code_templates" "loop" (.str "for") (.float 0.25) (some [("by", .str "bob"), ("lines", .int 3)]),
    .retrieve "code_templates" "loop" .null, .advance 100, .stats, .reopen]

end GzLang.Memory
