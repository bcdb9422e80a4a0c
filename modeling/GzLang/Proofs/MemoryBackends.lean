import GzLang.Proofs.MemoryHistory
import GzLang.Proofs.Ranking
import GzLang.Value.View

/-!
# The two backends of a memory

Two memories, one with files and one with a database, that are asked the same at the same times answer
alike in all but one field: after a memory with a database was closed and opened again, a search shows no
times for the keys that were not used since (`Request.untimed`).
-/

namespace GzLang

namespace Memory

open GzLang.Action List Table Request

variable {rs : List Request} {r : Request}

/-! ### Shelves without times -/

def Entry.untimed (e : Entry) : Entry := { e with lastUsed := none }

/-- A shelf on which only some keys have times. -/
def blurred (timed : String → Bool) (t : Table Entry) : Table Entry :=
  t.map fun e => (e.1, if timed e.1 then e.2 else e.2.untimed)

section Blurred

variable {timed timed' : String → Bool} {t : Table Entry} {key : String}

theorem get?_blurred (timed : String → Bool) (t : Table Entry) (key : String) :
    (blurred timed t).get? key = (t.get? key).map fun e => if timed key then e else e.untimed := by
  induction t with
  | nil => rfl
  | cons e t ih =>
    rw [blurred, map_cons, get?, get?]
    split
    · rename_i heq
      rw [← heq]
      rfl
    · exact ih

theorem blurred_put (timed : String → Bool) (t : Table Entry) (key : String) (e : Entry) :
    blurred timed (t.put key e) = (blurred timed t).put key (if timed key then e else e.untimed) := by
  induction t with
  | nil => rfl
  | cons f t ih =>
    rw [blurred, blurred, map_cons, put, put]
    split
    · rfl
    · rw [map_cons]
      exact congrArg _ ih

theorem blurred_congr (h : ∀ key ∈ t.keys, timed key = timed' key) : blurred timed t = blurred timed' t :=
  map_congr_left fun e he => by rw [h e.1 (mem_map_of_mem he)]

theorem blurred_put_timed (hkey : timed' key) (hother : ∀ j, j ≠ key → timed' j = timed j)
    (hnodup : t.keys.Nodup) (e : Entry) : blurred timed' (t.put key e) = (blurred timed t).put key e := by
  induction t with
  | nil => simp [blurred, put, hkey]
  | cons f t ih =>
    rw [Table.keys, map_cons, nodup_cons] at hnodup
    rw [put, blurred, blurred, map_cons, put]
    split
    · rename_i heq
      subst heq
      rw [map_cons, hkey]
      refine congrArg _ (blurred_congr fun j hj => hother j ?_)
      rintro rfl
      exact hnodup.1 hj
    · rename_i hne
      rw [map_cons, hother f.1 hne]
      exact congrArg _ (ih hnodup.2)

/-- What does not look at the times gives the same for a blurred shelf. -/
theorem mapM_plainItems_blurred {α : Type} {f : String × Value → Except Fault α}
    (hf : ∀ key fs gs e, Fields fs e → Fields gs e.untimed → f (key, .dict gs) = f (key, .dict fs)) :
    (plainItems (blurred timed t)).mapM f = (plainItems t).mapM f := by
  have hitem (key : String) (e : Entry) : f (key, e.untimed.item) = f (key, e.item) := by
    obtain ⟨fs, hfs, hfields⟩ := fields_item e
    obtain ⟨gs, hgs, hfields'⟩ := fields_item e.untimed
    rw [hfs, hgs, hf key fs gs e hfields hfields']
  rw [plainItems, plainItems, blurred, map_map, mapM_map, mapM_map]
  congr 1
  funext e
  simp only [Function.comp_apply]
  split
  · rfl
  · exact hitem e.1 e.2

theorem valuesFrom_blurred (least : Value) :
    valuesFrom least (plainItems (blurred timed t)) = valuesFrom least (plainItems t) := by
  unfold valuesFrom
  rw [mapM_plainItems_blurred]
  intro key fs gs e hfs hgs
  simp only [itemD_confidence_eq hfs, itemD_confidence_eq hgs, item_value_eq hfs, item_value_eq hgs, Entry.untimed]

theorem categoryStats_blurred : categoryStats (.dict (plainItems (blurred timed t))) =
    categoryStats (.dict (plainItems t)) := by
  have hlength : (plainItems (blurred timed t)).length = (plainItems t).length := by
    simp [plainItems, blurred]
  have hvalues {α : Type} {f : Value → Except Fault α}
      (hf : ∀ fs gs e, Fields fs e → Fields gs e.untimed → f (.dict gs) = f (.dict fs)) :
      (values (plainItems (blurred timed t))).mapM f = (values (plainItems t)).mapM f := by
    rw [values, values, mapM_map, mapM_map]
    exact mapM_plainItems_blurred fun _ => hf
  unfold categoryStats
  simp only [Value.size, Value.table, hlength, bind, Except.bind, Functor.map, Except.map]
  rw [hvalues, hvalues, hvalues]
  · intro fs gs e hfs hgs
    rw [itemD_confidence_eq hfs, itemD_confidence_eq hgs]
    rfl
  · intro fs gs e hfs hgs
    rw [itemD_uses_eq hfs, itemD_uses_eq hgs]
    rfl
  · intro fs gs e hfs hgs
    rw [itemD_confidence_eq hfs, itemD_confidence_eq hgs]
    rfl

/-! ### Searches -/

def untimedHit (timed : String → Bool) : Value → Value
  | .dict fs =>
    match get? fs "key" with
    | some (.str key) => .dict (if timed key then fs else put fs "last_used" (.str ""))
    | _ => .dict fs
  | v => v

/-- The hits of a search without their times, unless their keys have one. -/
def untimedHits (timed : String → Bool) : Value → Value
  | .list hits => .list (hits.map (untimedHit timed))
  | v => v

theorem rank_untimedHit (timed : String → Bool) (hit : Value) : rank (untimedHit timed hit) = rank hit := by
  cases hit with
  | dict fs =>
    rw [untimedHit]
    split
    · split_ifs
      · rfl
      · simp only [rank, Value.item, get?_put_of_ne, ne_eq, String.reduceEq, not_false_eq_true]
    · rfl
  | _ => rfl

theorem hit_untimed (timed : String → Bool) (key : String) (e : Entry) :
    (if timed key then e else e.untimed).hit key = untimedHit timed (e.hit key) := by
  cases h : timed key <;> simp [untimedHit, Entry.hit, get?, h, put, Entry.untimed]

def look (query least : Value) (i : String × Value) : Except Fault (Option Value) := do
  if ← (← i.2.itemD "confidence" (.float 0.0)).relate .lt least then return none
  if ← fits query i.1 i.2 then return some (← found i.1 i.2) else return none

theorem matching_eq_look (query least : Value) (items : Table Value) :
    matching query least items = (items.mapM (look query least)).map (filterMap id) := by
  show (items.mapM (look query least) >>= fun hits => pure (hits.filterMap id)) = _
  cases items.mapM (look query least) <;> rfl

theorem look_untimed {query least : Value} {fs gs : Table Value} {e : Entry} (hfs : Fields fs e)
    (hgs : Fields gs (if timed key then e else e.untimed)) : look query least (key, .dict gs) =
      (look query least (key, .dict fs)).map (Option.map (untimedHit timed)) := by
  have hvalue : (if timed key then e else e.untimed).value = e.value := by split <;> rfl
  have hconfidence : (if timed key then e else e.untimed).confidence = e.confidence := by split <;> rfl
  have hfits : fits query key (.dict gs) = fits query key (.dict fs) := by
    simp only [fits, item_value_eq hfs, item_value_eq hgs, hvalue]
  simp only [look, itemD_confidence_eq hfs, itemD_confidence_eq hgs, hconfidence, hfits, found_eq hfs,
    found_eq hgs, hit_untimed]
  show (e.confidence.relate .lt least >>= _) = Except.map _ (e.confidence.relate .lt least >>= _)
  cases e.confidence.relate .lt least with
  | error f => rfl
  | ok less =>
    cases less
    · show (fits query key (.dict fs) >>= _) = Except.map _ (fits query key (.dict fs) >>= _)
      cases fits query key (.dict fs) with
      | error f => rfl
      | ok fit => cases fit <;> rfl
    · rfl

theorem matching_blurred (query least : Value) : matching query least (plainItems (blurred timed t)) =
    (matching query least (plainItems t)).map (map (untimedHit timed)) := by
  have heach : (plainItems (blurred timed t)).mapM (look query least) =
      ((plainItems t).mapM (look query least)).map (map (Option.map (untimedHit timed))) := by
    rw [plainItems, plainItems, blurred, map_map, mapM_map, mapM_map]
    refine mapM_eq_map (fun e => ?_) t
    obtain ⟨fs, hfs, hfields⟩ := fields_item e.2
    obtain ⟨gs, hgs, hfields'⟩ := fields_item (if timed e.1 then e.2 else e.2.untimed)
    simp only [Function.comp_apply, hfs, hgs]
    exact look_untimed hfields hfields'
  rw [matching_eq_look, matching_eq_look, heach]
  cases (plainItems t).mapM (look query least) with
  | error f => rfl
  | ok hits => simp [Except.map, filterMap_map, map_filterMap]

theorem bestMatches_blurred (query least limit : Value) : bestMatches query least limit (plainItems (blurred timed t)) =
      (bestMatches query least limit (plainItems t)).map (untimedHits timed) := by
  unfold bestMatches
  rw [matching_blurred]
  cases matching query least (plainItems t) with
  | error f => rfl
  | ok hits =>
    have hsort := Value.sortDescending_map (rank_untimedHit timed) hits
    show (Value.sortDescending rank (hits.map (untimedHit timed)) >>= _) = _
    rw [hsort]
    show _ = Except.map (untimedHits timed) (Value.sortDescending rank hits >>= _)
    cases Value.sortDescending rank hits with
    | error f => rfl
    | ok sorted =>
      show (limit.relate .gt (.int 0) >>= _) = Except.map (untimedHits timed) (limit.relate .gt (.int 0) >>= _)
      cases limit.relate .gt (.int 0) with
      | error f => rfl
      | ok b =>
        cases b
        · rfl
        · exact congrArg (fun hits => Except.ok (Value.list hits)) map_take.symm

end Blurred

/-! ### Sessions -/

/-- An answer without times: only the hits of a search have any. -/
def Request.untimed (timed : String → String → Bool) : Request → Value → Value
  | .search c _ _ _ => untimedHits (timed c)
  | _ => id

theorem reply_blurred (timed : String → String → Bool) (k : Shelves) (r : Request) :
    r.reply (fun c => blurred (timed c) (k c)) = (r.reply k).map (r.untimed timed) := by
  have hid {e e' : Except Fault Value} (h : e = e') : e = e'.map id := by
    rw [h]
    cases e' <;> rfl
  cases r with
  | search c query least limit =>
    rw [reply, reply, bestMatches_blurred]
    cases checkCategory c <;> rfl
  | retrieve c key other =>
    refine hid ?_
    rw [reply, reply, get?_blurred]
    cases (k c).get? key with
    | none => rfl
    | some e => cases timed c key <;> rfl
  | getAll c least => exact hid (by rw [reply, reply, valuesFrom_blurred])
  | remove c key =>
    refine hid ?_
    rw [reply, reply, has, get?_blurred, Option.isSome_map, has]
  | stats => exact hid (by simp only [reply, categoryStats_blurred])
  | store c key value confidence notes => exact hid rfl
  | sync => rfl
  | advance dt => rfl
  | reopen => rfl

def Request.isReopen : Request → Bool
  | .reopen => true
  | _ => false

def Request.touches (c key : String) : Request → Bool
  | .store c' key' _ _ _ => c' == c && key' == key
  | .retrieve c' key' _ => c' == c && key' == key
  | _ => false

/-- Whether a key was used since the memory was last opened. -/
def recent (rs : List Request) (c key : String) : Bool :=
  (rs.rtakeWhile fun r => !r.isReopen).any (touches c key)

theorem recent_concat (rs : List Request) (h : r.isReopen = false) (c key : String) :
    recent (rs ++ [r]) c key = (recent rs c key || r.touches c key) := by
  rw [recent, rtakeWhile_concat_pos _ _ _ (by simp [h]), any_append]
  simp [recent]

theorem recent_reopen (rs : List Request) (c key : String) : recent (rs ++ [.reopen]) c key = false := by
  rw [recent, rtakeWhile_concat_neg _ _ _ (by simp [isReopen])]
  rfl

/-- A confidence that a column of doubles keeps as it is. -/
def Exact (v : Value) : Prop := realCell 5 v = .ok v

theorem Exact.reread {v : Value} (h : Exact v) : Backend.database.reread v = v := by
  rw [Backend.reread, show realCell 5 v = .ok v from h]
  rfl

/-- Confidences that are kept as they are can be saved to a database. -/
theorem Request.Plain.of_exact (h : r.Plain .files) (hexact : ∀ v ∈ r.confidence?, Exact v) : r.Plain .database := by
  cases r with
  | store c key value confidence notes =>
    obtain ⟨hvalue, hconfidence, hnumeric, hnotes⟩ := h
    exact ⟨hvalue, hconfidence, ⟨hnumeric.number, fun _ => ⟨confidence, hexact confidence rfl, rfl⟩⟩, hnotes⟩
  | _ => trivial

theorem exact_removedConfidence : Exact removedConfidence := rfl

section Effect

variable {k : Shelves} {rs : List Request} {r : Request} {c key : String}

theorem recent_of_not_touches (h : r.isReopen = false) (htouches : r.touches c key = false) :
    recent rs c key = recent (rs ++ [r]) c key := by
  rw [recent_concat rs h, htouches, Bool.or_false]

theorem blurred_recent_concat (h : r.isReopen = false) (htouches : ∀ key ∈ (k c).keys, r.touches c key = false) :
    blurred (recent rs c) (k c) = blurred (recent (rs ++ [r]) c) (k c) :=
  blurred_congr fun key hkey => recent_of_not_touches h (htouches key hkey)

theorem update_blurred (h : r.isReopen = false) (hnodup : ∀ c, (k c).keys.Nodup) {c' key' : String}
    (htouches : ∀ c key, r.touches c key = (c' == c && key' == key)) (e : Entry) :
    Function.update (fun c => blurred (recent rs c) (k c)) c' ((blurred (recent rs c') (k c')).put key' e) =
      fun c => blurred (recent (rs ++ [r]) c) (Function.update k c' ((k c').put key' e) c) := by
  funext c
  by_cases hc : c = c'
  · subst hc
    rw [Function.update_self, Function.update_self]
    refine (blurred_put_timed ?_ (fun j hj => ?_) (hnodup c) e).symm
    · rw [recent_concat rs h, htouches]
      simp
    · refine (recent_of_not_touches h ?_).symm
      rw [htouches]
      simp [Ne.symm hj]
  · rw [Function.update_of_ne hc, Function.update_of_ne hc]
    refine blurred_recent_concat h fun key _ => ?_
    rw [htouches]
    simp [Ne.symm hc]

/-- A request does the same to shelves with a part of the times. -/
theorem effect_blurred (hnodup : ∀ c, (k c).keys.Nodup) (hexact : ∀ c, ∀ e ∈ k c, Exact e.2.confidence)
    (rs : List Request) (r : Request) (t : Float) :
    r.effect .database t (fun c => blurred (recent rs c) (k c)) =
      fun c => blurred (recent (rs ++ [r]) c) (r.effect .files t k c) := by
  have hsame (hreopen : r.isReopen = false) (htouches : ∀ c key, r.touches c key = false) :
      (fun c => blurred (recent rs c) (k c)) = fun c => blurred (recent (rs ++ [r]) c) (k c) :=
    funext fun c => blurred_recent_concat hreopen fun key _ => htouches c key
  cases r with
  | store c' key' value confidence notes =>
    rw [effect, effect, get?_blurred]
    have hentry : ((((k c').get? key').map fun e => if recent rs c' key' then e else e.untimed).elim
        (Entry.first (stamp t) value confidence notes) (·.renewed (stamp t) value confidence notes)) =
        ((k c').get? key').elim (Entry.first (stamp t) value confidence notes)
          (·.renewed (stamp t) value confidence notes) := by
      cases (k c').get? key' with
      | none => rfl
      | some e => cases recent rs c' key' <;> rfl
    rw [hentry]
    exact update_blurred rfl hnodup (fun _ _ => rfl) _
  | retrieve c' key' other =>
    rw [effect, effect, get?_blurred]
    cases hentry : (k c').get? key' with
    | none =>
      funext c
      refine blurred_recent_concat rfl fun key hkey => ?_
      show (c' == c && key' == key) = false
      by_contra hboth
      obtain ⟨rfl, rfl⟩ : c' = c ∧ key' = key := by simpa using hboth
      rw [← has_iff_mem_keys, has, hentry] at hkey
      cases hkey
    | some e =>
      have hused : (if recent rs c' key' then e else e.untimed).used (stamp t) = e.used (stamp t) := by
        cases recent rs c' key' <;> rfl
      rw [Option.map_some, Option.elim_some, hused]
      exact update_blurred rfl hnodup (fun _ _ => rfl) _
  | remove c' key' =>
    rw [effect, effect, get?_blurred]
    cases hentry : (k c').get? key' with
    | none => exact hsame rfl fun _ _ => rfl
    | some e =>
      funext c
      have hrecent (c key : String) : recent (rs ++ [.remove c' key']) c key = recent rs c key :=
        (recent_of_not_touches rfl rfl).symm
      rw [Option.map_some, Option.elim_some, Option.elim_some, funext (hrecent c)]
      by_cases hc : c = c'
      · subst hc
        rw [Function.update_self, Function.update_self, blurred_put]
        cases recent rs c key' <;> rfl
      · rw [Function.update_of_ne hc, Function.update_of_ne hc]
  | reopen =>
    funext c
    show rereadAll .database (blurred (recent rs c) (k c)) =
      blurred (recent (rs ++ [.reopen]) c) (rereadAll .files (k c))
    simp only [rereadAll, blurred, map_map]
    refine map_congr_left fun e he => ?_
    simp only [Function.comp_apply, recent_reopen, Bool.false_eq_true, if_false, Prod.mk.injEq, true_and]
    have hkept := (hexact c e he).reread
    cases recent rs c e.1 <;> simp [Entry.reread, Entry.untimed, hkept]
  | search c' query least limit => exact hsame rfl fun _ _ => rfl
  | getAll c' least => exact hsame rfl fun _ _ => rfl
  | stats => exact hsame rfl fun _ _ => rfl
  | sync => exact hsame rfl fun _ _ => rfl
  | advance dt => exact hsame rfl fun _ _ => rfl

end Effect

theorem course_blurred (hrs : ∀ r ∈ rs, ∀ v ∈ r.confidence?, Exact v) (t : Float) :
    (∀ c, (keys (course .files rs t (fun _ => []) c)).Nodup) ∧
    (∀ c, ∀ e ∈ course .files rs t (fun _ => []) c, Exact e.2.confidence) ∧ course .database rs t (fun _ => []) =
        fun c => blurred (recent rs c) (course .files rs t (fun _ => []) c) := by
  induction rs using reverseRecOn with
  | nil => exact ⟨fun _ => nodup_nil, fun _ e he => (by cases he), rfl⟩
  | append_singleton rs r ih =>
    obtain ⟨hnodup, hexact, hcourse⟩ := ih fun r hr => hrs r (mem_append_left _ hr)
    have hr := hrs r (by simp)
    have hreread (v : Value) (hv : Exact v) : Exact (Backend.files.reread v) := hv
    rw [course_concat, course_concat, hcourse]
    exact ⟨nodup_effect hnodup r .files _, forall_confidence_effect exact_removedConfidence hreread hexact hr _,
      effect_blurred hnodup hexact rs r _⟩

theorem Few.course {b : Backend} {n : Nat} {k : Shelves} (h : Few b (n + rs.length) k)
    (t : Float) : Few b n (Memory.course b rs t k) := by
  induction rs generalizing k t with
  | nil => exact h
  | cons r rs ih => exact ih (h.effect t r) _

/-- Open a memory, serve a session, and answer one more request. -/
def ask (b : Backend) (directory : String) (rs : List Request) (r : Request) : Job Value := do
  let s ← Store.open directory b
  Task.from_ s do
    serve rs
    r.answer

theorem perform_ask (b : Backend) {directory : String} {w : World} (hempty : Empty w.disk directory)
    (hrs : ∀ r' ∈ rs ++ [r], r'.Plain b)
    (hcount : (rs ++ [r]).length < b.countLimit) :
    ((ask b directory rs r).perform w).1 = r.reply (course b rs w.clock fun _ => []) := by
  obtain ⟨s₀, w₀, hopen, hknows, hclock⟩ := hempty.exists_knows b
  have hfew : Few b (1 + rs.length) fun _ => [] := by
    intro c _
    rw [length_append, length_singleton] at hcount
    simp only [shelfUses, map_nil, sum_nil]
    omega
  obtain ⟨s, w₁, hserve, hknows', -⟩ := hknows.serve (hfew.mono (Nat.le_add_left _ 1))
    fun r' hr' => hrs r' (mem_append_left _ hr')
  obtain ⟨s', w₂, hanswer, -⟩ := hknows'.answer (hfew.course w₀.clock) (hrs r (by simp))
  rw [ask, bind_of_ok hopen, Task.perform_from, bind_of_ok hserve, hanswer, hclock]

/-- The answers of a memory with a database are those of one with files, but for the times of the keys that
were not used since the memory was last opened. -/
theorem backends_agree_but_for_times {directory directory' : String} {w w' : World}
    (hempty : Empty w.disk directory) (hempty' : Empty w'.disk directory') (hclock : w'.clock = w.clock)
    {rs : List Request} {r : Request} (hrs : ∀ r' ∈ rs ++ [r], r'.Plain .files)
    (hexact : ∀ r' ∈ rs ++ [r], ∀ v ∈ r'.confidence?, Exact v)
    (hcount : (rs ++ [r]).length < Backend.database.countLimit) :
    ((ask .database directory' rs r).perform w').1 =
      ((ask .files directory rs r).perform w).1.map (r.untimed (recent rs)) := by
  have hplain : ∀ r' ∈ rs ++ [r], r'.Plain .database := fun r' hr' => (hrs r' hr').of_exact (hexact r' hr')
  obtain ⟨-, -, hcourse⟩ := course_blurred (fun r' hr' => hexact r' (List.mem_append_left _ hr')) w.clock
  have hfiles := hcount.trans_le (countLimit_database_le .files)
  rw [perform_ask .database hempty' hplain hcount, perform_ask .files hempty hrs hfiles, hclock, hcourse, reply_blurred]

def timesIn (answer : Except Fault Value) : List String :=
  (answer.toOption.getD .null).asList.map fun hit => hit.textD "last_used" "never"

theorem stamp_ne_empty (clock : Float) : stamp clock ≠ "" := by
  intro h
  have hlength := congrArg String.length h
  simp [stamp, Calendar.isoText, String.length_append] at hlength

def reopenedSession : List Request :=
  [.store "code_templates" "loop" (.str "for") (.float 0.9) none, .reopen]

def templateSearch : Request := .search "code_templates" .null (.float 0.0) (.int 10)

theorem times_lost_in_reopenedSession : (∀ r ∈ reopenedSession ++ [templateSearch], r.Plain .files) ∧
    (∀ r ∈ reopenedSession ++ [templateSearch], ∀ v ∈ r.confidence?, Exact v) ∧
    timesIn ((ask .files "m" reopenedSession templateSearch).perform { disk := [("m", .directory)] }).1 =
      [stamp 1700000000.0] ∧
    timesIn ((ask .database "m" reopenedSession templateSearch).perform { disk := [("m", .directory)] }).1 =
      [""] ∧ stamp 1700000000.0 ≠ "" := by
  have hplain : ∀ r ∈ reopenedSession ++ [templateSearch], r.Plain .files := by
    simp only [reopenedSession, List.cons_append, List.nil_append, List.forall_mem_cons]
    exact ⟨⟨⟨rfl, rfl⟩, ⟨rfl, rfl⟩, numeric_float _ (by rintro ⟨⟩), fun _ h => by cases h⟩, trivial, trivial,
      fun _ h => by cases h⟩
  have hexact : ∀ r ∈ reopenedSession ++ [templateSearch], ∀ v ∈ r.confidence?, Exact v := by
    simp only [reopenedSession, List.cons_append, List.nil_append, List.forall_mem_cons]
    refine ⟨fun v h => ?_, fun v h => ?_, fun v h => ?_, fun r h => ?_⟩
    · cases h
      rfl
    · cases h
    · cases h
    · cases h
  have hcount : (reopenedSession ++ [templateSearch]).length < Backend.database.countLimit := by decide
  have hfiles := hcount.trans_le (countLimit_database_le .files)
  have hempty : Empty (World.disk { disk := [("m", .directory)] }) "m" := empty_directory
  have hsame := backends_agree_but_for_times hempty hempty rfl hplain hexact hcount
  rw [perform_ask .files hempty hplain hfiles] at hsame ⊢
  refine ⟨hplain, hexact, by with_unfolding_all rfl, ?_, stamp_ne_empty _⟩
  rw [hsame]
  with_unfolding_all rfl

end Memory

end GzLang
