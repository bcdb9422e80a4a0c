import GzLang.Proofs.CollectiveThrottle

/-!
# Which calls a learning counts

A learning is saved when it is added first. When it is added again it is counted in memory only, so the
calls since the last save are lost when the collective memory is made anew (`Calls`). A learning counts the
calls that are left, and the last of them is when it was seen last (`learnings_count_calls`).
-/

namespace GzLang.Collective

open GzLang.Action List

variable {id : String} {os : List Occasion} {e : Event}

abbrev Call := String × Float

def Event.call? (e : Event) : Option Call :=
  match e.deed with
  | .learned id _ _ => some (id, e.time)
  | .remade => none
  | .nothing => none

def calls (es : List Event) : List Call := es.filterMap Event.call?

def times (id : String) (cs : List Call) : List Float := (cs.filter fun c => c.1 = id).map Prod.snd

/-- The calls of a session: those that were saved, those since, and those that were lost. -/
structure Calls where
  filed : List Call := []
  pending : List Call := []
  lost : List Call := []

namespace Calls

def held (k : Calls) : List Call := k.filed ++ k.pending

def save (k : Calls) : Calls := { k with filed := k.held, pending := [] }

def add (k : Calls) (c : Call) : Calls :=
  if c.1 ∈ k.held.map Prod.fst then { k with pending := k.pending ++ [c] }
  else { k with filed := k.held ++ [c], pending := [] }

def restart (k : Calls) : Calls := { k with pending := [], lost := k.lost ++ k.pending }

def note (k : Calls) (e : Event) : Calls :=
  match e.deed with
  | .learned id _ _ => k.add (id, e.time)
  | .remade => k.restart
  | .nothing => k

def enter (k : Calls) (e : Event) : Calls :=
  if e.pushed.isSome then (k.note e).save else k.note e

end Calls

/-- The calls of a session, as they were saved and lost. -/
def callsOf (es : List Event) : Calls := es.foldl Calls.enter {}

theorem calls_concat (es : List Event) (e : Event) : calls (es ++ [e]) = calls es ++ e.call?.toList := by
  rw [calls, filterMap_append]
  cases h : e.call? <;> simp [calls, h]

theorem callsOf_concat (es : List Event) (e : Event) : callsOf (es ++ [e]) = (callsOf es).enter e := by
  rw [callsOf, foldl_append]
  rfl

/-! ### No call is forgotten -/

/-- What is counted are calls in their order, and what is not counted was lost. -/
structure Calls.Of (k : Calls) (cs : List Call) : Prop where
  sublist : k.held.Sublist cs
  perm : (k.held ++ k.lost).Perm cs

namespace Calls.Of

variable {k : Calls} {cs : List Call}

theorem save (h : k.Of cs) : k.save.Of cs := by
  have hheld : k.save.held = k.held := append_nil _
  exact ⟨hheld ▸ h.sublist, by rw [hheld]; exact h.perm⟩

theorem held_add (k : Calls) (c : Call) : (k.add c).held = k.held ++ [c] := by
  rw [Calls.add]
  split
  · exact (append_assoc ..).symm
  · exact append_nil _

theorem add (h : k.Of cs) (c : Call) : (k.add c).Of (cs ++ [c]) := by
  have hlost : (k.add c).lost = k.lost := by
    rw [Calls.add]
    split <;> rfl
  refine ⟨held_add k c ▸ h.sublist.append (List.Sublist.refl [c]), ?_⟩
  rw [held_add, hlost, append_assoc]
  refine (List.Perm.append_left k.held perm_append_comm).trans ?_
  rw [← append_assoc]
  exact h.perm.append_right [c]

theorem restart (h : k.Of cs) : k.restart.Of cs := by
  have hheld : k.restart.held = k.filed := append_nil _
  refine ⟨hheld ▸ (sublist_append_left k.filed k.pending).trans h.sublist, ?_⟩
  rw [hheld]
  refine List.Perm.trans ?_ h.perm
  show (k.filed ++ (k.lost ++ k.pending)).Perm (k.filed ++ k.pending ++ k.lost)
  rw [append_assoc]
  exact List.Perm.append_left k.filed perm_append_comm

theorem enter {es : List Event} (h : k.Of (calls es)) (e : Event) : (k.enter e).Of (calls (es ++ [e])) := by
  have hnote : (k.note e).Of (calls (es ++ [e])) := by
    rw [calls_concat, Calls.note, Event.call?]
    cases e.deed with
    | learned id kind data => exact h.add (id, e.time)
    | remade =>
      rw [Option.toList_none, append_nil]
      exact h.restart
    | nothing =>
      rw [Option.toList_none, append_nil]
      exact h
  rw [Calls.enter]
  split
  · exact hnote.save
  · exact hnote

end Calls.Of

theorem callsOf_calls (es : List Event) : (callsOf es).Of (calls es) := by
  induction es using reverseRecOn with
  | nil => exact ⟨List.Sublist.refl [], List.Perm.refl []⟩
  | append_singleton es e ih =>
    rw [callsOf_concat]
    exact ih.enter e

variable {cs : List Call}

/-- The calls of one learning are those that are counted and those that were lost. -/
theorem Calls.Of.length_times {k : Calls} (h : k.Of cs) (id : String) :
    (times id k.held).length + (times id k.lost).length = (times id cs).length := by
  have hlength := (h.perm.filter fun c => c.1 = id).length_eq
  simp only [times, length_map]
  rw [← hlength, filter_append, length_append]

theorem Calls.Of.times_eq {k : Calls} (h : k.Of cs) (hlost : times id k.lost = []) : times id k.held = times id cs := by
  have hlength := h.length_times id
  rw [hlost, length_nil, Nat.add_zero] at hlength
  exact ((h.sublist.filter _).map Prod.snd).eq_of_length hlength

/-! ### What a ledger counts -/

structure Counts (l : Ledger) (cs : List Call) : Prop where
  known : ∀ id, l.learnings.has id = true ↔ id ∈ cs.map Prod.fst
  counted : ∀ id e, l.learnings.get? id = some e →
    e.frequency = (times id cs).length ∧ some e.lastSeen = (times id cs).getLast?

theorem times_concat (id : String) (cs : List Call) (c : Call) :
    times id (cs ++ [c]) = if c.1 = id then times id cs ++ [c.2] else times id cs := by
  rw [times, filter_append, map_append]
  split
  · rename_i h
    simp [times, h]
  · rename_i h
    simp [times, h]

namespace Counts

variable {l : Ledger} {cs : List Call}

theorem empty : Counts {} [] where
  known id := by simp [Table.has]
  counted id e h := by cases h

theorem see (h : Counts l cs) (hknown : l.learnings.has id) (now : Float) :
    Counts (l.see id now) (cs ++ [(id, now)]) := by
  obtain ⟨e, he⟩ := Option.isSome_iff_exists.1 hknown
  have hsee : (l.see id now).learnings = l.learnings.put id (e.again now) := by rw [Ledger.see, he]
  refine ⟨fun id' => ?_, fun id' e' he' => ?_⟩
  · rw [hsee, has_put, h.known, map_append, mem_append, or_comm]
    simp
  · rw [hsee] at he'
    rw [times_concat]
    by_cases hid : id = id'
    · subst hid
      rw [Table.get?_put_self] at he'
      cases he'
      rw [if_pos rfl]
      refine ⟨?_, by simp [Learning.again]⟩
      rw [length_append, ← (h.counted id e he).1]
      rfl
    · rw [Table.get?_put_of_ne _ hid] at he'
      rw [if_neg hid]
      exact h.counted id' e' he'

theorem know (h : Counts l cs) (hnew : l.learnings.has id = false) (kind data : Value)
    (now : Float) : Counts (l.know id kind data now) (cs ++ [(id, now)]) := by
  have hknow : (l.know id kind data now).learnings = l.learnings.put id ⟨kind, data, 1, now, now⟩ := rfl
  have hnone : times id cs = [] := by
    have hnot : id ∉ cs.map Prod.fst := fun hmem => by
      rw [(h.known id).2 hmem] at hnew
      cases hnew
    rw [times, map_eq_nil_iff, filter_eq_nil_iff]
    intro c hc heq
    exact hnot (mem_map.2 ⟨c, hc, by simpa using heq⟩)
  refine ⟨fun id' => ?_, fun id' e' he' => ?_⟩
  · rw [hknow, has_put, h.known, map_append, mem_append, or_comm]
    simp
  · rw [hknow] at he'
    rw [times_concat]
    by_cases hid : id = id'
    · subst hid
      rw [Table.get?_put_self] at he'
      cases he'
      rw [if_pos rfl, hnone]
      exact ⟨rfl, rfl⟩
    · rw [Table.get?_put_of_ne _ hid] at he'
      rw [if_neg hid]
      exact h.counted id' e' he'

theorem reread (h : Counts l cs) : Counts l.reread cs := by
  refine ⟨fun id => ?_, fun id e he => ?_⟩
  · rw [Ledger.reread, Table.has_map]
    exact h.known id
  · rw [Ledger.reread, Table.get?_map] at he
    obtain ⟨e, hget, rfl⟩ := Option.map_eq_some_iff.1 he
    exact h.counted id e hget

end Counts

/-- The ledgers in memory and on file count the calls that are counted and those that were saved. -/
structure Counted (b : Books) (k : Calls) : Prop where
  memory : Counts b.ledger k.held
  file : Counts (b.filed.getD {}) k.filed

section

variable {b : Books} {k : Calls}

theorem Counted.learn (h : Counted b k) (id : String) (kind data : Value) (now : Float) :
    Counted (b.learn id kind data now) (k.add (id, now)) := by
  have hheld := Calls.Of.held_add k (id, now)
  have hiff := h.memory.known id
  by_cases hknown : b.ledger.learnings.has id
  · rw [Books.learn, if_pos hknown]
    refine ⟨hheld ▸ h.memory.see hknown now, ?_⟩
    rw [Calls.add, if_pos (hiff.1 hknown)]
    exact h.file
  · have hcounts := h.memory.know (Bool.eq_false_iff.2 hknown) kind data now
    rw [Books.learn, if_neg hknown]
    refine ⟨hheld ▸ hcounts, ?_⟩
    rw [Calls.add, if_neg (mt hiff.2 hknown)]
    exact hcounts

theorem Counted.restart (h : Counted b k) (hrecovered : recovered b.filed = (b.filed.getD {}).reread) :
    Counted b.restart k.restart := by
  refine ⟨?_, h.file⟩
  show Counts (recovered b.filed) (k.filed ++ [])
  rw [hrecovered, append_nil]
  exact h.file.reread

theorem Counted.enter (h : Counted b k) (hrecovered : recovered b.filed = (b.filed.getD {}).reread)
    (e : Event) : Counted (b.enter e) (k.enter e) := by
  have hnote : Counted (b.note e) (k.note e) := by
    rw [Books.note, Calls.note]
    cases e.deed with
    | learned id kind data => exact h.learn id kind data e.time
    | remade => exact h.restart hrecovered
    | nothing => exact h
  rw [Books.enter, Books.attempt, Calls.enter]
  cases e.pushed with
  | none => exact hnote
  | some files =>
    -- a push changes no learning
    have hmemory : Counts ((b.note e).ledger.push e.time (b.note e).counters.improvements) (k.note e).held :=
      ⟨hnote.memory.known, hnote.memory.counted⟩
    refine ⟨?_, hmemory⟩
    show Counts _ ((k.note e).held ++ [])
    rw [append_nil]
    exact hmemory

end

/-! ### Sessions -/

variable {s : Settings} {w : World}

theorem counted_of_session (hw : Stands s none w.disk) (hos : ∀ o ∈ os, o.Proper)
    (hplain : ∀ o ∈ os, o.IsPlain) (hcount : os.length < Value.countLimit) :
    Counted (booksOf (session s w os).1) (callsOf (session s w os).1) := by
  induction os using reverseRecOn with
  | nil => exact ⟨Counts.empty, Counts.empty⟩
  | append_singleton os o ih =>
    have hos' : ∀ o' ∈ os, o'.Proper := fun o' ho' => hos o' (mem_append_left _ ho')
    have hplain' : ∀ o' ∈ os, o'.IsPlain := fun o' ho' => hplain o' (mem_append_left _ ho')
    have hcount' : os.length < Value.countLimit := by
      rw [length_append] at hcount
      omega
    have haccounts := accounts_of_session hw hos' hplain' hcount'
    rw [session_concat, booksOf_concat, callsOf_concat]
    exact (ih hos' hplain' hcount').enter (haccounts.recovered (by rwa [length_session])) _

theorem answer_of_session (hw : Stands s none w.disk) (hos : ∀ o ∈ os, o.Proper) (he : e ∈ (session s w os).1)
    {kind data : Value} (hrequest : e.request = .add kind data) :
    e.answer = .ok (identifier (learningId data)) := by
  induction os using reverseRecOn with
  | nil => cases he
  | append_singleton os o ih =>
    have hos' : ∀ o' ∈ os, o'.Proper := fun o' ho' => hos o' (mem_append_left _ ho')
    rw [session_concat, mem_append, mem_singleton] at he
    rcases he with he | rfl
    · exact ih hos' he
    · exact (acted_of_session hw hos' (hos o (by simp))).answer kind data hrequest

/-- A learning is known by the digest of its data. It counts the calls that added it, but for those that
were lost: a call that added it again, behind which nothing was saved before the collective memory was made
anew. The last call that is counted is when it was seen last. -/
theorem learnings_count_calls (hw : Stands s none w.disk) {os : List Occasion} (hos : ∀ o ∈ os, o.Proper)
    (hplain : ∀ o ∈ os, o.IsPlain) (hcount : os.length < Value.countLimit) :
    let es := (session s w os).1
    let k := callsOf es
    (∀ e ∈ es, ∀ kind data, e.request = .add kind data → e.answer = .ok (identifier (learningId data))) ∧
      ∃ items : Table Value, (session s w os).2.1.memory.get? "collective_learnings" = some (.dict items) ∧
        ∀ id, (items.has id = true ↔ id ∈ ids es) ∧ ∀ item, items.get? id = some item →
          (times id k.held).length + (times id k.lost).length = (times id (calls es)).length ∧
          (times id k.lost = [] → times id k.held = times id (calls es)) ∧
          item.item "frequency" = .ok (.int (times id k.held).length) ∧
          ∃ t, (times id k.held).getLast? = some t ∧ item.item "last_seen" = .ok (.float t) := by
  obtain ⟨hstate, -⟩ := books_of_session hw hos
  have htells := (accounts_of_session hw hos hplain hcount).memory
  have hcounts := (counted_of_session hw hos hplain hcount).memory
  have hof := callsOf_calls (session s w os).1
  intro es k
  refine ⟨fun e he kind data => answer_of_session hw hos he, (booksOf es).ledger.items, ?_, fun id =>
    ⟨?_, fun item hitem => ⟨hof.length_times id, hof.times_eq, ?_⟩⟩⟩
  · rw [hstate]
    rfl
  · rw [← htells.known, Ledger.items, Table.has_map]
  · rw [Ledger.items, Table.get?_map] at hitem
    obtain ⟨x, hx, rfl⟩ := Option.map_eq_some_iff.1 hitem
    obtain ⟨hfrequency, hlast⟩ := hcounts.counted id x hx
    refine ⟨?_, x.lastSeen, hlast.symm, rfl⟩
    rw [← hfrequency]
    rfl

/-- The calls since the last save are lost where the collective memory is made anew, and nothing is called. -/
theorem calls_of_remade (es : List Event) (hdeed : e.deed = .remade) (hpushed : e.pushed = none) :
    (callsOf (es ++ [e])).held = (callsOf es).filed ∧ calls (es ++ [e]) = calls es ∧ ids (es ++ [e]) = ids es := by
  rw [callsOf_concat, Calls.enter, hpushed, Calls.note, hdeed, calls_concat, Event.call?, hdeed, ids_concat,
    Event.id?, hdeed]
  exact ⟨append_nil _, append_nil _, append_nil _⟩

theorem serve_reopen {b : Books} {p : State} (hright : b.Right s p.2.disk) :
    (Occasion.serve s { request := .reopen } p).1 = ⟨.reopen, p.2.clock + 0, .ok .null, [], none⟩ := by
  have hact : (Request.reopen.act s).perform (p.1, Occasion.meet { request := .reopen } p.2) =
      (.ok .null, (b.restart.collective s, Occasion.meet { request := .reopen } p.2)) :=
    bind_of_ok (perform_remake (hright.meet { request := .reopen }) p.1) _
  rw [Occasion.serve, hact]
  rfl

def twiceLearned : List Occasion := [.ofRule "semicolon", .ofRule "semicolon"]

/-- When the collective memory is made anew, the second call is not counted. -/
theorem second_call_is_lost :
    let os := twiceLearned ++ [{ request := .reopen }]
    let id := "147553253bffbcd216e3a8e911294b07"
    ∃ items : Table Value, ∃ item,
      (session Settings.eager {} os).2.1.memory.get? "collective_learnings" = some (.dict items) ∧
      items.get? id = some item ∧ item.item "frequency" = .ok (.int 1) ∧
      (times id (calls (session Settings.eager {} os).1)).length = 2 := by
  intro os id
  have hrules : ∀ o ∈ twiceLearned, o.Proper ∧ o.IsPlain := by
    simp only [twiceLearned, List.forall_mem_cons, List.not_mem_nil, false_implies, implies_true, and_true]
    exact ⟨⟨Occasion.proper_ofRule _, Occasion.isPlain_ofRule _⟩, Occasion.proper_ofRule _, Occasion.isPlain_ofRule _⟩
  have hall : ∀ o ∈ os, o.Proper ∧ o.IsPlain := by
    rw [List.forall_mem_append]
    refine ⟨hrules, fun o ho => ?_⟩
    rw [List.mem_singleton.1 ho]
    exact ⟨⟨fun _ h => (by cases h), fun _ h => absurd h List.not_mem_nil, List.nodup_nil⟩,
      fun _ _ h => (by cases h)⟩
  obtain ⟨-, items, hitems, hlearnings⟩ := learnings_count_calls (w := {}) Settings.stands_eager
    (fun o ho => (hall o ho).1) (fun o ho => (hall o ho).2) (by decide +kernel)
  -- what is seen of the last occasion is known, so only the first two are carried out
  obtain ⟨-, hright⟩ := books_of_session (w := {}) Settings.stands_eager fun o ho => (hrules o ho).1
  obtain ⟨hids, hfiled, htimes⟩ : id ∈ ids (session Settings.eager {} twiceLearned).1 ∧
      (times id (callsOf (session Settings.eager {} twiceLearned).1).filed).length = 1 ∧
      (times id (calls (session Settings.eager {} twiceLearned).1)).length = 2 := by decide +kernel
  have hevents : (session Settings.eager {} os).1 = (session Settings.eager {} twiceLearned).1 ++ [⟨.reopen,
      (session Settings.eager {} twiceLearned).2.2.clock + 0, .ok .null, [], none⟩] := by
    rw [session_concat, serve_reopen hright]
  obtain ⟨hheld, hcalls, hids'⟩ := calls_of_remade (session Settings.eager {} twiceLearned).1 (e := ⟨.reopen,
    (session Settings.eager {} twiceLearned).2.2.clock + 0, .ok .null, [], none⟩) rfl rfl
  rw [hevents] at hlearnings ⊢
  obtain ⟨hknown, hcounted⟩ := hlearnings id
  obtain ⟨item, hitem⟩ := Option.isSome_iff_exists.1 (hknown.2 (hids'.symm ▸ hids))
  obtain ⟨-, -, hfrequency, -⟩ := hcounted item hitem
  rw [hheld, hfiled] at hfrequency
  exact ⟨items, item, hitems, hitem, hfrequency, by rw [hcalls, htimes]⟩

end GzLang.Collective
