import GzLang.Proofs.CollectiveSession

/-!
# When pushes are attempted, and what a failed one leaves

The events of a session fall into those until the last push and those since. The new learnings are those
that were added since and not before (`freshSince`). If all learnings can be written, the ledger counts
them, in memory and on file (`Accounts`). So commands are issued by themselves only when enough time has
passed since the last push and enough was learned, and an attempt that fails changes nothing
(`push_attempts`).
-/

namespace GzLang.Collective

open List

def Event.id? (e : Event) : Option String :=
  match e.deed with
  | .learned id _ _ => some id
  | .remade => none
  | .nothing => none

def ids (es : List Event) : List String := es.filterMap Event.id?

def Event.isPushless (e : Event) : Bool := e.pushed.isNone

def untilPush (es : List Event) : List Event := es.rdropWhile Event.isPushless

def sincePush (es : List Event) : List Event := es.rtakeWhile Event.isPushless

/-- The number of learnings that were added since the last push and not before. -/
def freshSince (es : List Event) : Nat :=
  ((ids (sincePush es)).toFinset \ (ids (untilPush es)).toFinset).card

def timeOfPush? (es : List Event) : Option Float := (untilPush es).getLast?.map Event.time

section

variable {es : List Event} {e : Event}

theorem ids_concat (es : List Event) (e : Event) : ids (es ++ [e]) = ids es ++ e.id?.toList := by
  rw [ids, filterMap_append]
  cases h : e.id? <;> simp [ids, h]

theorem ids_split (es : List Event) : ids (untilPush es) ++ ids (sincePush es) = ids es := by
  rw [ids, ids, ← filterMap_append, untilPush, sincePush, rdropWhile_append_rtakeWhile]
  rfl

theorem sincePush_of_pushed (h : e.isPushless = false) : sincePush (es ++ [e]) = [] :=
  rtakeWhile_concat_neg _ _ _ (by simp [h])

theorem untilPush_of_pushed (h : e.isPushless = false) : untilPush (es ++ [e]) = es ++ [e] :=
  rdropWhile_concat_neg _ _ _ (by simp [h])

theorem sincePush_of_pushless (h : e.isPushless) : sincePush (es ++ [e]) = sincePush es ++ [e] :=
  rtakeWhile_concat_pos _ _ _ h

theorem untilPush_of_pushless (h : e.isPushless) : untilPush (es ++ [e]) = untilPush es := rdropWhile_concat_pos _ _ _ h

theorem freshSince_concat (h : e.isPushless) : freshSince (es ++ [e]) =
    if ∃ id, e.id? = some id ∧ id ∉ ids es then freshSince es + 1 else freshSince es := by
  rw [freshSince, freshSince, sincePush_of_pushless h, untilPush_of_pushless h, ids_concat]
  cases hid : e.id? with
  | none => simp
  | some id =>
    have hmem : id ∈ ids es ↔ id ∈ ids (untilPush es) ∨ id ∈ ids (sincePush es) := by
      rw [← ids_split es, mem_append]
    have hinsert : (ids (sincePush es) ++ (some id).toList).toFinset = insert id (ids (sincePush es)).toFinset := by
      ext x
      simp
    rw [hinsert]
    by_cases hknown : id ∈ ids es
    · have hnot : ¬ ∃ id', some id = some id' ∧ id' ∉ ids es := by
        rintro ⟨id', heq, hnew⟩
        cases heq
        exact hnew hknown
      rw [if_neg hnot]
      rcases hmem.1 hknown with huntil | hsince
      · rw [Finset.insert_sdiff_of_mem _ (mem_toFinset.2 huntil)]
      · rw [Finset.insert_eq_of_mem (mem_toFinset.2 hsince)]
    · rw [if_pos ⟨id, rfl, hknown⟩]
      obtain ⟨huntil, hsince⟩ := not_or.1 (mt hmem.2 hknown)
      rw [Finset.insert_sdiff_of_notMem _ (by simpa using huntil), Finset.card_insert_of_notMem]
      simp [hsince]

end

/-! ### What a ledger tells of a session -/

/-- A ledger that counts the new learnings of a session, and knows all of them and the last push. -/
structure Tells (es : List Event) (l : Ledger) : Prop where
  fresh : l.fresh = freshSince es
  lastPush : l.lastPush = timeOfPush? es
  known : ∀ id, l.learnings.has id = true ↔ id ∈ ids es

theorem Tells.empty : Tells [] {} where
  fresh := rfl
  lastPush := rfl
  known id := by simp [Table.has, ids]

/-- The ledgers in memory and on file tell of a session, and can be written. -/
structure Accounts (es : List Event) (b : Books) : Prop where
  memory : Tells es b.ledger
  file : Tells es (b.filed.getD {})
  memory_bounded : b.ledger.Bounded es.length
  file_bounded : (b.filed.getD {}).Bounded es.length
  improvements : b.counters.improvements ≤ es.length

section

variable {es : List Event} {e : Event} {l : Ledger} {b : Books}

theorem Tells.idle (h : Tells es l) (hpushless : e.isPushless) (hid : e.id? = none) : Tells (es ++ [e]) l where
  fresh := by
    have hnot : ¬ ∃ id, e.id? = some id ∧ id ∉ ids es := by simp [hid]
    rw [freshSince_concat hpushless, if_neg hnot, h.fresh]
  lastPush := by rw [timeOfPush?, untilPush_of_pushless hpushless, h.lastPush]; rfl
  known id := by rw [h.known, ids_concat, hid]; simp

theorem Tells.again (h : Tells es l) (hpushless : e.isPushless) {id : String} (hid : e.id? = some id)
    (hknown : id ∈ ids es) : Tells (es ++ [e]) l where
  fresh := by
    have hnot : ¬ ∃ id', e.id? = some id' ∧ id' ∉ ids es := by
      rintro ⟨id', heq, hnew⟩
      rw [hid] at heq
      cases heq
      exact hnew hknown
    rw [freshSince_concat hpushless, if_neg hnot, h.fresh]
  lastPush := by rw [timeOfPush?, untilPush_of_pushless hpushless, h.lastPush]; rfl
  known id' := by
    rw [h.known, ids_concat, hid, Option.toList_some, mem_append, mem_singleton]
    exact ⟨.inl, fun h => h.elim (fun h => h) fun heq => heq ▸ hknown⟩

theorem has_put (t : Table Learning) (id id' : String) (x : Learning) :
    (t.put id x).has id' ↔ id' = id ∨ t.has id' := by
  by_cases heq : id' = id
  · simp [heq, Table.has]
  · simp [heq, Table.has, Table.get?_put_of_ne t (Ne.symm heq)]

theorem Tells.see (h : Tells es l) (id : String) (now : Float) : Tells es (l.see id now) := by
  rw [Ledger.see]
  cases hget : l.learnings.get? id with
  | none => exact h
  | some x =>
    refine ⟨h.fresh, h.lastPush, fun id' => ?_⟩
    show (l.learnings.put id (x.again now)).has id' ↔ _
    rw [has_put, ← h.known]
    refine ⟨fun h => h.elim (fun heq => ?_) fun h => h, .inr⟩
    rw [heq, Table.has, hget]
    rfl

theorem Tells.know (h : Tells es l) (hpushless : e.isPushless) {id : String} (hid : e.id? = some id)
    (hnew : id ∉ ids es) (kind data : Value) (now : Float) : Tells (es ++ [e]) (l.know id kind data now) where
  fresh := by
    rw [freshSince_concat hpushless, if_pos ⟨id, hid, hnew⟩, ← h.fresh]
    rfl
  lastPush := by
    rw [timeOfPush?, untilPush_of_pushless hpushless]
    exact h.lastPush
  known id' := by
    show (l.learnings.put id _).has id' ↔ _
    rw [has_put, ids_concat, hid, Option.toList_some, mem_append, mem_singleton, h.known, or_comm]

theorem Tells.push {es' : List Event} (h : Tells es' l) (hids : ids (es ++ [e]) = ids es')
    (hpushed : e.isPushless = false) (improvements : Nat) : Tells (es ++ [e]) (l.push e.time improvements) where
  fresh := by
    rw [freshSince, sincePush_of_pushed hpushed]
    simp [Ledger.push, ids]
  lastPush := by
    rw [timeOfPush?, untilPush_of_pushed hpushed]
    simp [Ledger.push]
  known id := by
    rw [hids]
    exact h.known id

theorem Tells.reread (h : Tells es l) : Tells es l.reread := by
  refine ⟨h.fresh, h.lastPush, fun id => ?_⟩
  rw [Ledger.reread, Table.has_map]
  exact h.known id

def Event.IsPlain (e : Event) : Prop :=
  ∀ id kind data, e.deed = .learned id kind data → kind.fault? = none ∧ data.fault? = none

theorem Accounts.recovered (h : Accounts es b) (hcount : es.length < Value.countLimit) :
    Collective.recovered b.filed = (b.filed.getD {}).reread := by
  have hbounded := h.file_bounded
  cases hfiled : b.filed with
  | none => rfl
  | some l =>
    rw [hfiled, Option.getD_some] at hbounded
    rw [Collective.recovered, hbounded.fault? hcount]
    rfl

/-- The books after a request account for the session with the request, but for a push. -/
theorem Accounts.note (h : Accounts es b) (hcount : es.length < Value.countLimit) (hplain : e.IsPlain)
    {e₀ : Event} (hid : e₀.id? = e.id?) (hpushless : e₀.isPushless) :
    Accounts (es ++ [e₀]) (b.note e) := by
  have hlength : (es ++ [e₀]).length = es.length + 1 := by simp
  have hle := Nat.le_succ es.length
  rw [Books.note]
  cases hdeed : e.deed with
  | learned id kind data =>
    obtain ⟨hkind, hdata⟩ := hplain id kind data hdeed
    have hsome : e₀.id? = some id := by rw [hid, Event.id?, hdeed]
    show Accounts (es ++ [e₀]) (b.learn id kind data e.time)
    rw [Books.learn]
    by_cases hknown : b.ledger.learnings.has id
    · rw [if_pos hknown]
      have hmem := (h.memory.known id).1 hknown
      refine ⟨(h.memory.again hpushless hsome hmem).see id e.time, h.file.again hpushless hsome hmem,
        ?_, ?_, ?_⟩ <;> rw [hlength]
      · exact h.memory_bounded.see id e.time
      · exact h.file_bounded.mono hle
      · exact h.improvements.trans hle
    · rw [if_neg hknown]
      have htells := h.memory.know hpushless hsome (mt (h.memory.known id).2 hknown) kind data e.time
      have hbounded := h.memory_bounded.know id hkind hdata e.time
      refine ⟨htells, htells, ?_, ?_, ?_⟩ <;> rw [hlength]
      · exact hbounded
      · exact hbounded
      · exact Nat.succ_le_succ h.improvements
  | remade =>
    have hnone : e₀.id? = none := by rw [hid, Event.id?, hdeed]
    have hidle := h.file.idle hpushless hnone
    have hbounded := h.file_bounded.mono hle
    have hledger : b.restart.ledger = (b.filed.getD {}).reread := h.recovered hcount
    show Accounts (es ++ [e₀]) b.restart
    refine ⟨?_, hidle, ?_, ?_, Nat.zero_le _⟩
    · rw [hledger]
      exact hidle.reread
    · rw [hledger, hlength]
      exact hbounded.reread
    · rw [hlength]
      exact hbounded
  | nothing =>
    have hnone : e₀.id? = none := by rw [hid, Event.id?, hdeed]
    refine ⟨h.memory.idle hpushless hnone, h.file.idle hpushless hnone, ?_, ?_, ?_⟩ <;> rw [hlength]
    · exact h.memory_bounded.mono hle
    · exact h.file_bounded.mono hle
    · exact h.improvements.trans hle

theorem Accounts.enter (h : Accounts es b) (hcount : es.length < Value.countLimit) (hplain : e.IsPlain) :
    Accounts (es ++ [e]) (b.enter e) := by
  rw [Books.enter, Books.attempt]
  cases hpushed : e.pushed with
  | none => exact h.note hcount hplain rfl (by rw [Event.isPushless, hpushed]; rfl)
  | some files =>
    -- first the request as if nothing had been pushed, then the push
    have hnote : Accounts (es ++ [{ e with pushed := none }]) (b.note e) := h.note hcount hplain rfl rfl
    have hids : ids (es ++ [e]) = ids (es ++ [{ e with pushed := none }]) := by
      rw [ids_concat, ids_concat]
      rfl
    have hpushless : e.isPushless = false := by rw [Event.isPushless, hpushed]; rfl
    have hlength : (es ++ [e]).length = (es ++ [{ e with pushed := none }]).length := by simp
    have htells := hnote.memory.push hids hpushless (b.note e).counters.improvements
    have hbounded := hnote.memory_bounded.push e.time hnote.improvements
    rw [← hlength] at hbounded
    exact ⟨htells, htells, hbounded, hbounded, hlength ▸ hnote.improvements⟩

end

/-! ### Sessions -/

def Occasion.IsPlain (o : Occasion) : Prop :=
  ∀ kind data, o.request = .add kind data → kind.fault? = none

theorem fault?_of_learningId {data : Value} {id : String} (h : learningId data = .ok id) : data.fault? = none := by
  have hdump := (Json.parse_dump .line data).1
  cases hfault : data.fault? with
  | none => rfl
  | some f =>
    have hpair : Json.dump .line data = (.error f, (Json.dump .line data).2) :=
      Prod.ext (by rw [hdump, hfault]; rfl) rfl
    have hrender : Json.render .line data = .error f := by rw [Json.render, hpair]
    rw [learningId, hrender] at h
    cases h

variable {s : Settings} {w : World}

theorem isPlain_serve {b : Books} {p : State} (hstate : p.1 = b.collective s) (hright : b.Right s p.2.disk)
    {o : Occasion} (ho : o.Proper) (hplain : o.IsPlain) : (o.serve s p).1.IsPlain := by
  intro id kind data hdeed
  obtain ⟨hrequest, hanswer⟩ := Event.add_of_deed hdeed
  have hacted := (Occasion.acted_serve hstate hright ho).answer kind data hrequest
  refine ⟨hplain kind data hrequest, ?_⟩
  cases hid : learningId data with
  | ok id' => exact fault?_of_learningId hid
  | error f =>
    rw [hid] at hacted
    have hnull := hacted.symm.trans hanswer
    cases hnull

theorem length_session (os : List Occasion) : (session s w os).1.length = os.length := by
  induction os using reverseRecOn with
  | nil => rfl
  | append_singleton os o ih => rw [session_concat, length_append, length_append, ih]; rfl

theorem accounts_of_session (hw : Stands s none w.disk) {os : List Occasion} (hos : ∀ o ∈ os, o.Proper)
    (hplain : ∀ o ∈ os, o.IsPlain) (hcount : os.length < Value.countLimit) :
    Accounts (session s w os).1 (booksOf (session s w os).1) := by
  induction os using reverseRecOn with
  | nil => exact ⟨Tells.empty, Tells.empty, Ledger.Bounded.empty _, Ledger.Bounded.empty _, Nat.zero_le _⟩
  | append_singleton os o ih =>
    have hos' : ∀ o' ∈ os, o'.Proper := fun o' ho' => hos o' (mem_append_left _ ho')
    have hplain' : ∀ o' ∈ os, o'.IsPlain := fun o' ho' => hplain o' (mem_append_left _ ho')
    have hcount' : os.length < Value.countLimit := by
      rw [length_append] at hcount
      omega
    obtain ⟨hstate, hright⟩ := books_of_session hw hos'
    have hevent := isPlain_serve hstate hright (hos o (by simp)) (hplain o (by simp))
    rw [session_concat, booksOf_concat]
    exact (ih hos' hplain' hcount').enter (by rwa [length_session]) hevent

/-- The count of improvements is the number of new learnings since the last push. Adding a learning issues
commands only when it is new, enough time has passed since the last push, and enough was learned since.
After an attempt that fails, the collective memory and its file are as if it had not been made. -/
theorem push_attempts (hw : Stands s none w.disk) {os : List Occasion} (hos : ∀ o ∈ os, o.Proper)
    (hplain : ∀ o ∈ os, o.IsPlain) (hcount : os.length < Value.countLimit) {o : Occasion} (ho : o.Proper) :
    let es := (session s w os).1
    let p := (session s w os).2
    let e := (o.serve s p).1
    let q := (o.serve s p).2
    let q₀ := ((o.request.withoutPush s).perform (p.1, o.meet p.2)).2
    p.1.memory.get? "improvement_count" = some (.int (freshSince es)) ∧
      (∀ kind data, o.request = .add kind data → e.commands ≠ [] →
        ∃ id, e.id? = some id ∧ id ∉ ids es ∧ Due s (timeOfPush? es) (freshSince es + 1) e.time) ∧
      (e.pushed = none → q.1 = q₀.1 ∧ q.2.disk.get? s.path = q₀.2.disk.get? s.path) := by
  obtain ⟨hstate, hright⟩ := books_of_session hw hos
  have haccounts := (accounts_of_session hw hos hplain hcount).memory
  have hacted := acted_of_session hw hos ho
  intro es p e q q₀
  refine ⟨?_, fun kind data hrequest hissued => ?_, fun hnone => ?_⟩
  · show p.1.memory.get? "improvement_count" = _
    rw [hstate, ← haccounts.fresh]
    rfl
  · obtain ⟨id, hanswer, hnew, hdue⟩ := hacted.due kind data hrequest hissued
    rw [haccounts.lastPush, haccounts.fresh] at hdue
    have hid : e.id? = some id := by rw [Event.id?, Event.deed_of_add hrequest hanswer]
    refine ⟨id, hid, fun hmem => ?_, hdue⟩
    rw [(haccounts.known id).2 hmem] at hnew
    cases hnew
  · have hfailed := hacted.failed hnone
    rw [← hstate] at hfailed
    exact hfailed

theorem Occasion.isPlain_ofRule (name : String) : (Occasion.ofRule name).IsPlain := by
  rintro _ _ ⟨⟩
  rfl

/-- After two learnings a push is due. It fails, so both are still new. -/
theorem push_of_two_rules_fails :
    let p := (session Settings.eager {} [.ofRule "semicolon"]).2
    let e := ((Occasion.ofRule "brace").serve Settings.eager p).1
    let q := ((Occasion.ofRule "brace").serve Settings.eager p).2
    p.1.memory.get? "improvement_count" = some (.int 1) ∧ e.commands ≠ [] ∧ Due Settings.eager none 2 e.time ∧
      q.1 = (((Occasion.ofRule "brace").request.withoutPush Settings.eager).perform
        (p.1, (Occasion.ofRule "brace").meet p.2)).2.1 := by
  have hfresh : freshSince (session Settings.eager {} [.ofRule "semicolon"]).1 = 1 := by decide +kernel
  have htime : timeOfPush? (session Settings.eager {} [.ofRule "semicolon"]).1 = none :=
    Option.isNone_iff_eq_none.1 (by decide +kernel)
  have hissued : ((Occasion.ofRule "brace").serve Settings.eager
      (session Settings.eager {} [.ofRule "semicolon"]).2).1.commands ≠ [] := by decide +kernel
  have hfailed : ((Occasion.ofRule "brace").serve Settings.eager
      (session Settings.eager {} [.ofRule "semicolon"]).2).1.pushed = none :=
    Option.isNone_iff_eq_none.1 (by decide +kernel)
  have hproper : ∀ o ∈ [Occasion.ofRule "semicolon"], o.Proper := fun o ho =>
    List.mem_singleton.1 ho ▸ Occasion.proper_ofRule "semicolon"
  have hplain : ∀ o ∈ [Occasion.ofRule "semicolon"], o.IsPlain := fun o ho =>
    List.mem_singleton.1 ho ▸ Occasion.isPlain_ofRule "semicolon"
  have hcount : [Occasion.ofRule "semicolon"].length < Value.countLimit := by decide +kernel
  obtain ⟨hmemory, hdue, hsame⟩ := push_attempts (w := {}) Settings.stands_eager hproper hplain
    hcount (Occasion.proper_ofRule "brace")
  rw [hfresh] at hmemory
  rw [hfresh, htime] at hdue
  obtain ⟨id, -, -, hdue⟩ := hdue _ _ rfl hissued
  exact ⟨hmemory, hissued, hdue, (hsame hfailed).1⟩

end GzLang.Collective
