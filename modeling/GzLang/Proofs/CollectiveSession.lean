import GzLang.Proofs.CollectivePush
import GzLang.Proofs.Ranking

/-!
# Sessions with a collective memory

A session is a list of occasions: time passes, the shell answers in its own way from then on, and then a
learning is added, a push is forced, or the collective memory is made anew from its file. What can be seen
of an occasion is an event. The state after a session is told by books that are kept from the events
alone (`books_of_session`): the ledger in memory, the counters, and the ledger on file.
-/

namespace GzLang.Collective

open GzLang.Action

variable {o : Occasion}

inductive Request where
  | add (kind data : Value)
  | force
  | reopen

structure Occasion where
  wait : Float := 0
  failing : List String := []
  files : Table String := []
  secret : Option String := none
  request : Request

/-- The surroundings that a request meets. Every push clones into a directory that was not used before. -/
def Occasion.meet (o : Occasion) (w : World) : World :=
  { w with
    clock := w.clock + o.wait
    disk := w.disk.removeTree cloneDirectory
    shell := { failing := o.failing, cloned := o.files, token := o.secret } }

/-- The secret is a word, and the files of the repository can be cloned. -/
structure Occasion.Proper (o : Occasion) : Prop where
  secret : ∀ t, o.secret = some t → ' ' ∉ t.toList
  repository : IsRepository o.files

def remake (s : Settings) : Task Collective Unit := do
  let c ← Collective.open s.config
  Task.update fun _ => c

def Request.act (s : Settings) : Request → Task Collective Value
  | .add kind data => addLearning kind data
  | .force => do return .bool (← forceUpdate)
  | .reopen => do
    remake s
    return .null

def Request.withoutPush (s : Settings) : Request → Task Collective Unit
  | .add kind data =>
    let work : Task Collective Unit := do
      let id ← learningId data
      if ← (← learnings).has id then seeAgain id else addNew id kind data
    work.orElse fun _ => pure ()
  | .force => pure ()
  | .reopen => remake s

structure Event where
  request : Request
  time : Float
  answer : Except Fault Value
  commands : List String
  pushed : Option (Table String)

abbrev State := Collective × World

/-- The event of a request that was made in some surroundings, with its outcome. -/
def Request.event (r : Request) (w : World) (q : Except Fault Value × State) : Event where
  request := r
  time := w.clock
  answer := q.1
  commands := q.2.2.shell.issued
  pushed := q.2.2.shell.pushed

def Occasion.serve (s : Settings) (o : Occasion) (p : State) : Event × State :=
  let q := (o.request.act s).perform (p.1, o.meet p.2)
  (o.request.event (o.meet p.2) q, q.2)

def serveAll (s : Settings) (os : List Occasion) (p : State) : List Event × State :=
  os.foldl (fun q o => (q.1 ++ [(o.serve s q.2).1], (o.serve s q.2).2)) ([], p)

theorem serveAll_concat (s : Settings) (os : List Occasion) (o : Occasion) (p : State) : serveAll s (os ++ [o]) p =
      ((serveAll s os p).1 ++ [(o.serve s (serveAll s os p).2).1], (o.serve s (serveAll s os p).2).2) := by
  rw [serveAll, List.foldl_append]
  rfl

def session (s : Settings) (w : World) (os : List Occasion) : List Event × State :=
  serveAll s os ((remake s).perform (default, w)).2

/-! ### The books of a session -/

/-- What a request did, but for a push. -/
inductive Deed where
  | learned (id : String) (kind data : Value)
  | remade
  | nothing

def Event.deed (e : Event) : Deed :=
  match e.request, e.answer with
  | .add kind data, .ok (.str id) => .learned id kind data
  | .reopen, _ => .remade
  | _, _ => .nothing

theorem Event.deed_of_add {e : Event} {kind data : Value} {id : String} (hrequest : e.request = .add kind data)
    (hanswer : e.answer = .ok (.str id)) : e.deed = .learned id kind data := by
  rw [deed, hrequest, hanswer]

theorem Event.add_of_deed {e : Event} {kind data : Value} {id : String} (h : e.deed = .learned id kind data) :
    e.request = .add kind data ∧ e.answer = .ok (.str id) := by
  rcases e with ⟨request, time, answer, commands, pushed⟩
  cases request with
  | force => cases h
  | reopen => cases h
  | add kind data =>
    cases answer with
    | error f => cases h
    | ok v =>
      cases v with
      | str id =>
        cases h
        exact ⟨rfl, rfl⟩
      | null | bool _ | int _ | float _ | list _ | dict _ | tuple _ | statistic _ | object _ => cases h

structure Books where
  ledger : Ledger := {}
  counters : Counters := {}
  filed : Option Ledger := none

namespace Books

def collective (s : Settings) (b : Books) : Collective := ⟨s.options, b.ledger.memory, b.counters⟩

/-- A learning is counted if it is known; else it is put in the ledger, which is filed. -/
def learn (b : Books) (id : String) (kind data : Value) (now : Float) : Books :=
  if b.ledger.learnings.has id then { b with ledger := b.ledger.see id now }
  else
    { ledger := b.ledger.know id kind data now
      counters := { b.counters with improvements := b.counters.improvements + 1 }
      filed := some (b.ledger.know id kind data now) }

def push (b : Books) (now : Float) : Books where
  ledger := b.ledger.push now b.counters.improvements
  counters := { b.counters with pushes := b.counters.pushes + 1, lastPush := .float now }
  filed := some (b.ledger.push now b.counters.improvements)

def restart (b : Books) : Books where
  ledger := recovered b.filed
  filed := b.filed

def note (b : Books) (e : Event) : Books :=
  match e.deed with
  | .learned id kind data => b.learn id kind data e.time
  | .remade => b.restart
  | .nothing => b

def attempt (b : Books) (pushed : Option (Table String)) (now : Float) : Books :=
  if pushed.isSome then b.push now else b

def enter (b : Books) (e : Event) : Books := (b.note e).attempt e.pushed e.time

/-- The books are right: the file holds what is filed, and different learnings have different names. -/
structure Right (s : Settings) (b : Books) (d : Disk) : Prop where
  stands : Stands s b.filed d
  nodup : b.ledger.learnings.keys.Nodup

end Books

/-! ### Checking for a push -/

/-- It is time for a push: enough time has passed since the last one, and enough was learned. -/
structure Due (s : Settings) (lastPush : Option Float) (fresh : Nat) (now : Float) : Prop where
  waited : (Value.float (now - lastPush.getD 0)).relate .ge s.interval = .ok true
  learned : (Value.int fresh).relate .ge s.threshold = .ok true

section

variable {s : Settings} {l : Ledger} {k : Counters} {w : World}

theorem sub_pushTime (now : Float) (t : Option Float) :
    (Value.float now).sub (Ledger.pushTime t) = .ok (.float (now - t.getD 0)) := by
  cases t <;> rfl

theorem perform_isDue (now : Float) :
    ∃ b, (isDue now).perform (⟨s.options, l.memory, k⟩, w) = (.ok b, (⟨s.options, l.memory, k⟩, w)) ∧
      (b → Due s l.lastPush l.fresh now) := by
  have hlast : (part "last_update").perform (⟨s.options, l.memory, k⟩, w) =
      (.ok (Ledger.pushTime l.lastPush), (⟨s.options, l.memory, k⟩, w)) := rfl
  have hinterval : (option "update_interval").perform (⟨s.options, l.memory, k⟩, w) =
      (.ok s.interval, (⟨s.options, l.memory, k⟩, w)) := rfl
  have hfresh : (part "improvement_count").perform (⟨s.options, l.memory, k⟩, w) =
      (.ok (.int l.fresh), (⟨s.options, l.memory, k⟩, w)) := rfl
  have hthreshold : (option "improvement_threshold").perform (⟨s.options, l.memory, k⟩, w) =
      (.ok s.threshold, (⟨s.options, l.memory, k⟩, w)) := rfl
  obtain ⟨b₁, hwaited⟩ := Value.relate_of_numbers .ge (v := .float (now - l.lastPush.getD 0)) rfl s.interval_isNumber
  obtain ⟨b₂, hlearned⟩ := Value.relate_of_numbers .ge (v := .int l.fresh) rfl s.threshold_isNumber
  rw [isDue, bind_of_ok hlast, bind_lift (sub_pushTime now l.lastPush), bind_of_ok hinterval, bind_lift hwaited]
  cases b₁ with
  | false => exact ⟨false, rfl, fun h => absurd h (by simp)⟩
  | true =>
    rw [if_pos rfl, bind_of_ok hfresh, bind_of_ok hthreshold]
    refine ⟨b₂, ?_, fun h => ⟨hwaited, h ▸ hlearned⟩⟩
    rw [hlearned]
    rfl

end

/-! ### Attempts to push -/

structure Met (w : World) : Prop where
  issued : w.shell.issued = []
  pushed : w.shell.pushed = none
  secret : ∀ t, w.shell.token = some t → ' ' ∉ t.toList
  repository : IsRepository w.shell.cloned
  fresh : IsFresh w.disk

theorem Occasion.Proper.met (h : o.Proper) (w : World) : Met (o.meet w) := by
  refine ⟨rfl, rfl, h.secret, h.repository, fun name c => ?_⟩
  have hbelow : Disk.Below (Disk.key cloneDirectory) (cloneKey name) := by
    rw [cloneDirectory_eq, Disk.key_ofNames isName_of_mem_cloneNames]
    exact Disk.below_child _ _
  show Table.get? (w.disk.removeTree cloneDirectory) (cloneKey name) ≠ _
  rw [Disk.get?_removeTree, if_pos hbelow]
  simp

section

variable {s : Settings} {b : Books} {w : World}

theorem Books.Right.meet (h : b.Right s w.disk) (o : Occasion) : b.Right s (o.meet w).disk := by
  have hremoved : Disk.Beyond cloneNames w.disk (w.disk.removeTree cloneDirectory) := by
    rw [cloneDirectory_eq]
    exact Disk.beyond_removeTree isName_of_mem_cloneNames w.disk
  exact ⟨h.stands.beyond hremoved, h.nodup⟩

theorem cloneKey_ne_path (s : Settings) (name : String) : cloneKey name ≠ s.path := by
  intro heq
  have hbelow : Disk.Below (Disk.ofNames cloneNames) s.path := heq ▸ Disk.below_child _ name
  exact s.not_below_clone (Disk.prefix_of_below isName_of_mem_cloneNames cloneNames_ne_nil s.isName hbelow)

theorem Met.withDisk (h : Met w) {d : Disk} (hothers : s.OthersSame w.disk d) : Met (w.withDisk d) :=
  ⟨h.issued, h.pushed, h.secret, h.repository, fun name c hfile =>
    h.fresh name c ((hothers _ (cloneKey_ne_path s name) c).1 hfile)⟩

/-- What an attempt to push does: if nothing is pushed, the file of the collective memory stays as it is,
and if something is pushed, the push is put in the books. -/
structure Attempted (s : Settings) (b : Books) (w w' : World) : Prop where
  right : (b.attempt w'.shell.pushed w.clock).Right s w'.disk
  file : w'.shell.pushed = none → Table.get? w'.disk s.path = Table.get? w.disk s.path
  files : ∀ files, w'.shell.pushed = some files → ∀ name ∉ publishedFiles,
    files.get? name = w.shell.cloned.get? name

theorem Met.attempted (h : Met w) (hb : b.Right s w.disk) : Attempted s b w w := by
  refine ⟨?_, fun _ => rfl, fun files hfiles => ?_⟩
  · rw [h.pushed]
    exact hb
  · rw [h.pushed] at hfiles
    cases hfiles

theorem perform_remake (hb : b.Right s w.disk) (c : Collective) :
    (remake s).perform (c, w) = (.ok (), (b.restart.collective s, w)) := by
  rw [remake, Task.bind_lift (perform_open hb.stands)]
  rfl

theorem Books.Right.restart (hb : b.Right s w.disk) : b.restart.Right s w.disk := by
  refine ⟨hb.stands, ?_⟩
  show (recovered b.filed).learnings.keys.Nodup
  cases hfiled : b.filed with
  | none => exact List.nodup_nil
  | some l =>
    rw [recovered]
    split
    · rw [Ledger.reread]
      dsimp only
      rw [Table.keys_map]
      exact hb.stands.distinct l hfiled
    · exact List.nodup_nil

theorem Books.Right.see (hb : b.Right s w.disk) (id : String) (now : Float) :
    { b with ledger := b.ledger.see id now }.Right s w.disk := by
  refine ⟨hb.stands, ?_⟩
  show (b.ledger.see id now).learnings.keys.Nodup
  rw [Ledger.see]
  cases b.ledger.learnings.get? id with
  | none => exact hb.nodup
  | some e => exact Table.nodup_keys_put hb.nodup _ _

variable (hb : b.Right s w.disk) (hmet : Met w)

include hb hmet

theorem perform_publish_books : ∃ ok w₁ w', publish.perform (b.collective s, w) = (.ok ok, (b.collective s, w₁)) ∧
      w₁.clock = w.clock ∧ Attempted s b w w' ∧ ok = w'.shell.pushed.isSome ∧
      if ok then (recordPush w.clock).perform (b.collective s, w₁) =
        (.ok (), ((b.push w.clock).collective s, w')) else w' = w₁ := by
  obtain ⟨ok, w₁, hpublish, houtcome⟩ := perform_publish (s := s) (l := b.ledger) (k := b.counters)
    hmet.pushed hmet.secret hmet.repository hmet.fresh hb.stands.holds.nodup
  have hstands := hb.stands.beyond houtcome.beyond
  have hsucceeded := houtcome.succeeded_eq
  cases ok with
  | false =>
    have hnone : w₁.shell.pushed = none := by simpa using hsucceeded.symm
    refine ⟨false, w₁, w₁, hpublish, houtcome.clock, ⟨?_, fun _ => ?_, houtcome.pushed⟩, hsucceeded, rfl⟩
    · rw [hnone]
      exact ⟨hstands, hb.nodup⟩
    · exact houtcome.beyond.get?_eq isName_of_mem_cloneNames cloneNames_ne_nil s.isName s.not_below_clone
        s.not_above_clone
  | true =>
    obtain ⟨d, hrecord, hstands', -⟩ := perform_recordPush (k := b.counters) hstands hb.nodup w.clock
    refine ⟨true, w₁, w₁.withDisk d, hpublish, houtcome.clock, ⟨?_, fun hnone => ?_, houtcome.pushed⟩,
      hsucceeded, hrecord⟩
    · have hattempt : b.attempt w₁.shell.pushed w.clock = b.push w.clock := by
        rw [Books.attempt, ← hsucceeded, if_pos rfl]
      show (b.attempt w₁.shell.pushed w.clock).Right s d
      rw [hattempt]
      exact ⟨hstands', hb.nodup⟩
    · have hsome : w₁.shell.pushed = none := hnone
      rw [hsome] at hsucceeded
      cases hsucceeded

theorem perform_forceUpdate : ∃ w', forceUpdate.perform (b.collective s, w) = (.ok w'.shell.pushed.isSome,
      ((b.attempt w'.shell.pushed w.clock).collective s, w')) ∧ Attempted s b w w' := by
  obtain ⟨ok, w₁, w', hpublish, hclock, hattempted, hok, hrecord⟩ := perform_publish_books hb hmet
  refine ⟨w', ?_, hattempted⟩
  rw [forceUpdate, bind_of_ok hpublish, Books.attempt, ← hok]
  cases ok with
  | false =>
    rw [if_neg (by simp)] at hrecord
    rw [hrecord]
    rfl
  | true =>
    rw [if_pos rfl] at hrecord
    have hseconds : Job.seconds.perform w₁ = (.ok w.clock, w₁) := by rw [← hclock]; rfl
    rw [if_pos rfl, Task.bind_lift hseconds, bind_of_ok hrecord]
    rfl

theorem pushed_of_publish (hok : (publish.perform (b.collective s, w)).1 = .ok true) :
    (forceUpdate.perform (b.collective s, w)).2.2.shell.pushed.isSome := by
  obtain ⟨w', hforce, -⟩ := perform_forceUpdate hb hmet
  have htrue := hforce
  rw [forceUpdate, bind_of_ok (Prod.ext hok rfl), if_pos rfl] at htrue
  obtain ⟨now, st, -, htrue⟩ := bind_eq_ok.1 htrue
  obtain ⟨u, st', -, htrue⟩ := bind_eq_ok.1 htrue
  rw [hforce]
  exact (Except.ok.inj (congrArg Prod.fst htrue)).symm

theorem perform_checkForUpdate : ∃ ok w', checkForUpdate.perform (b.collective s, w) = (.ok ok,
      ((b.attempt w'.shell.pushed w.clock).collective s, w')) ∧ Attempted s b w w' ∧
      (w' = w ∨ Due s b.ledger.lastPush b.ledger.fresh w.clock) := by
  have hauto : (option "auto_update").perform (b.collective s, w) = (.ok (.bool true), (b.collective s, w)) := rfl
  have hseconds : Job.seconds.perform w = (.ok w.clock, w) := rfl
  obtain ⟨due, hdue, hdue'⟩ : ∃ due, (isDue w.clock).perform (b.collective s, w) =
      (.ok due, (b.collective s, w)) ∧ (due → Due s b.ledger.lastPush b.ledger.fresh w.clock) :=
    perform_isDue w.clock
  have hon : ¬ (!(Value.bool true).isTrue) := by decide
  rw [checkForUpdate, bind_of_ok hauto, if_neg hon, Task.bind_lift hseconds, bind_of_ok hdue]
  dsimp only
  cases due with
  | false =>
    refine ⟨false, w, ?_, hmet.attempted hb, .inl rfl⟩
    rw [hmet.pushed]
    rfl
  | true =>
    obtain ⟨ok, w₁, w', hpublish, -, hattempted, hok, hrecord⟩ := perform_publish_books hb hmet
    refine ⟨ok, w', ?_, hattempted, .inr (hdue' rfl)⟩
    rw [if_pos rfl, bind_of_ok hpublish, Books.attempt, ← hok]
    cases ok with
    | false =>
      rw [if_neg (by simp)] at hrecord
      rw [hrecord]
      rfl
    | true =>
      rw [if_pos rfl] at hrecord
      rw [if_pos rfl, bind_of_ok hrecord]
      rfl

/-! ### Requests -/

/-- What is answered when a learning is added: its identifier, or nothing if its data cannot be written. -/
def identifier : Except Fault String → Value
  | .ok id => .str id
  | .error _ => .null

/-- What a request does, seen from the books. -/
structure Acted (s : Settings) (r : Request) (b : Books) (w : World) (q : Except Fault Value × State) :
    Prop where
  state : q.2.1 = (b.enter (r.event w q)).collective s
  right : (b.enter (r.event w q)).Right s q.2.2.disk
  answer : ∀ kind data, r = .add kind data → q.1 = .ok (identifier (learningId data))
  /-- Commands are issued only for a new learning, when it is time. -/
  due : ∀ kind data, r = .add kind data → q.2.2.shell.issued ≠ [] → ∃ id, q.1 = .ok (.str id) ∧
    b.ledger.learnings.has id = false ∧ Due s b.ledger.lastPush (b.ledger.fresh + 1) w.clock
  files : ∀ files, q.2.2.shell.pushed = some files → ∀ name ∉ publishedFiles,
    files.get? name = w.shell.cloned.get? name
  /-- If nothing is pushed, it is as if it had not been attempted. -/
  failed : q.2.2.shell.pushed = none →
    q.2.1 = ((r.withoutPush s).perform (b.collective s, w)).2.1 ∧
      Table.get? q.2.2.disk s.path =
        Table.get? ((r.withoutPush s).perform (b.collective s, w)).2.2.disk s.path

theorem acted_force : Acted s .force b w ((Request.force.act s).perform (b.collective s, w)) := by
  obtain ⟨w', hforce, hattempted⟩ := perform_forceUpdate hb hmet
  have hact : (Request.force.act s).perform (b.collective s, w) = (.ok (.bool w'.shell.pushed.isSome),
      ((b.attempt w'.shell.pushed w.clock).collective s, w')) := bind_of_ok hforce _
  rw [hact]
  refine ⟨rfl, hattempted.right, fun _ _ h => (by cases h), fun _ _ h => (by cases h), hattempted.files,
    fun hnone => ⟨?_, hattempted.file hnone⟩⟩
  have hnone' : w'.shell.pushed = none := hnone
  rw [hnone']
  rfl

omit hb in
theorem acted_of_still {b' : Books} {r : Request} {v : Value} {x : Except Fault Unit} (hb' : b'.Right s w.disk)
    (hact : (r.act s).perform (b.collective s, w) = (.ok v, (b'.collective s, w)))
    (hquiet : (r.withoutPush s).perform (b.collective s, w) = (x, (b'.collective s, w)))
    (henter : b.enter (r.event w (.ok v, (b'.collective s, w))) = b'.attempt w.shell.pushed w.clock)
    (hanswer : ∀ kind data, r = .add kind data → v = identifier (learningId data)) :
    Acted s r b w ((r.act s).perform (b.collective s, w)) := by
  have hsame : b'.attempt w.shell.pushed w.clock = b' := by
    rw [hmet.pushed]
    rfl
  rw [hsame] at henter
  rw [hact]
  refine ⟨by rw [henter], by rw [henter]; exact hb', fun kind data h => congrArg _ (hanswer kind data h),
    fun _ _ _ hissued => absurd hmet.issued hissued, (hmet.attempted hb').files, fun _ => ?_⟩
  rw [hquiet]
  exact ⟨rfl, rfl⟩

theorem acted_reopen : Acted s .reopen b w ((Request.reopen.act s).perform (b.collective s, w)) := by
  have hremake := perform_remake hb (b.collective s)
  exact acted_of_still hmet hb.restart (bind_of_ok hremake _) hremake rfl fun _ _ h => by cases h

section Add

variable (kind data : Value)

theorem acted_add_of_error {f : Fault} (hid : learningId data = .error f) :
    Acted s (.add kind data) b w (((Request.add kind data).act s).perform (b.collective s, w)) := by
  refine acted_of_still hmet hb (v := .null) (x := .ok ()) ?_ ?_ rfl ?_
  · show (addLearning kind data).perform _ = _
    rw [addLearning, hid]
    rfl
  · rw [Request.withoutPush, hid]
    rfl
  · rintro _ _ ⟨⟩
    rw [hid]
    rfl

variable {id : String} (hid : learningId data = .ok id)

include hid

theorem acted_add_of_known (hknown : b.ledger.learnings.has id) :
    Acted s (.add kind data) b w (((Request.add kind data).act s).perform (b.collective s, w)) := by
  obtain ⟨e, he⟩ := Option.isSome_iff_exists.1 hknown
  have hlearnings : learnings.perform (b.collective s, w) = (.ok (.dict b.ledger.items), (b.collective s, w)) := rfl
  have hhas : (Value.dict b.ledger.items).has id = .ok true := congrArg _ ((Table.has_map ..).trans hknown)
  have hlearn : b.learn id kind data w.clock = { b with ledger := b.ledger.see id w.clock } := by
    rw [Books.learn, if_pos hknown]
  have hsee : (seeAgain id).perform (b.collective s, w) =
      (.ok (), ((b.learn id kind data w.clock).collective s, w)) := by
    rw [hlearn]
    exact perform_seeAgain s.options b.counters w he
  refine acted_of_still hmet (hlearn ▸ hb.see id w.clock) (v := .str id) (x := .ok ()) ?_ ?_ rfl ?_
  · show (addLearning kind data).perform _ = _
    rw [addLearning, perform_orElse, bind_lift hid, bind_of_ok hlearnings, bind_lift hhas, if_pos rfl, bind_of_ok hsee]
    rfl
  · rw [Request.withoutPush, perform_orElse, bind_lift hid, bind_of_ok hlearnings, bind_lift hhas, if_pos rfl, hsee]
  · rintro _ _ ⟨⟩
    rw [hid]
    rfl

/-- A new learning is saved, and then it is checked whether it is time for a push. -/
theorem acted_add_of_new (hnew : b.ledger.learnings.has id = false) :
    Acted s (.add kind data) b w (((Request.add kind data).act s).perform (b.collective s, w)) := by
  have hlearnings : learnings.perform (b.collective s, w) = (.ok (.dict b.ledger.items), (b.collective s, w)) := rfl
  have hhas : (Value.dict b.ledger.items).has id = .ok false := congrArg _ ((Table.has_map ..).trans hnew)
  have hlearn : b.learn id kind data w.clock =
      { ledger := b.ledger.know id kind data w.clock
        counters := { b.counters with improvements := b.counters.improvements + 1 }
        filed := some (b.ledger.know id kind data w.clock) } := by
    rw [Books.learn, if_neg (by simp [hnew])]
  obtain ⟨d, hadd, hstands, hothers⟩ := perform_addNew (k := b.counters) hb.stands hb.nodup id kind data
  have hadd' : (addNew id kind data).perform (b.collective s, w) =
      (.ok (), ((b.learn id kind data w.clock).collective s, w.withDisk d)) := by
    rw [hlearn]
    exact hadd
  have hb' : (b.learn id kind data w.clock).Right s (w.withDisk d).disk := by
    rw [hlearn]
    exact ⟨hstands, Table.nodup_keys_put hb.nodup _ _⟩
  obtain ⟨ok, w', hcheck, hattempted, hdue⟩ := perform_checkForUpdate hb' (hmet.withDisk hothers)
  have hact : ((Request.add kind data).act s).perform (b.collective s, w) =
      (.ok (.str id), (((b.learn id kind data w.clock).attempt w'.shell.pushed w.clock).collective s, w')) := by
    show (addLearning kind data).perform _ = _
    rw [addLearning, perform_orElse, bind_lift hid, bind_of_ok hlearnings,
      bind_lift hhas, if_neg (by simp), bind_of_ok hadd', bind_of_ok hcheck]
    rfl
  have hquiet : ((Request.add kind data).withoutPush s).perform (b.collective s, w) =
      (.ok (), ((b.learn id kind data w.clock).collective s, w.withDisk d)) := by
    rw [Request.withoutPush, perform_orElse, bind_lift hid, bind_of_ok hlearnings,
      bind_lift hhas, if_neg (by simp), hadd']
  rw [hact]
  refine ⟨rfl, hattempted.right, ?_, ?_, hattempted.files, fun hnone => ?_⟩
  · rintro _ _ ⟨⟩
    rw [hid]
    rfl
  · rintro _ _ ⟨⟩ hissued
    refine ⟨id, rfl, hnew, ?_⟩
    rcases hdue with hsame | hdue
    · rw [hsame] at hissued
      exact absurd hmet.issued hissued
    · rw [hlearn] at hdue
      exact hdue
  · rw [hquiet]
    have hnone' : w'.shell.pushed = none := hnone
    refine ⟨?_, hattempted.file hnone⟩
    rw [hnone']
    rfl

end Add

theorem acted (r : Request) : Acted s r b w ((r.act s).perform (b.collective s, w)) := by
  cases r with
  | force => exact acted_force hb hmet
  | reopen => exact acted_reopen hb hmet
  | add kind data =>
    cases hid : learningId data with
    | error f => exact acted_add_of_error hb hmet kind data hid
    | ok id =>
      cases hhas : b.ledger.learnings.has id with
      | true => exact acted_add_of_known hb hmet kind data hid hhas
      | false => exact acted_add_of_new hb hmet kind data hid hhas

end

/-! ### Sessions -/

def booksOf (es : List Event) : Books := es.foldl Books.enter {}

theorem booksOf_concat (es : List Event) (e : Event) : booksOf (es ++ [e]) = (booksOf es).enter e := by
  rw [booksOf, List.foldl_append]
  rfl

variable {s : Settings} {w : World}

theorem session_concat (os : List Occasion) (o : Occasion) : session s w (os ++ [o]) =
    ((session s w os).1 ++ [(o.serve s (session s w os).2).1], (o.serve s (session s w os).2).2) :=
  serveAll_concat s os o _

theorem Occasion.acted_serve {b : Books} {p : State} (hstate : p.1 = b.collective s)
    (hright : b.Right s p.2.disk) (ho : o.Proper) :
    Acted s o.request b (o.meet p.2) ((o.request.act s).perform (p.1, o.meet p.2)) := by
  rw [hstate]
  exact acted (hright.meet o) (ho.met p.2) o.request

theorem Occasion.pushed_of_force (ho : o.request = .force) (p : State) :
    (o.serve s p).1.pushed = (forceUpdate.perform (p.1, o.meet p.2)).2.2.shell.pushed := by
  have hview := view_perform_bind id (fun b => leaves_pure (Value.bool b)) forceUpdate (p.1, o.meet p.2)
  rw [Occasion.serve, ho]
  exact congrArg (fun st => st.2.shell.pushed) hview

/-- After every session the state is the one that the books tell of. -/
theorem books_of_session (hw : Stands s none w.disk) {os : List Occasion} (hos : ∀ o ∈ os, o.Proper) :
    (session s w os).2.1 = (booksOf (session s w os).1).collective s ∧
      (booksOf (session s w os).1).Right s (session s w os).2.2.disk := by
  induction os using List.reverseRecOn with
  | nil =>
    have hright : ({} : Books).Right s w.disk := ⟨hw, List.nodup_nil⟩
    have hstart : session s w [] = ([], (({} : Books).collective s, w)) := by
      rw [session, perform_remake hright]
      rfl
    rw [hstart]
    exact ⟨rfl, hright⟩
  | append_singleton os o ih =>
    obtain ⟨hstate, hright⟩ := ih fun o' ho' => hos o' (List.mem_append_left _ ho')
    have hacted := Occasion.acted_serve hstate hright (hos o (by simp))
    rw [session_concat, booksOf_concat]
    exact ⟨hacted.state, hacted.right⟩

theorem acted_of_session (hw : Stands s none w.disk) {os : List Occasion} (hos : ∀ o ∈ os, o.Proper) (ho : o.Proper) :
    Acted s o.request (booksOf (session s w os).1) (o.meet (session s w os).2.2)
      ((o.request.act s).perform ((session s w os).2.1, o.meet (session s w os).2.2)) := by
  obtain ⟨hstate, hright⟩ := books_of_session hw hos
  exact Occasion.acted_serve hstate hright ho

/-! ### What is pushed -/

/-- What is pushed differs from the repository in no more than the two files that a push brings up to date:
no learning is ever confident enough to be written to a script. -/
theorem pushed_files_are_cloned (hw : Stands s none w.disk) {os : List Occasion} (hos : ∀ o ∈ os, o.Proper)
    {o : Occasion} (ho : o.Proper) :
    (∀ t ∈ ruleTables, (do t.select (← (Value.dict (session s w os).2.1.memory).item "collective_learnings") :
        Except Fault (List Value)) = .ok []) ∧
      ∀ files, (o.serve s (session s w os).2).1.pushed = some files →
        ∀ name, name ≠ "models/collective_memory.json" → name ≠ "models/learning_summary.md" →
          files.get? name = o.files.get? name := by
  obtain ⟨hstate, -⟩ := books_of_session hw hos
  refine ⟨fun t ht => ?_, fun files hfiles name hmemory hsummary => ?_⟩
  · rw [hstate]
    exact RuleTable.select_items ht _
  · refine (acted_of_session hw hos ho).files files hfiles name ?_
    simp [publishedFiles, hmemory, hsummary]

def Occasion.ofRule (name : String) : Occasion where
  failing := ["git clone"]
  request := .add (.str "correction_rule") (.dict [("name", .str name)])

theorem Occasion.proper_ofRule (name : String) : (Occasion.ofRule name).Proper :=
  ⟨fun _ h => (by cases h), fun _ h => absurd h List.not_mem_nil, List.nodup_nil⟩

def Occasion.scripted : Occasion where
  files := [("src/ai/gz_ai_integration.py", "correction_rules = []")]
  request := .force

theorem Occasion.proper_scripted : Occasion.scripted.Proper := by
  refine ⟨fun _ h => (by cases h), fun e he => ?_, by decide⟩
  rw [List.mem_singleton.1 he]
  exact ⟨["src", "ai", "gz_ai_integration.py"], by decide, by decide, by decide⟩

theorem pushed_scripted : (Occasion.scripted.serve Settings.eager
    (session Settings.eager {} []).2).1.pushed.isSome := by
  have hright : ({} : Books).Right Settings.eager ({} : World).disk := ⟨Settings.stands_eager, List.nodup_nil⟩
  have hstart : (session Settings.eager {} []).2 = (({} : Books).collective Settings.eager, {}) := by
    rw [session, perform_remake hright]
    rfl
  have hpublish : (publish.perform (({} : Books).collective Settings.eager,
      Occasion.scripted.meet {})).1.toOption = some true := by decide +kernel
  rw [hstart, Occasion.pushed_of_force rfl]
  refine pushed_of_publish (hright.meet _) (Occasion.proper_scripted.met _) ?_
  generalize publish.perform (({} : Books).collective Settings.eager, Occasion.scripted.meet {}) = r at hpublish
  obtain ⟨f | ok, st⟩ := r <;> cases hpublish
  rfl

/-- A script is pushed as it was cloned, also when a rule was learned. -/
theorem script_is_pushed_as_cloned :
    (∃ files, (Occasion.scripted.serve Settings.eager (session Settings.eager {} []).2).1.pushed = some files ∧
      files.get? "src/ai/gz_ai_integration.py" = some "correction_rules = []") ∧
    ∀ files, (Occasion.scripted.serve Settings.eager
        (session Settings.eager {} [.ofRule "semicolon"]).2).1.pushed = some files →
      files.get? "src/ai/gz_ai_integration.py" = some "correction_rules = []" := by
  have hpushed := pushed_scripted
  obtain ⟨files, hfiles⟩ := Option.isSome_iff_exists.1 hpushed
  have hnone : ∀ o ∈ ([] : List Occasion), o.Proper := fun _ h => absurd h List.not_mem_nil
  have hrule : ∀ o ∈ [Occasion.ofRule "semicolon"], o.Proper := fun o ho =>
    List.mem_singleton.1 ho ▸ Occasion.proper_ofRule "semicolon"
  refine ⟨⟨files, hfiles, ?_⟩, fun files hfiles => ?_⟩
  · exact (pushed_files_are_cloned Settings.stands_eager hnone Occasion.proper_scripted).2 files hfiles _
      (by decide) (by decide)
  · exact (pushed_files_are_cloned Settings.stands_eager hrule Occasion.proper_scripted).2 files hfiles _
      (by decide) (by decide)

end GzLang.Collective
