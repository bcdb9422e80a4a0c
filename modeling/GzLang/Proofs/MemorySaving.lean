import GzLang.Proofs.MemoryHistory
import GzLang.Value.View

/-!
# What a failed save loses

A memory saves its categories one after the other, each to a file that is emptied first. A document that
cannot be written whole leaves its first part, which is no document, so that the next memory starts the
category anew: everything in it is lost, also what had been saved before. The categories before it are saved
and those behind it are left as they were. `Journal` keeps account of this, attempt by attempt, and says what
is found when a memory is opened after any session (`found_after_serve`).
-/

namespace GzLang.Memory

open GzLang.Action Table Store

/-! ### The account of what was saved -/

structure Journal where
  saved : String → Value
  lost : String → Bool

namespace Journal

def blank : Journal := ⟨fun _ => .dict [], fun _ => false⟩

def found (j : Journal) (c : String) : Value := if j.lost c then .dict [] else (j.saved c).normal

/-- An attempt to save categories, which ends with the first that cannot be written whole. -/
def attempt (items : String → Value) : List String → Journal → Journal
  | [], j => j
  | c :: cs, j =>
    if (items c).fault?.isSome then { j with lost := Function.update j.lost c true }
    else attempt items cs ⟨Function.update j.saved c (items c), Function.update j.lost c false⟩

def itemsOf (cache : Table Value) (c : String) : Value := (cache.get? c).getD .null

/-- The journal after a memory with the given cache tried to save all, if it did. -/
def after (j : Journal) : Option (Table Value) → Journal
  | none => j
  | some cache => attempt (itemsOf cache) categories j

/-- What an attempt leaves on the disk is what its journal says. -/
theorem found_attempt (items : String → Value) (cs : List String) (j : Journal) :
    (attempt items cs j).found = settle (fun c => (items c).fault?)
      (fun c => (Json.reloaded (items c)).getD (.dict [])) cs j.found := by
  induction cs generalizing j with
  | nil => rfl
  | cons c cs ih =>
    rw [attempt, settle, Json.reloaded]
    cases hfault : (items c).fault? with
    | some f =>
      funext c'
      by_cases heq : c' = c
      · subst heq
        simp [found]
      · simp [found, heq]
    | none =>
      simp only [Option.isSome_none, Bool.false_eq_true, if_false, Option.isNone_none, if_true, Option.getD_some]
      rw [ih]
      congr 1
      funext c'
      by_cases heq : c' = c
      · subst heq
        simp [found]
      · simp [found, heq]

end Journal

/-! ### Actions that leave the disk alone -/

/-- An action that changes at most the items of a memory, and drops no category, however it ends. -/
def Quiet {α : Type} (a : Task Store α) : Prop :=
  ∀ s w, ∃ t, (a.perform (s, w)).2 = (s.withCache t, w) ∧
    ∀ c, has s.cache c = true → has t c = true

section Quiet

variable {α β : Type}

theorem quiet_of_still {a : Task Store α} (h : ∀ p, (a.perform p).2 = p) : Quiet a :=
  fun s w => ⟨s.cache, h (s, w), fun _ hc => hc⟩

theorem quiet_lift (e : Except Fault α) : Quiet (liftM e : Task Store α) := quiet_of_still fun _ => rfl

theorem quiet_pure (x : α) : Quiet (pure x : Task Store α) := quiet_of_still fun _ => rfl

theorem quiet_self : Quiet (Task.self : Task Store Store) := quiet_of_still fun _ => rfl

theorem quiet_timestamp : Quiet (liftM Job.timestamp : Task Store String) := quiet_of_still fun _ => rfl

theorem Quiet.bind {a : Task Store α} {f : α → Task Store β} (ha : Quiet a) (hf : ∀ x, Quiet (f x)) :
    Quiet (a >>= f) := by
  intro s w
  obtain ⟨t, hstate, ht⟩ := ha s w
  rw [perform_bind]
  rcases hperform : a.perform (s, w) with ⟨e | x, p⟩
  · rw [hperform] at hstate
    exact ⟨t, hstate, ht⟩
  · rw [hperform] at hstate
    obtain ⟨t', hstate', ht'⟩ := hf x (s.withCache t) w
    refine ⟨t', ?_, fun c hc => ht' c (ht c hc)⟩
    show ((f x).perform p).2 = _
    rw [show p = (s.withCache t, w) from hstate, hstate', withCache_withCache]

theorem quiet_ite {c : Prop} [Decidable c] {a a' : Task Store α} (ha : Quiet a) (ha' : Quiet a') :
    Quiet (if c then a else a') := by
  split_ifs
  · exact ha
  · exact ha'

theorem quiet_mapM {f : β → Task Store α} (hf : ∀ x, Quiet (f x)) (l : List β) : Quiet (l.mapM f) := by
  induction l with
  | nil => exact quiet_pure []
  | cons x l ih =>
    rw [List.mapM_cons]
    exact (hf x).bind fun _ => ih.bind fun _ => quiet_pure _

theorem quiet_category (c : String) : Quiet (category c) := by
  refine quiet_of_still fun p => ?_
  rw [category, bind_self]
  cases get? p.1.cache c <;> rfl

theorem quiet_putCategory (c : String) (v : Value) : Quiet (putCategory c v) := by
  refine fun s w => ⟨put s.cache c v, rfl, fun c' hc' => ?_⟩
  by_cases heq : c = c'
  · subst heq
    rw [has, get?_put_self]
    rfl
  · rwa [has, get?_put_of_ne _ heq]

end Quiet

theorem quiet_putItem (c key : String) (value confidence metadata : Value) :
    Quiet (putItem c key value confidence metadata) := by
  have hput (items item : Value) : Quiet (do putCategory c (← items.withItem key item) : Task Store Unit) :=
    (quiet_lift _).bind fun _ => quiet_putCategory c _
  have hitems : Quiet (do
      let items ← category c
      let now ← Job.timestamp
      let item ← if ← items.has key then renewItem now (← items.item key) value confidence metadata
        else pure (newItem now value confidence metadata)
      putCategory c (← items.withItem key item) : Task Store Unit) := by
    refine (quiet_category c).bind fun items => quiet_timestamp.bind fun now => (quiet_lift _).bind fun _ => ?_
    refine quiet_ite ((quiet_lift _).bind fun _ => (quiet_lift _).bind fun item => hput items item) ?_
    exact (quiet_pure _).bind fun item => hput items item
  refine (quiet_lift _).bind fun _ => quiet_self.bind fun s => quiet_ite ?_ hitems
  exact (quiet_putCategory c _).bind fun _ => hitems

theorem quiet_retrieve (c key : String) (other : Value) : Quiet (retrieve c key other) := by
  refine (quiet_lift _).bind fun _ => quiet_self.bind fun s => quiet_ite (quiet_pure _) ?_
  refine (quiet_category c).bind fun items => (quiet_lift _).bind fun _ => quiet_ite (quiet_pure _) ?_
  refine (quiet_lift _).bind fun item => (quiet_lift _).bind fun _ => (quiet_lift _).bind fun _ => ?_
  refine (quiet_lift _).bind fun _ => quiet_timestamp.bind fun _ => (quiet_lift _).bind fun _ => ?_
  exact (quiet_lift _).bind fun _ => (quiet_putCategory c _).bind fun _ => quiet_lift _

theorem quiet_search (c : String) (query least limit : Value) : Quiet (search c query least limit) := by
  refine (quiet_lift _).bind fun _ => quiet_self.bind fun s => quiet_ite (quiet_pure _) ?_
  exact (quiet_category c).bind fun items => (quiet_lift _).bind fun _ => quiet_lift _

theorem quiet_getAll (c : String) (least : Value) : Quiet (getAll c least) := by
  refine (quiet_lift _).bind fun _ => quiet_self.bind fun s => quiet_ite (quiet_pure _) ?_
  exact (quiet_category c).bind fun items => (quiet_lift _).bind fun _ => quiet_lift _

theorem quiet_remove (c key : String) : Quiet (remove c key) := by
  refine (quiet_lift _).bind fun _ => quiet_self.bind fun s => quiet_ite (quiet_pure _) ?_
  refine (quiet_category c).bind fun items => (quiet_lift _).bind fun _ => quiet_ite (quiet_pure _) ?_
  refine (quiet_lift _).bind fun _ => (quiet_lift _).bind fun _ => (quiet_lift _).bind fun _ => ?_
  exact (quiet_putCategory c _).bind fun _ => quiet_pure _

theorem quiet_stats : Quiet stats := by
  refine quiet_self.bind fun s => (quiet_mapM (fun e => ?_) _).bind fun _ => quiet_pure _
  exact (quiet_lift _).bind fun _ => quiet_pure _

/-! ### Sessions -/

/-- The cache that a request tries to save, if it does. -/
def Request.attempt? (s : Store) (w : World) : Request → Option (Table Value)
  | .store c key value confidence notes =>
    match (putItem c key value confidence (noteValue notes)).perform (s, w) with
    | (.ok _, (s', _)) => if w.clock - s'.lastSync > syncInterval then some s'.cache else none
    | _ => none
  | .sync => some s.cache
  | .reopen => some s.cache
  | _ => none

def journal : List Request → Store × World → Journal → Journal
  | [], _, j => j
  | r :: rs, p, j => journal rs (r.answer.perform p).2 (j.after (r.attempt? p.1 p.2))

/-- A memory with files that finds what a journal says. -/
structure Accounts (directory : String) (j : Journal) (p : Store × World) : Prop where
  isOpen : Open .files directory p.1
  all : ∀ c ∈ categories, has p.1.cache c = true
  holds : Holds .files p.2.disk directory j.found

variable {directory : String} {j : Journal} {s : Store} {w : World}

theorem Accounts.quiet {α : Type} (h : Accounts directory j (s, w)) {a : Task Store α} (ha : Quiet a) :
    Accounts directory j (a.perform (s, w)).2 := by
  obtain ⟨t, hstate, ht⟩ := ha s w
  rw [hstate]
  exact ⟨h.isOpen.withCache t, fun c hc => ht c (h.all c hc), h.holds⟩

theorem Accounts.sync (h : Accounts directory j (s, w)) :
    ∃ r s' d, sync.perform (s, w) = (r, (s', w.withDisk d)) ∧ s'.cache = s.cache ∧
      Accounts directory (j.after (some s.cache)) (s', w.withDisk d) := by
  have hsave (c : String) (hc : c ∈ categories) (d : Disk) (found : String → Value)
      (hd : Holds .files d directory found) :
      ∃ d', (saveCategory c).perform (s, w.withDisk d) =
          (Json.outcome (Journal.itemsOf s.cache c).fault?, (s, w.withDisk d')) ∧
        Holds .files d' directory
          (Function.update found c ((Json.reloaded (Journal.itemsOf s.cache c)).getD (.dict []))) := by
    obtain ⟨v, hv⟩ := Option.isSome_iff_exists.1 (h.all c hc)
    rw [Journal.itemsOf, hv]
    exact perform_saveCategory_files (w := w.withDisk d) h.isOpen hd hc hv
  obtain ⟨s', d, hsync, hopen, hcache, hholds⟩ := perform_sync h.isOpen hsave h.all h.holds
  refine ⟨_, s', d, hsync, hcache, hopen, ?_, ?_⟩
  · rw [hcache]
    exact h.all
  · rw [Journal.after, Journal.found_attempt]
    exact hholds

theorem Accounts.syncIfDue (h : Accounts directory j (s, w)) :
    Accounts directory (j.after (if w.clock - s.lastSync > syncInterval then some s.cache else none))
      (syncIfDue.perform (s, w)).2 := by
  have hseconds : (liftM Job.seconds : Task Store Float).perform (s, w) = (.ok w.clock, (s, w)) := rfl
  rw [Store.syncIfDue, bind_of_ok hseconds, bind_self]
  split_ifs
  · obtain ⟨r, s', d, hsync, -, haccounts⟩ := h.sync
    rw [hsync]
    exact haccounts
  · exact h

/-- A memory that is closed and opened again; if it cannot be closed, it goes on as it is. -/
theorem Accounts.reopen (h : Accounts directory j (s, w)) :
    Accounts directory (j.after (some s.cache)) ((Request.answer .reopen).perform (s, w)).2 := by
  obtain ⟨r, s₁, d₁, hsync, hcache, haccounts⟩ := h.sync
  cases r with
  | error f =>
    have hclose : Store.close.perform (s, w) = (.error f, (s₁, w.withDisk d₁)) := bind_of_error hsync _
    rw [Request.answer, bind_of_error hclose]
    exact haccounts
  | ok _ =>
    have hclosed : Store.close.perform (s, w) =
        (.ok (), ({ s₁ with closed := s₁.backend == .database }, w.withDisk d₁)) :=
      (bind_of_ok hsync _).trans (Task.perform_update _ _ _)
    obtain ⟨s₂, d₂, hopen, hs₂, hd₂, hfound⟩ := perform_open (w := w.withDisk d₁) haccounts.holds
    have hnew : (liftM (Store.open s₁.directory s₁.backend) : Task Store Store).perform
        ({ s₁ with closed := s₁.backend == .database }, w.withDisk d₁) =
          (.ok s₂, ({ s₁ with closed := s₁.backend == .database }, w.withDisk d₂)) := by
      rw [Task.perform_lift, haccounts.isOpen.directory, haccounts.isOpen.backend, hopen]
      rfl
    rw [Request.answer, bind_of_ok hclosed, bind_self]
    refine (bind_of_ok hnew _).symm ▸ ⟨hs₂, fun c hc => ?_, hd₂⟩
    rw [Table.has]
    exact Option.isSome_iff_exists.2 ⟨_, hfound c hc⟩

theorem Accounts.answer (h : Accounts directory j (s, w)) (r : Request) :
    Accounts directory (j.after (r.attempt? s w)) (r.answer.perform (s, w)).2 := by
  cases r with
  | store c key value confidence notes =>
    have hput := h.quiet (quiet_putItem c key value confidence (noteValue notes))
    obtain ⟨t, hstate, -⟩ := quiet_putItem c key value confidence (noteValue notes) s w
    rw [Request.answer, Store.store, Request.attempt?]
    rcases hperform : (Store.putItem c key value confidence (noteValue notes)).perform (s, w) with ⟨e | x, p⟩
    · rw [hperform] at hput
      rw [bind_of_error (bind_of_error hperform _)]
      exact hput
    · rw [hperform] at hput hstate
      obtain rfl : p = (s.withCache t, w) := hstate
      have hsync := hput.syncIfDue
      rw [perform_bind, bind_of_ok hperform]
      rcases hdone : Store.syncIfDue.perform (s.withCache t, w) with ⟨e | x, p⟩
      · rw [hdone] at hsync
        exact hsync
      · rw [hdone] at hsync
        exact hsync
  | retrieve c key other => exact h.quiet (quiet_retrieve c key other)
  | search c query least limit => exact h.quiet (quiet_search c query least limit)
  | getAll c least => exact h.quiet (quiet_getAll c least)
  | remove c key => exact h.quiet ((quiet_remove c key).bind fun _ => quiet_pure _)
  | stats => exact h.quiet quiet_stats
  | sync =>
    obtain ⟨r, s', d, hsync, -, haccounts⟩ := h.sync
    rw [Request.answer, perform_bind, hsync]
    cases r <;> exact haccounts
  | advance dt => exact ⟨h.isOpen, h.all, h.holds⟩
  | reopen => exact h.reopen

theorem Accounts.serve {p : Store × World} (h : Accounts directory j p) (rs : List Request) :
    ∃ p', (Memory.serve rs).perform p = (.ok (), p') ∧ Accounts directory (journal rs p j) p' := by
  induction rs generalizing p j with
  | nil => exact ⟨p, rfl, h⟩
  | cons r rs ih =>
    obtain ⟨p', hserve, haccounts⟩ := ih (h.answer r)
    have hfirst : (do let _ ← r.answer.outcome : Task Store Unit).perform p = (.ok (), (r.answer.perform p).2) := rfl
    exact ⟨p', (bind_of_ok hfirst _).trans hserve, haccounts⟩

def Covers (v u : Value) : Prop :=
  ∀ key item, u.asTable.get? key = some item → v.asTable.get? key = some item

/-- A category that was lost has every item only if there was none. -/
theorem Journal.covers_found_iff (j : Journal) (c : String) :
    Covers (j.found c) (j.saved c).normal ↔ (j.lost c → (j.saved c).normal.asTable = []) := by
  rw [Journal.found]
  cases hlost : j.lost c with
  | false => exact ⟨fun _ h => (by cases h), fun _ _ _ h => h⟩
  | true =>
    rw [if_pos rfl]
    constructor
    · intro hcovers _
      cases htable : (j.saved c).normal.asTable with
      | nil => rfl
      | cons e es =>
        have hfirst : get? (j.saved c).normal.asTable e.1 = some e.2 := by simp [htable, get?]
        cases hcovers e.1 e.2 hfirst
    · intro hnone key item hitem
      rw [hnone rfl] at hitem
      cases hitem

/-- After any session, the next memory in the directory finds for each category what was last saved of it,
and nothing if an attempt to save it has failed since: it then has lost every item of the last save. -/
theorem found_after_serve {w : World} {directory : String} (hempty : Empty w.disk directory) (rs : List Request) :
    ∃ s₀ w₀ p s w', (Store.open directory .files).perform w = (.ok s₀, w₀) ∧ (serve rs).perform (s₀, w₀) = (.ok (), p) ∧
      (Store.open directory .files).perform p.2 = (.ok s, w') ∧
      ∀ c ∈ categories, ∃ v, s.cache.get? c = some v ∧ v = (journal rs (s₀, w₀) .blank).found c ∧
        (Covers v ((journal rs (s₀, w₀) .blank).saved c).normal ↔ ((journal rs (s₀, w₀) .blank).lost c = true →
            ((journal rs (s₀, w₀) .blank).saved c).normal.asTable = [])) := by
  obtain ⟨s₀, d₀, hopen, hs₀, hd₀, hcache⟩ := perform_open (w := w) (hempty.holds .files)
  have haccounts : Accounts directory .blank (s₀, w.withDisk d₀) := by
    refine ⟨hs₀, fun c hc => ?_, hd₀⟩
    rw [Table.has]
    exact Option.isSome_iff_exists.2 ⟨_, hcache c hc⟩
  obtain ⟨p, hserve, haccounts'⟩ := haccounts.serve rs
  obtain ⟨s, d, hopen', -, -, hfound⟩ := perform_open haccounts'.holds
  exact ⟨s₀, w.withDisk d₀, p, s, p.2.withDisk d, hopen, hserve, hopen', fun c hc =>
    ⟨_, hfound c hc, rfl, Journal.covers_found_iff _ c⟩⟩

/-- An item is saved, and then one that has no written form is stored in the same category. -/
def spoiltSession : List Request :=
  [.store "code_templates" "loop" (.str "for") (.float 0.9) none, .sync,
    .store "code_templates" "body" (.object "function") (.float 0.9) none, .sync]

theorem nothing_found_after_spoiltSession :
    ∃ s₀ w₀ p s w', (Store.open "m" .files).perform { disk := [("m", .directory)] } = (.ok s₀, w₀) ∧
      (serve spoiltSession).perform (s₀, w₀) = (.ok (), p) ∧
      (Store.open "m" .files).perform p.2 = (.ok s, w') ∧
      ((journal spoiltSession (s₀, w₀) .blank).saved "code_templates").normal.asTable.keys = ["loop"] ∧
      s.cache.get? "code_templates" = some (.dict []) := by
  obtain ⟨s₀, w₀, p, s, w', hopen, hserve, hopen', hfound⟩ :=
    found_after_serve (w := { disk := [("m", .directory)] }) empty_directory spoiltSession
  have hjournal : ((journal spoiltSession (s₀, w₀) .blank).saved "code_templates").normal.asTable.keys = ["loop"] ∧
      (journal spoiltSession (s₀, w₀) .blank).lost "code_templates" = true := by
    have hs₀ : s₀ = ((Store.open "m" .files).perform { disk := [("m", .directory)] }).1.toOption.getD default := by
      rw [hopen]
      rfl
    have hw₀ : w₀ = ((Store.open "m" .files).perform { disk := [("m", .directory)] }).2 := by rw [hopen]
    rw [hs₀, hw₀]
    decide +kernel
  obtain ⟨v, hv, rfl, -⟩ := hfound "code_templates" (by decide)
  refine ⟨s₀, w₀, p, s, w', hopen, hserve, hopen', hjournal.1, ?_⟩
  rw [hv, Journal.found, if_pos hjournal.2]

end GzLang.Memory
