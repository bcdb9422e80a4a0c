import GzLang.Proofs.LearnerSession

/-!
# What a crash can lose

A learner is saved after every fifth sample, and at other times when it is asked to or when the last time is long ago.
So its file is never more than four samples behind (`Safe`), whatever the learner was asked and however often it was
started again, and what the file holds are the tables that the learner last had with that number of samples
(`crash_loses_at_most_four`). All of this is for files that can be written, as they can at any place where the first
learner could start (`writable_throughout`).
-/

namespace GzLang.Learning

open GzLang.Action List Value

variable {m' : Mind} {result : Value} {role code : String}

/-! ### The features of a sample -/

def roles : List String :=
  ["function_definition", "variable_assignment", "print_statement", "conditional", "loop", "return_statement",
    "algorithm"]

theorem mem_roles_of_role? {line : List Char} (h : role? line = some role) : role ∈ roles := by
  rw [role?] at h
  split_ifs at h <;> (obtain rfl := Option.some.inj h; decide)

/-- Features are listed under different roles. -/
structure HasRoles (features : Table String) : Prop where
  nodup : features.keys.Nodup
  subset : features.keys ⊆ roles

theorem HasRoles.put {features : Table String} (h : HasRoles features) (hrole : role ∈ roles)
    (line : String) : HasRoles (features.put role line) where
  nodup := Table.nodup_keys_put h.nodup ..
  subset _ hk := (Table.mem_keys_put.1 hk).elim (fun hk => h.subset hk) fun hk => hk ▸ hrole

theorem HasRoles.addLine {features : Table String} (h : HasRoles features) (line : List Char) :
    HasRoles (addLine features line) := by
  rw [Learning.addLine]
  split
  · rename_i hrole
    exact h.put (mem_roles_of_role? hrole) _
  · exact h

theorem hasRoles_features (code : String) : HasRoles (features code) := by
  have hlines (ls : List (List Char)) {t : Table String} (ht : HasRoles t) : HasRoles (ls.foldl addLine t) := by
    induction ls generalizing t with
    | nil => exact ht
    | cons line ls ih => exact ih (ht.addLine line)
  have hempty : HasRoles [] := ⟨nodup_nil, fun _ hk => nomatch hk⟩
  rw [features]
  split
  · exact (hlines _ hempty).put (by decide) _
  · exact hlines _ hempty

theorem length_features_le (code : String) : (features code).length ≤ 7 := by
  have h := hasRoles_features code
  have hle := (h.nodup.subperm h.subset).length_le
  rwa [Table.keys, length_map] at hle

namespace Settings

variable {s : Settings} {n : Nat} {m : Mind} {w : World}

/-! ### Minds that can be written -/

/-- A mind after at most some samples, all of which can be written. -/
structure Sound (s : Settings) (n : Nat) (m : Mind) : Prop where
  consistent : m.tables.Consistent s.digest
  samples_le : m.samples ≤ n
  history : ∀ e ∈ m.history, e.fault? = none

theorem sound_fresh (s : Settings) (now : Float) : s.Sound 0 (s.fresh now) :=
  ⟨Tables.consistent_empty s.digest, Nat.le_refl 0, fun _ he => nomatch he⟩

theorem Sound.mono (h : s.Sound n m) {n' : Nat} (hn : n ≤ n') : s.Sound n' m :=
  ⟨h.consistent, h.samples_le.trans hn, h.history⟩

theorem Sound.kept (h : s.Sound n m) : s.Sound n m.kept where
  consistent := h.consistent
  samples_le := h.samples_le
  history e he := by
    obtain ⟨x, hx, rfl⟩ := mem_map.1 he
    exact fault?_normal (h.history x (mem_of_mem_drop hx))

theorem fault?_event (w : World) (code : String) (rate : Float) (hresult : result.fault? = none) :
    (Learner.event w code rate result).fault? = none := by
  have hcount : (Value.int (features code).length).fault? = none :=
    (Value.isDocument_count (Value.lt_countLimit ((length_features_le code).trans_lt (by decide)))).whole
  rw [Learner.event, Value.fault?, Value.faultOfMembers?_eq_none]
  simp only [forall_mem_cons]
  exact ⟨rfl, hcount, rfl, hresult, nofun⟩

theorem Sound.learned (h : s.Sound n m) (hresult : result.fault? = none)
    (hlearned : s.Learned w m code result m') : s.Sound (n + 1) m' where
  consistent := hlearned.consistent
  samples_le := by
    rw [hlearned.samples]
    exact Nat.succ_le_succ h.samples_le
  history e he := by
    obtain ⟨rate, hhistory⟩ := hlearned.history
    rw [hhistory, mem_append, mem_singleton] at he
    rcases he with he | rfl
    · exact h.history e he
    · exact fault?_event w code rate hresult

/-- The numbers of the settings and of the samples are not too long to be written. -/
structure Fits (s : Settings) (n : Nat) : Prop where
  acceleration : (Value.int s.acceleration).fault? = none
  samples : n < countLimit

theorem Fits.mono (h : s.Fits n) {n' : Nat} (hn : n' ≤ n) : s.Fits n' := ⟨h.acceleration, hn.trans_lt h.samples⟩

theorem Sound.fault?_document (h : s.Sound n m) (hs : s.Fits n) : (s.document m).fault? = none := by
  have hsamples := (Value.isDocument_count (h.samples_le.trans_lt hs.samples)).whole
  have hhistory : (Value.list (m.history.rtake 100)).fault? = none := by
    rw [Value.fault?, Value.faultOfItems?_eq_none]
    exact fun e he => h.history e (mem_of_mem_drop he)
  rw [document, Value.fault?, Value.faultOfMembers?_eq_none]
  simp only [forall_mem_cons]
  exact ⟨hsamples, rfl, hs.acceleration, h.consistent.isDocument_weights.whole,
    h.consistent.isDocument_confidence.whole, h.consistent.isDocument_known.whole, hhistory, forall_mem_nil _⟩

end Settings

/-! ### The last learner with a number of samples -/

/-- The last of some learners with a number of samples has these tables. -/
def LastShows (ls : List Learner) (n : Nat) (t : Tables) : Prop :=
  ∃ before l after, ls = before ++ l :: after ∧ l.samples = .int n ∧ l.Shows t ∧ ∀ l' ∈ after, l'.samples ≠ .int n

theorem lastShows_concat_self (ls : List Learner) {l : Learner} {n : Nat} {t : Tables} (hn : l.samples = .int n)
    (ht : l.Shows t) : LastShows (ls ++ [l]) n t :=
  ⟨ls, l, [], rfl, hn, ht, fun _ hl => nomatch hl⟩

theorem LastShows.concat {ls : List Learner} {n : Nat} {t : Tables} (h : LastShows ls n t) {l : Learner}
    (hl : l.samples = .int n → l.Shows t) : LastShows (ls ++ [l]) n t := by
  by_cases hn : l.samples = .int n
  · exact lastShows_concat_self ls hn (hl hn)
  · obtain ⟨before, l', after, rfl, hn', ht, hafter⟩ := h
    refine ⟨before, l', after ++ [l], by simp, hn', ht, fun x hx => ?_⟩
    rw [mem_append, mem_singleton] at hx
    rcases hx with hx | rfl
    · exact hafter x hx
    · exact hn

namespace Settings

variable {w' : World}

variable {s : Settings} {n : Nat} {m : Mind} {w : World} {filed : Option Mind} {ls : List Learner}

/-! ### How far the file is behind -/

def stored (s : Settings) (filed : Option Mind) : Mind := filed.getD (s.fresh 0)

/-- What is in the file, and how it compares with what is in mind after the learners so far. -/
structure Safe (s : Settings) (n : Nat) (ls : List Learner) (m : Mind) (filed : Option Mind) (w : World) : Prop where
  file : w.disk.fileAt? s.file = (filed.map s.document).map (Json.saved .indented)
  mind : s.Sound n m
  stored : s.Sound n (s.stored filed)
  le : (s.stored filed).samples ≤ m.samples
  fifth : m.samples / 5 * 5 ≤ (s.stored filed).samples
  now : m.samples = (s.stored filed).samples → m.tables = (s.stored filed).tables
  last : LastShows ls (s.stored filed).samples (s.stored filed).tables

/-- What follows in a safe session: fewer samples than the last multiple of five are never stored. -/
theorem Safe.concat (h : s.Safe n ls m filed w)
    (hfile : w'.disk.fileAt? s.file = w.disk.fileAt? s.file) (hm' : s.Sound (n + 1) m')
    (hle : (s.stored filed).samples ≤ m'.samples) (hfifth : m'.samples / 5 * 5 ≤ (s.stored filed).samples)
    (hnow : m'.samples = (s.stored filed).samples → m'.tables = (s.stored filed).tables) :
    s.Safe (n + 1) (ls ++ [s.learner m']) m' filed w' where
  file := hfile.trans h.file
  mind := hm'
  stored := h.stored.mono (Nat.le_succ n)
  le := hle
  fifth := hfifth
  now := hnow
  last := h.last.concat fun hn => by
    have hsamples : m'.samples = (s.stored filed).samples := Int.ofNat.inj (Value.int.inj hn)
    rw [← hnow hsamples]
    exact s.shows_learner m'

theorem Safe.same (h : s.Safe n ls m filed w) (hfile : w'.disk.fileAt? s.file = w.disk.fileAt? s.file) :
    s.Safe (n + 1) (ls ++ [s.learner m]) m filed w' :=
  h.concat hfile (h.mind.mono (Nat.le_succ n)) h.le h.fifth h.now

/-- A sample that is not saved is no fifth one. -/
theorem Safe.learned (h : s.Safe n ls m filed w) (hresult : result.fault? = none)
    (hlearned : s.Learned w m code result m') (hfifth : m'.samples % 5 ≠ 0) :
    s.Safe (n + 1) (ls ++ [s.learner m']) m' filed w := by
  have hle := h.le
  have hbehind := h.fifth
  have hsamples := hlearned.samples
  exact h.concat rfl (h.mind.learned hresult hlearned) (by omega) (by omega) fun heq => by omega

theorem Safe.read (h : s.Safe n ls m filed w) (hfile : w'.disk.fileAt? s.file = w.disk.fileAt? s.file)
    (hm' : s.Sound (n + 1) m') (hsamples : m'.samples = (s.stored filed).samples)
    (htables : m'.tables = (s.stored filed).tables) : s.Safe (n + 1) (ls ++ [s.learner m']) m' filed w' :=
  h.concat hfile hm' hsamples.ge (hsamples ▸ Nat.div_mul_le_self _ _) fun _ => htables

theorem safe_saved (hwritable : w.disk.Writable s.file) (hm : s.Sound n m) :
    s.Safe n (ls ++ [s.learner m]) m (some m) (s.saved m w) where
  file := by
    rw [saved, Json.perform_save hwritable, World.disk_withDisk, Disk.fileAt?_put_self]
    rfl
  mind := hm
  stored := hm
  le := Nat.le_refl _
  fifth := Nat.div_mul_le_self _ _
  now _ := rfl
  last := lastShows_concat_self ls rfl (s.shows_learner m)

theorem Safe.kept (h : s.Safe n ls m filed w) : s.Kept w := by
  intro c hc
  rw [h.file] at hc
  cases filed with
  | none => cases hc
  | some f => exact ⟨f, h.stored.consistent, (Option.some.inj hc).symm⟩

theorem Safe.perform_load? (h : s.Safe n ls m filed w) (hs : s.Fits n)
    (hfile : w'.disk.fileAt? s.file = w.disk.fileAt? s.file) (hwritable : w'.disk.Writable s.file) :
    (Json.load? s.file).perform w' = (.ok (filed.map fun f => (s.document f).normal), w') := by
  rw [Json.perform_load?_of_writable hwritable (hfile.trans h.file)]
  cases filed with
  | none => rfl
  | some f =>
    have hf : s.Sound n f := h.stored
    show (Except.ok (Json.reloaded (s.document f)), w') = _
    rw [Json.reloaded, hf.fault?_document hs]
    rfl

theorem Safe.load (h : s.Safe n ls m filed w) (hs : s.Fits n)
    (hfile : w'.disk.fileAt? s.file = w.disk.fileAt? s.file) (hwritable : w'.disk.Writable s.file) (m₀ : Mind) :
    filed = none ∧ (Learner.load.perform (s.learner m₀, w')).2 = (s.learner m₀, w') ∨
      ∃ m', s.Sound n m' ∧ m'.samples = (s.stored filed).samples ∧ m'.tables = (s.stored filed).tables ∧
        (Learner.load.perform (s.learner m₀, w')).2 = (s.learner m', w') := by
  have hload := h.perform_load? hs hfile hwritable
  cases filed with
  | none => exact .inl ⟨rfl, by rw [Learner.perform_load_of_none s hload]⟩
  | some f =>
    have hf : s.Sound n f := h.stored
    obtain ⟨rate, hread⟩ := Learner.perform_load_of_some s (m := m₀) hf.consistent hload
    refine .inr ⟨{ f.kept with rate, lastSave := m₀.lastSave }, ?_, rfl, rfl, hread⟩
    exact ⟨hf.consistent, hf.samples_le, hf.kept.history⟩

/-! ### The session -/

end Settings

def Request.IsPlain : Request → Prop
  | .learn _ result => result.fault? = none
  | _ => True

namespace Settings

variable {s : Settings} {n : Nat} {m : Mind} {w : World} {filed : Option Mind} {ls : List Learner}

/-- The file is never more than four samples behind. -/
theorem Safe.next (h : s.Safe n ls m filed w) (hs : s.Fits n) {r : Request} (hr : r.IsPlain)
    (hbefore : w.disk.Writable s.file) (hafter : (s.next (s.learner m, w) r).2.disk.Writable s.file) :
    ∃ m' filed' w', s.next (s.learner m, w) r = (s.learner m', w') ∧
      s.Safe (n + 1) (ls ++ [s.learner m']) m' filed' w' := by
  cases r with
  | learn code result =>
    rcases next_learn h.mind.consistent w code result with hsame | ⟨m', hlearned, ⟨hfifth, hnext⟩ | hnext⟩
    · exact ⟨m, filed, w, hsame, h.same rfl⟩
    · exact ⟨m', filed, w, hnext, h.learned hr hlearned hfifth⟩
    · exact ⟨m', some m', _, hnext, safe_saved hbefore (h.mind.learned hr hlearned)⟩
  | save => exact ⟨m, some m, _, next_save, safe_saved hbefore (h.mind.mono (Nat.le_succ n))⟩
  | load =>
    rcases h.load hs rfl hbefore m with ⟨-, hload⟩ | ⟨m', hm', hsamples, htables, hload⟩
    · exact ⟨m, filed, w, (next_load _).trans hload, h.same rfl⟩
    · exact ⟨m', filed, w, (next_load _).trans hload, h.read rfl (hm'.mono (Nat.le_succ n)) hsamples htables⟩
  | wait seconds => exact ⟨m, filed, _, rfl, h.same rfl⟩
  | reopen =>
    rcases hmade : (Job.makeDirectories (Disk.parent s.path)).perform w with ⟨made, w'⟩
    have hfile : w'.disk.fileAt? s.file = w.disk.fileAt? s.file := by
      have hsame := Job.leaves_makeDirectories s.file (Disk.parent s.path) w
      rwa [hmade] at hsame
    have hwritable : w'.disk.Writable s.file := by
      obtain ⟨m', -, hload⟩ := (h.kept.makeDirectories hmade).load (m := s.fresh w.clock) (sound_fresh s _).consistent
      rcases next_reopen (l := s.learner m) hmade hload with hnext | hnext
      · rwa [hnext] at hafter
      · rwa [hnext] at hafter
    have hread : ∃ m', s.Sound (n + 1) m' ∧ m'.samples = (s.stored filed).samples ∧
        m'.tables = (s.stored filed).tables ∧
        (Learner.load.perform (s.learner (s.fresh w.clock), w')).2 = (s.learner m', w') := by
      rcases h.load hs hfile hwritable (s.fresh w.clock) with ⟨rfl, hload⟩ | ⟨m', hm', hsamples, htables, hload⟩
      · exact ⟨s.fresh w.clock, (sound_fresh s _).mono (Nat.zero_le _), rfl, rfl, hload⟩
      · exact ⟨m', hm'.mono (Nat.le_succ n), hsamples, htables, hload⟩
    obtain ⟨m', hm', hsamples, htables, hload⟩ := hread
    rcases next_reopen (l := s.learner m) hmade hload with hnext | hnext
    · exact ⟨m, filed, w', hnext, h.same hfile⟩
    · exact ⟨m', filed, w', hnext, h.read hfile hm' hsamples htables⟩

theorem safe_start (hfile : w.disk.fileAt? s.file = none) {l₀ : Learner} {w₀ : World}
    (hstart : s.start.perform w = (.ok l₀, w₀)) (hwritable : w₀.disk.Writable s.file) :
    ∃ m, l₀ = s.learner m ∧ s.Safe 0 [s.learner m] m none w₀ := by
  rcases hmade : (Job.makeDirectories (Disk.parent s.path)).perform w with ⟨made, w'⟩
  have hnone : w'.disk.fileAt? s.file = none := by
    have hsame := Job.leaves_makeDirectories s.file (Disk.parent s.path) w
    rw [hmade] at hsame
    exact hsame.trans hfile
  have hkept : s.Kept w' := fun c hc => by rw [hnone] at hc; cases hc
  obtain ⟨m', -, hload⟩ := hkept.load (m := s.fresh w.clock) (sound_fresh s _).consistent
  rcases Learner.perform_start s hmade (by rw [hload]) with ⟨f, hf⟩ | hok
  · rw [hf] at hstart
    cases hstart
  · rw [hok] at hstart
    cases hstart
    have hnothing := Json.perform_load?_of_no_file hwritable hnone
    refine ⟨s.fresh w.clock, by rw [Learner.perform_load_of_none s hnothing], ?_⟩
    exact ⟨hnone, sound_fresh s w.clock, sound_fresh s 0, Nat.le_refl _, Nat.div_mul_le_self _ _, fun _ => rfl,
      lastShows_concat_self [] rfl (s.shows_learner _)⟩

theorem Safe.foldl (h : s.Safe 0 [s.learner m] m filed w) (rs : List Request) (hs : s.Fits rs.length)
    (hplain : ∀ r ∈ rs, r.IsPlain)
    (hwritable : ∀ st ∈ rs.scanl s.next (s.learner m, w), st.2.disk.Writable s.file) :
    ∃ m' filed' w', rs.foldl s.next (s.learner m, w) = (s.learner m', w') ∧
      s.Safe rs.length ((rs.scanl s.next (s.learner m, w)).map Prod.fst) m' filed' w' := by
  induction rs using reverseRecOn with
  | nil => exact ⟨m, filed, w, rfl, h⟩
  | append_singleton rs r ih =>
    have hscan : (rs ++ [r]).scanl s.next (s.learner m, w) =
        rs.scanl s.next (s.learner m, w) ++ [s.next (rs.foldl s.next (s.learner m, w)) r] := by
      rw [scanl_append]
      rfl
    rw [length_append, length_singleton] at hs ⊢
    rw [hscan] at hwritable ⊢
    simp only [forall_mem_append, forall_mem_singleton] at hwritable hplain
    obtain ⟨m', filed, w', hend, hsafe⟩ := ih (hs.mono (Nat.le_succ _)) hplain.1 hwritable.1
    have hbefore : w'.disk.Writable s.file := by
      have hmem := getLast_mem (l := rs.scanl s.next (s.learner m, w)) (by simp)
      rw [getLast_scanl, hend] at hmem
      exact hwritable.1 _ hmem
    rw [hend] at hwritable
    obtain ⟨m'', filed', w'', hnext, hsafe'⟩ := hsafe.next (hs.mono (Nat.le_succ _)) hplain.2 hbefore hwritable.2
    rw [foldl_append, map_append, hend, foldl_cons, foldl_nil, hnext]
    exact ⟨m'', filed', w'', rfl, hsafe'⟩

/-! ### Places where every write succeeds -/

section

variable {p : FilePlace} (hat : s.IsAt p)
variable {st : Learner × World}

include hat

theorem IsAt.ready_saved (hready : p.Ready w.disk) (m : Mind) : p.Ready (s.saved m w).disk := by
  rw [saved, hat.file, Json.perform_save hready.writable, World.disk_withDisk, FilePlace.path,
    Disk.key_ofNames p.isName]
  exact hready.put _

theorem IsAt.ready_next (h : s.InStep st) (hready : p.Ready st.2.disk) (r : Request) :
    p.Ready (s.next st r).2.disk := by
  obtain ⟨l, w⟩ := st
  obtain ⟨m, hm, rfl, hkept⟩ := h
  cases r with
  | learn code result =>
    rcases next_learn hm w code result with hsame | ⟨m', -, ⟨-, hnext⟩ | hnext⟩
    · rw [hsame]
      exact hready
    · rw [hnext]
      exact hready
    · rw [hnext]
      exact hat.ready_saved hready m'
  | save =>
    rw [next_save]
    exact hat.ready_saved hready m
  | load =>
    obtain ⟨m', -, hload⟩ := hkept.load hm
    rw [next_load, hload]
    exact hready
  | wait seconds => exact hready
  | reopen =>
    obtain ⟨d, hmade, hready', -⟩ := p.perform_makeDirectories hready.folder.way hready.file
    rw [← hat.folder] at hmade
    obtain ⟨m', -, hload⟩ := (hkept.makeDirectories hmade).load (m := s.fresh w.clock) (sound_fresh s _).consistent
    rcases next_reopen (l := s.learner m) hmade hload with hnext | hnext
    · rw [hnext]
      exact hready'
    · rw [hnext]
      exact hready'

theorem IsAt.writable_throughout (h : s.InStep st) (hready : p.Ready st.2.disk)
    (rs : List Request) : ∀ st' ∈ rs.scanl s.next st, st'.2.disk.Writable s.file := by
  have hfirst : st.2.disk.Writable s.file := by
    rw [hat.file]
    exact hready.writable
  induction rs generalizing st with
  | nil =>
    rw [scanl_nil, forall_mem_singleton]
    exact hfirst
  | cons r rs ih =>
    rw [scanl_cons, forall_mem_cons]
    have hnext := hat.ready_next h hready r
    exact ⟨hfirst, ih (h.next r) hnext (by rw [hat.file]; exact hnext.writable)⟩

end

end Settings

/-- What a document says of the samples and the tables. -/
structure Says (doc : Value) (n : Nat) (t : Tables) : Prop where
  samples : doc.itemD "samples_processed" (.int 0) = .ok (.int n)
  weights : doc.itemD "pattern_weights" (.dict []) = .ok (.dict t.weightItems)
  confidence : doc.itemD "pattern_confidence" (.dict []) = .ok (.dict t.confidenceItems)
  known : doc.itemD "knowledge_graph" (.dict []) = .ok (.dict t.knownItems)

theorem says_document (s : Settings) (m : Mind) : Says (s.document m) m.samples m.tables := by
  constructor <;> simp [Settings.document, itemD, Table.get?]

/-- Through any session of a learner that starts without a file, as long as the file can be written, the number of
samples in the file is at most four less than that of the learner, and the tables in the file are those that the learner
last had with that number of samples. Without a file there are no samples. -/
theorem crash_loses_at_most_four (s : Settings) {w w₀ : World} {l₀ : Learner} (rs : List Request)
    (hs : s.Fits rs.length) (hfile : w.disk.fileAt? s.file = none) (hstart : s.start.perform w = (.ok l₀, w₀))
    (hplain : ∀ r ∈ rs, r.IsPlain) (hwritable : ∀ st ∈ rs.scanl s.next (l₀, w₀), st.2.disk.Writable s.file) :
    ∃ (l : Learner) (w' : World) (stored : Option Value) (d n : Nat) (t : Tables),
      rs.foldl s.next (l₀, w₀) = (l, w') ∧ (Json.load? s.file).perform w' = (.ok stored, w') ∧
      (stored = none ↔ w'.disk.fileAt? s.file = none) ∧ Says (stored.getD (.dict [])) d t ∧ l.samples = .int n ∧
      d ≤ n ∧ n ≤ d + 4 ∧ LastShows ((rs.scanl s.next (l₀, w₀)).map Prod.fst) d t := by
  have hfirst : w₀.disk.Writable s.file := hwritable (l₀, w₀) (by cases rs <;> simp)
  obtain ⟨m₀, rfl, hsafe₀⟩ := Settings.safe_start hfile hstart hfirst
  obtain ⟨m, filed, w', hend, hsafe⟩ := hsafe₀.foldl rs hs hplain hwritable
  have hlast : w'.disk.Writable s.file := by
    have hmem := List.getLast_mem (l := rs.scanl s.next (s.learner m₀, w₀)) (by simp)
    rw [List.getLast_scanl, hend] at hmem
    exact hwritable _ hmem
  have hload := hsafe.perform_load? hs rfl hlast
  have hbehind := hsafe.fifth
  refine ⟨s.learner m, w', _, (s.stored filed).samples, m.samples, (s.stored filed).tables, hend, hload, ?_, ?_, rfl,
    hsafe.le, by omega, hsafe.last⟩
  · rw [hsafe.file]
    cases filed <;> simp
  · cases filed with
    | none => exact ⟨rfl, rfl, rfl, rfl⟩
    | some f =>
      have hf : f.tables.Consistent s.digest := hsafe.stored.consistent
      show Says (s.document f).normal f.samples f.tables
      rw [s.normal_document hf]
      exact says_document s f.kept

def crashes : List Request :=
  [.learn "sulat x" (.str "success"), .learn "sulat y" .null, .reopen, .learn "sulat z" (.list [.int 1]), .save,
    .learn "x = 1" (.bool false), .wait 400, .learn "balik x" (.str "error"), .learn "sulat x" .null, .reopen]

/-- The file of a learner that is set up in the usual way is at most four samples behind. -/
theorem usual_crashes_lose_at_most_four : ∃ l₀ w₀ l w' stored, ∃ d n : Nat, ∃ t,
    ({} : Settings).start.perform {} = (.ok l₀, w₀) ∧ crashes.foldl ({} : Settings).next (l₀, w₀) = (l, w') ∧
    (Json.load? "models/gz_memory.json").perform w' = (.ok stored, w') ∧ Says (stored.getD (.dict [])) d t ∧
    l.samples = .int n ∧ d ≤ n ∧ n ≤ d + 4 ∧
    LastShows ((crashes.scanl ({} : Settings).next (l₀, w₀)).map Prod.fst) d t := by
  have hat : ({} : Settings).IsAt usualPlace := ⟨shortSighted_isAt.file, shortSighted_isAt.folder⟩
  obtain ⟨d₀, hstart, hready⟩ := hat.exists_start (w := {}) usualPlace.holds_nil
  have hfile : Disk.fileAt? ({} : Settings).file ({} : World).disk = none := rfl
  have hkept : ({} : Settings).Kept {} := fun c hc => by rw [hfile] at hc; cases hc
  have hwritable := hat.writable_throughout (hkept.start hstart) hready crashes
  have hfits : ({} : Settings).Fits crashes.length := ⟨rfl, by decide +kernel⟩
  have hplain : ∀ r ∈ crashes, r.IsPlain := by
    simp only [crashes, List.forall_mem_cons]
    exact ⟨rfl, rfl, trivial, rfl, trivial, rfl, trivial, rfl, rfl, trivial, nofun⟩
  obtain ⟨l, w', stored, d, n, t, hend, hload, -, hsays, hn, hle, hbehind, hlast⟩ :=
    crash_loses_at_most_four {} crashes hfits hfile hstart hplain hwritable
  exact ⟨_, _, l, w', stored, d, n, t, hstart, hend, hload, hsays, hn, hle, hbehind, hlast⟩

end GzLang.Learning
