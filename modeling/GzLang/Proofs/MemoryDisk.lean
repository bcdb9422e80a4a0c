import GzLang.Memory.Store
import GzLang.Proofs.Folder
import GzLang.Proofs.JsonFile

/-!
# What a memory finds on the disk

A memory keeps its categories in files of one directory. `Holds` says what the next memory there finds
for each category: what was saved, or nothing if a file is missing or holds only the first part of a
document. Opening a memory loads what is found and changes nothing of that (`perform_open`). Saving one
category changes what is found for it and for no other (`perform_saveCategory_files`), and saving all goes
on until the first category that cannot be saved (`perform_sync`).
-/

namespace GzLang.Memory

open GzLang.Action Table Store Disk Json

variable {c directory : String} {d : Disk} {found : String → Value} {s : Store}
variable {cs : List String} {b : Backend} {w : World}

/-! ### The files of a memory -/

def databaseName : String := "gz_memory.db"

def fileName (c : String) : String := c ++ ".json"

def fileNames : List String := databaseName :: categories.map fileName

theorem isName_of_mem {name : String} (h : name ∈ fileNames) : Disk.IsName name := by
  have hall : ∀ name ∈ fileNames, name ≠ "" ∧ name ≠ "." ∧ name ≠ ".." ∧ '/' ∉ name.toList := by
    decide
  obtain ⟨hempty, hdot, hdots, hslash⟩ := hall name h
  exact ⟨hslash, hempty, hdot, hdots⟩

theorem databaseName_mem : databaseName ∈ fileNames := List.mem_cons_self

theorem fileName_mem (h : c ∈ categories) : fileName c ∈ fileNames := List.mem_cons_of_mem _ (List.mem_map_of_mem h)

theorem fileName_ne {c c' : String} (h : c ≠ c') : fileName c ≠ fileName c' := by
  intro heq
  have := congrArg String.toList heq
  rw [fileName, fileName, String.toList_append, String.toList_append] at this
  exact h (String.toList_inj.1 (List.append_cancel_right this))

/-- A directory in which the files of a memory can be written. -/
structure Room (d : Disk) (directory : String) : Prop where
  folder : d.Folder directory
  files : ∀ name ∈ fileNames, d.node? (join directory name) ≠ some .directory

def fileAt (d : Disk) (directory name : String) : Option Content :=
  match d.node? (join directory name) with
  | some (.file c) => some c
  | _ => none

section Room

variable {d : Disk} {directory name : String} (h : Room d directory)
include h

theorem Room.writable (hname : name ∈ fileNames) : d.Writable (join directory name) :=
  ⟨h.folder.obstacle?_join (isName_of_mem hname), h.files name hname⟩

theorem Room.fileAt_put (hname : name ∈ fileNames) {name' : String} (hname' : name' ∈ fileNames)
    (c : Content) : fileAt (put d (key (join directory name)) (.file c)) directory name' =
      if name' = name then some c else fileAt d directory name' := by
  unfold fileAt
  split_ifs with heq
  · rw [heq, (h.writable hname).node?_put]
  · rw [node?_put_of_ne fun hkey =>
      heq (key_join_inj (isName_of_mem hname') (isName_of_mem hname) hkey)]

theorem Room.put (hname : name ∈ fileNames) (c : Content) :
    Room (put d (key (join directory name)) (.file c)) directory := by
  refine ⟨h.folder.put (isName_of_mem hname) _, fun name' hname' => ?_⟩
  by_cases heq : name' = name
  · rw [heq, (h.writable hname).node?_put]
    simp
  · rw [node?_put_of_ne fun hkey =>
      heq (key_join_inj (isName_of_mem hname') (isName_of_mem hname) hkey)]
    exact h.files name' hname'

theorem Room.content_of_fileAt (hname : name ∈ fileNames) {c : Content}
    (hfile : fileAt d directory name = some c) : d.content (join directory name) = .ok c := by
  unfold fileAt at hfile
  rw [content, (h.writable hname).reached]
  cases hnode : d.node? (join directory name) with
  | none => simp [hnode] at hfile
  | some n =>
    cases n with
    | directory => simp [hnode] at hfile
    | file c' => simpa [hnode] using hfile

theorem Room.node?_eq_none (hname : name ∈ fileNames) (hfile : fileAt d directory name = none) :
    d.node? (join directory name) = none := by
  unfold fileAt at hfile
  cases hnode : d.node? (join directory name) with
  | none => rfl
  | some n =>
    cases n with
    | directory => exact absurd hnode (h.files name hname)
    | file c' => simp [hnode] at hfile

end Room

/-! ### What is found -/

def rowItems (rs : List (Table Value)) (c : String) : Value :=
  .dict (ofList ((rs.filter (rowIn c)).map itemOf))

def Reads : Option Content → Value → Prop
  | none, v => v = .dict []
  | some t, v => ∃ l u, t = saved l u ∧ v = (reloaded u).getD (.dict [])

/-- The document that a memory finds for a category when it is opened. -/
def Finds (d : Disk) (directory : String) : Backend → String → Value → Prop
  | .files, c, v => Reads (fileAt d directory (fileName c)) v
  | .database, c, v =>
    ∃ rs, d.readRows (join directory databaseName) = .ok rs ∧ v = rowItems rs c

/-- A directory in which the next memory finds the given documents. -/
structure Holds (b : Backend) (d : Disk) (directory : String) (found : String → Value) : Prop where
  room : Room d directory
  finds : ∀ c ∈ categories, Finds d directory b c (found c)

/-- After a document was saved to the file of a category, it is found for this category. -/
theorem Holds.put_saved (h : Holds .files d directory found) (hc : c ∈ categories) (l : Json.Layout) (v : Value) :
    Holds .files (put d (key (join directory (fileName c))) (.file (saved l v)))
      directory (Function.update found c ((reloaded v).getD (.dict []))) := by
  refine ⟨h.room.put (fileName_mem hc) _, fun c' hc' => ?_⟩
  rw [Finds, h.room.fileAt_put (fileName_mem hc) (fileName_mem hc')]
  by_cases heq : c' = c
  · subst heq
    rw [if_pos rfl, Function.update_self]
    exact ⟨l, v, rfl, rfl⟩
  · rw [if_neg (fileName_ne heq), Function.update_of_ne heq]
    exact h.finds c' hc'

theorem Holds.put_empty (h : Holds .files d directory found) (hc : c ∈ categories) (hfound : found c = .dict []) :
    Holds .files (put d (key (join directory (fileName c))) (.file (saved .line (.dict [])))) directory found := by
  have hput := h.put_saved hc .line (.dict [])
  have hsame : Function.update found c ((reloaded (.dict [])).getD (.dict [])) = found := by
    rw [show (reloaded (.dict [])).getD (.dict []) = found c from hfound.symm, Function.update_eq_self]
  rwa [hsame] at hput

structure Empty (d : Disk) (directory : String) : Prop where
  folder : d.Folder directory
  nothing : ∀ name ∈ fileNames, d.node? (join directory name) = none

theorem Empty.holds (h : Empty d directory) (b : Backend) : Holds b d directory fun _ => .dict [] := by
  have hroom : Room d directory := ⟨h.folder, fun name hname => by simp [h.nothing name hname]⟩
  refine ⟨hroom, fun c hc => ?_⟩
  cases b with
  | files =>
    rw [Finds, fileAt, h.nothing _ (fileName_mem hc)]
    rfl
  | database =>
    refine ⟨[], ?_, rfl⟩
    rw [readRows, content, (hroom.writable databaseName_mem).reached, h.nothing _ databaseName_mem]

/-! ### Loading -/

def Store.withCache (s : Store) (cache : Table Value) : Store := { s with cache }

@[simp] theorem Store.cache_withCache (s : Store) (t : Table Value) : (s.withCache t).cache = t := rfl

@[simp] theorem Store.withCache_withCache (s : Store) (t u : Table Value) :
    (s.withCache t).withCache u = s.withCache u := rfl

structure Open (b : Backend) (directory : String) (s : Store) : Prop where
  directory : s.directory = directory
  backend : s.backend = b
  pending : s.pending = none
  closed : s.closed = false

theorem Open.withCache (h : Open b directory s) (t : Table Value) : Open b directory (s.withCache t) :=
  ⟨h.directory, h.backend, h.pending, h.closed⟩

theorem Open.filePath (h : Open b directory s) (c : String) : s.filePath c = Disk.join directory (fileName c) := by
  rw [Store.filePath, h.directory, fileName]

theorem perform_checkCategory {σ : Type} (h : c ∈ categories) (s : σ) :
    (liftM (checkCategory c) : Action σ Unit).perform s = (.ok (), s) := by
  rw [checkCategory, if_pos h]
  rfl

theorem Open.perform_rows (hs : Open b directory s) {rs : List (Table Value)}
    (hrows : w.disk.readRows (join directory databaseName) = .ok rs) : rows.perform (s, w) = (.ok rs, (s, w)) := by
  have hpath : s.databasePath = join directory databaseName := by
    rw [databasePath, hs.directory, databaseName]
  have hread : (liftM (Job.readRows s.databasePath) : Task Store (List (Table Value))).perform (s, w) =
      (.ok rs, (s, w)) := by
    rw [Task.perform_lift, Job.readRows, bind_get, hpath, hrows]
    rfl
  rw [rows, bind_self, hs.closed, hs.pending]
  exact hread

theorem Holds.exists_rows (h : Holds .database d directory found) :
    ∃ rs, d.readRows (join directory databaseName) = .ok rs ∧ ∀ c ∈ categories, found c = rowItems rs c := by
  obtain ⟨rs, hrs, -⟩ := h.finds "syntax_patterns" (by decide)
  refine ⟨rs, hrs, fun c hc => ?_⟩
  obtain ⟨rs', hrs', hfound⟩ := h.finds c hc
  rw [hrs] at hrs'
  cases hrs'
  exact hfound

section Loading

variable {b : Backend} {directory : String} {s : Store} {w : World} {found : String → Value}
  (hs : Open b directory s) (h : Holds b w.disk directory found)
include hs h

theorem perform_loadCategory {c : String} (hc : c ∈ categories) : ∃ d, (loadCategory c).perform (s, w) =
      (.ok (), (s.withCache (put s.cache c (found c)), w.withDisk d)) ∧
      Holds b d directory found := by
  rw [loadCategory, bind_of_ok (perform_checkCategory hc _), bind_self, hs.backend]
  cases b with
  | database =>
    obtain ⟨rs, hrs, hfound⟩ := h.exists_rows
    refine ⟨w.disk, ?_, h⟩
    rw [hfound c hc]
    exact bind_of_ok (hs.perform_rows hrs) _
  | files =>
    have hload : ∃ r, (load? (s.filePath c)).perform w = (.ok r, w) ∧ found c = r.getD (.dict []) := by
      have hreads := h.finds c hc
      rw [hs.filePath, Finds] at *
      cases hfile : fileAt w.disk directory (fileName c) with
      | none =>
        rw [hfile] at hreads
        exact ⟨none, perform_load?_of_absent (h.room.writable (fileName_mem hc)).reached
          (h.room.node?_eq_none (fileName_mem hc) hfile), hreads⟩
      | some t =>
        rw [hfile] at hreads
        obtain ⟨l, u, rfl, hfound⟩ := hreads
        exact ⟨_, perform_load? (h.room.content_of_fileAt (fileName_mem hc) hfile), hfound⟩
    obtain ⟨r, hr, hfound⟩ := hload
    have hlift : (liftM (load? (s.filePath c)) : Task Store (Option Value)).perform (s, w) = (.ok r, (s, w)) := by
      rw [Task.perform_lift, hr]
    cases r with
    | some v =>
      refine ⟨w.disk, ?_, h⟩
      rw [hfound]
      exact bind_of_ok hlift _
    | none =>
      refine ⟨_, ?_, h.put_empty hc hfound⟩
      refine (bind_of_ok hlift _).trans ?_
      rw [hfound, putCategory]
      refine (bind_of_ok (Task.perform_update _ s w) _).trans ?_
      rw [Task.perform_lift, hs.filePath, perform_save (h.room.writable (fileName_mem hc))]
      rfl

theorem perform_loadAll (hcs : ∀ c ∈ cs, c ∈ categories) :
    ∃ t d, (cs.forM loadCategory).perform (s, w) = (.ok (), (s.withCache t, w.withDisk d)) ∧ Holds b d directory found ∧
      ∀ c, t.get? c = if c ∈ cs then some (found c) else s.cache.get? c := by
  induction cs generalizing s w with
  | nil => exact ⟨s.cache, w.disk, rfl, h, fun c => rfl⟩
  | cons c cs ih =>
    rw [List.forall_mem_cons] at hcs
    obtain ⟨d, hload, hd⟩ := perform_loadCategory hs h hcs.1
    obtain ⟨t, d', hrest, hd', ht⟩ := ih (hs.withCache _) (w := w.withDisk d) hd hcs.2
    refine ⟨t, d', (bind_of_ok hload _).trans hrest, hd', fun c' => ?_⟩
    rw [ht, cache_withCache]
    by_cases heq : c = c'
    · subst heq
      simp
    · rw [get?_put_of_ne _ heq]
      simp [Ne.symm heq]

end Loading

/-! ### Opening -/

theorem Room.perform_commit (h : Room w.disk directory) (hs : s.directory = directory) (rs : List (Table Value)) :
    (commit rs).perform (s, w) = (.ok (), ({ s with pending := none },
      w.withDisk (Table.put w.disk (key (Disk.join directory databaseName)) (.file (.rows rs))))) := by
  have hrows : w.disk.writeRows s.databasePath rs =
      .ok (Table.put w.disk (key (Disk.join directory databaseName)) (.file (.rows rs))) := by
    rw [databasePath, hs, show "gz_memory.db" = databaseName from rfl, writeRows,
      (h.writable databaseName_mem).writeText]
    exact congrArg Except.ok (Table.put_put w.disk _ _ _)
  have hwrite : (liftM (Job.writeRows s.databasePath rs) : Task Store Unit).perform (s, w) =
      (.ok (), (s, w.withDisk (Table.put w.disk (key (Disk.join directory databaseName)) (.file (.rows rs))))) := by
    rw [Task.perform_lift, Job.writeRows, bind_get, hrows]
    rfl
  rw [commit, bind_self, bind_of_ok hwrite]
  rfl

theorem Room.holds_rows (h : Room d directory) (rs : List (Table Value)) :
    Holds .database (Table.put d (key (Disk.join directory databaseName)) (.file (.rows rs))) directory
      (rowItems rs) := by
  refine ⟨h.put databaseName_mem _, fun c _ => ⟨rs, ?_, rfl⟩⟩
  rw [readRows, (h.writable databaseName_mem).content_put]

theorem Holds.congr {found found' : String → Value}
    (h : Holds b d directory found) (heq : ∀ c ∈ categories, found c = found' c) : Holds b d directory found' :=
  ⟨h.room, fun c hc => heq c hc ▸ h.finds c hc⟩

section Opening

variable {b : Backend} {directory : String} {s : Store} {w : World} {found : String → Value}

theorem perform_makeDirectories (h : w.disk.Folder directory) :
    (Job.makeDirectories directory).perform w = (.ok (), w) := by
  have hmake : (makeDirectories directory).perform (World.diskPart.get w) = (.ok (), w.disk) := h.makeDirectories
  rw [Job.makeDirectories, Action.on, perform_of, hmake]
  rfl

theorem perform_makeFiles (hs : Open .files directory s) (h : Holds .files w.disk directory found)
    (hcs : ∀ c ∈ cs, c ∈ categories) :
    ∃ d, (cs.forM fun c => do
        if !(← Job.pathExists (s.filePath c)) then
          liftM (save .line (s.filePath c) (.dict [])) : Task Store Unit).perform (s, w) =
      (.ok (), (s, w.withDisk d)) ∧ Holds .files d directory found := by
  induction cs generalizing w with
  | nil => exact ⟨w.disk, rfl, h⟩
  | cons c cs ih =>
    rw [List.forall_mem_cons] at hcs
    have hstep : ∃ d, (do
        if !(← Job.pathExists (s.filePath c)) then
          liftM (save .line (s.filePath c) (.dict [])) : Task Store Unit).perform (s, w) =
        (.ok (), (s, w.withDisk d)) ∧ Holds .files d directory found := by
      have hexists : (liftM (Job.pathExists (s.filePath c)) : Task Store Bool).perform (s, w) =
          (.ok (w.disk.has (Disk.join directory (fileName c))), (s, w)) := by
        rw [Task.perform_lift, Job.perform_pathExists, hs.filePath]
      rw [bind_of_ok hexists]
      cases hhas : w.disk.has (Disk.join directory (fileName c)) with
      | true => exact ⟨w.disk, rfl, h⟩
      | false =>
        have hfound : found c = .dict [] := by
          have hnode : w.disk.node? (Disk.join directory (fileName c)) = none := by
            simpa [Disk.has] using hhas
          have hreads := h.finds c hcs.1
          rwa [Finds, fileAt, hnode] at hreads
        refine ⟨_, ?_, h.put_empty hcs.1 hfound⟩
        rw [if_pos (by rfl), Task.perform_lift, hs.filePath,
          perform_save (h.room.writable (fileName_mem hcs.1))]
        rfl
    obtain ⟨d, hd, hholds⟩ := hstep
    obtain ⟨d', hd', hholds'⟩ := ih (w := w.withDisk d) hholds hcs.2
    exact ⟨d', (bind_of_ok hd _).trans hd', hholds'⟩

theorem perform_prepare (hs : Open b directory s) (h : Holds b w.disk directory found) :
    ∃ d, prepare.perform (s, w) = (.ok (), (s, w.withDisk d)) ∧ Holds b d directory found := by
  rw [prepare, bind_self, hs.backend]
  cases b with
  | files => exact perform_makeFiles hs h fun _ hc => hc
  | database =>
    obtain ⟨rs, hrs, hfound⟩ := h.exists_rows
    refine ⟨_, ?_, (h.room.holds_rows rs).congr fun c hc => (hfound c hc).symm⟩
    refine (bind_of_ok (hs.perform_rows hrs) _).trans ((h.room.perform_commit hs.directory rs).trans ?_)
    rw [← hs.pending]

/-- A memory that is opened has all that is found, and finding is as before. -/
theorem perform_open (h : Holds b w.disk directory found) :
    ∃ s d, (Store.open directory b).perform w = (.ok s, w.withDisk d) ∧ Open b directory s ∧
      Holds b d directory found ∧ ∀ c ∈ categories, s.cache.get? c = some (found c) := by
  obtain ⟨s, hs_eq⟩ : ∃ s : Store, s = { directory, backend := b, lastSync := w.clock } := ⟨_, rfl⟩
  have hs : Open b directory s := by
    rw [hs_eq]
    exact ⟨rfl, rfl, rfl, rfl⟩
  obtain ⟨d, hprepare, hd⟩ := perform_prepare hs h
  obtain ⟨t, d', hload, hd', ht⟩ := perform_loadAll hs (w := w.withDisk d) hd fun c hc => hc
  have hsetUp : (do Store.prepare; categories.forM Store.loadCategory : Task Store Unit).perform (s, w) =
      (.ok (), (s.withCache t, w.withDisk d')) :=
    (bind_of_ok hprepare _).trans hload
  refine ⟨s.withCache t, d', ?_, hs.withCache t, hd', fun c hc => ?_⟩
  · have hseconds : Job.seconds.perform w = (.ok w.clock, w) := rfl
    rw [Store.open, bind_of_ok hseconds, ← hs_eq]
    refine (bind_of_ok (perform_makeDirectories h.room.folder) _).trans ?_
    rw [Task.start, perform_of, hsetUp]
  · rw [Store.cache_withCache, ht, if_pos hc]

end Opening

/-! ### Saving -/

theorem perform_category {v : Value} (hv : s.cache.get? c = some v) (w : World) :
    (category c).perform (s, w) = (.ok v, (s, w)) := by
  rw [category, bind_self, hv]
  rfl

/-- A category that is saved to its file is found as far as its document can be written. -/
theorem perform_saveCategory_files (hs : Open .files directory s) (h : Holds .files w.disk directory found)
    (hc : c ∈ categories) {v : Value} (hv : s.cache.get? c = some v) :
    ∃ d, (saveCategory c).perform (s, w) = (outcome v.fault?, (s, w.withDisk d)) ∧
      Holds .files d directory (Function.update found c ((reloaded v).getD (.dict []))) := by
  have hwritable := h.room.writable (fileName_mem hc)
  refine ⟨_, ?_, h.put_saved hc .indented v⟩
  have hempty : (liftM (Job.writeText (s.filePath c) "") : Task Store Unit).perform (s, w) =
      (.ok (), (s, w.withDisk (put w.disk (key (join directory (fileName c))) (.file (.text ""))))) := by
    rw [Task.perform_lift, hs.filePath, Job.perform_writeText hwritable]
    rfl
  rw [saveCategory, bind_of_ok (perform_checkCategory hc _), bind_self, hs.backend]
  refine (bind_of_ok hempty _).trans ((bind_of_ok (perform_category hv _) _).trans ?_)
  rw [Task.perform_lift, hs.filePath, perform_save (hwritable.put (.text "")), World.disk_withDisk, put_put]
  rfl

/-- What is found after categories were saved one after the other, up to the first that cannot be saved
whole. -/
def settle (fault : String → Option Fault) (kept : String → Value) :
    List String → (String → Value) → String → Value
  | [], found => found
  | c :: cs, found =>
    let found := Function.update found c (kept c)
    if (fault c).isSome then found else settle fault kept cs found

section Saving

variable {b : Backend} {directory : String} {s : Store} {w : World} {found : String → Value}
  {fault : String → Option Fault} {kept : String → Value}

theorem perform_saveAll (hsave : ∀ c ∈ cs, ∀ d found, Holds b d directory found →
      ∃ d', (saveCategory c).perform (s, w.withDisk d) = (outcome (fault c), (s, w.withDisk d')) ∧
        Holds b d' directory (Function.update found c (kept c)))
    (hhas : ∀ c ∈ cs, s.cache.has c) {d : Disk} (h : Holds b d directory found) :
    ∃ d', (cs.forM fun c => do
        if has (← Task.self).cache c then saveCategory c : Task Store Unit).perform
          (s, w.withDisk d) = (outcome (cs.findSome? fault), (s, w.withDisk d')) ∧
      Holds b d' directory (settle fault kept cs found) := by
  induction cs generalizing d found with
  | nil => exact ⟨d, rfl, h⟩
  | cons c cs ih =>
    rw [List.forall_mem_cons] at hsave hhas
    obtain ⟨d', hd', hholds⟩ := hsave.1 d found h
    have hstep : (do if has (← Task.self).cache c then saveCategory c : Task Store Unit).perform
        (s, w.withDisk d) = (outcome (fault c), (s, w.withDisk d')) := by
      rw [bind_self, if_pos hhas.1, hd']
    rw [settle, List.findSome?_cons]
    cases hfault : fault c with
    | some f =>
      rw [hfault] at hstep
      exact ⟨d', bind_of_error hstep _, hholds⟩
    | none =>
      rw [hfault] at hstep
      obtain ⟨d'', hrest, hholds'⟩ := ih hsave.2 hhas.2 hholds
      exact ⟨d'', (bind_of_ok hstep _).trans hrest, hholds'⟩

/-- Saving all ends with the fault of the first category that cannot be saved, if there is one. -/
theorem perform_sync (hs : Open b directory s) (hsave : ∀ c ∈ categories, ∀ d found, Holds b d directory found →
      ∃ d', (saveCategory c).perform (s, w.withDisk d) = (outcome (fault c), (s, w.withDisk d')) ∧
        Holds b d' directory (Function.update found c (kept c)))
    (hhas : ∀ c ∈ categories, s.cache.has c) (h : Holds b w.disk directory found) :
    ∃ s' d, sync.perform (s, w) = (outcome (categories.findSome? fault), (s', w.withDisk d)) ∧
      Open b directory s' ∧ s'.cache = s.cache ∧
      Holds b d directory (settle fault kept categories found) := by
  obtain ⟨d, hall, hholds⟩ := perform_saveAll hsave hhas h
  rw [World.withDisk_disk] at hall
  cases hfault : categories.findSome? fault with
  | some f =>
    rw [hfault] at hall
    exact ⟨s, d, bind_of_error hall _, hs, rfl, hholds⟩
  | none =>
    rw [hfault] at hall
    exact ⟨{ s with lastSync := w.clock }, d, bind_of_ok hall _,
      ⟨hs.directory, hs.backend, hs.pending, hs.closed⟩, rfl, hholds⟩

theorem settle_of_forall (hfault : ∀ c ∈ cs, fault c = none) (c : String) :
    settle fault kept cs found c = if c ∈ cs then kept c else found c := by
  induction cs generalizing found with
  | nil => rfl
  | cons c' cs ih =>
    rw [List.forall_mem_cons] at hfault
    rw [settle, hfault.1, Option.isSome_none, if_neg Bool.false_ne_true, ih hfault.2]
    by_cases heq : c = c'
    · subst heq
      simp
    · simp [heq]

end Saving

end GzLang.Memory
