import GzLang.Proofs.JsonFile
import GzLang.Proofs.Path

/-!
# The place of a document

A component keeps a document in a file of its own, in a directory that it makes when it saves. `FilePlace.Holds`
says that the file can be written and what was last saved there, whole or not. Saving puts the next document
there (`Holds.perform_save`) and leaves all other files alone; a component that starts finds what was saved
(`Holds.perform_load`), and nothing if nothing was (`Holds.has_none`).
-/

namespace GzLang

open GzLang.Action Table Disk

/-- Where a file is: the names on the way to its directory, and its own. -/
structure FilePlace where
  folder : List String
  name : String
  isName : ∀ n ∈ folder ++ [name], Disk.IsName n
  folder_ne_nil : folder ≠ []

namespace FilePlace

theorem models_ne_nil : ["models"] ≠ [] := by decide

variable (p : FilePlace)

def path : String := ofNames (p.folder ++ [p.name])

theorem isName_folder : ∀ n ∈ p.folder, Disk.IsName n := fun n hn => p.isName n (List.mem_append_left _ hn)

theorem path_ne_of_prefix {ms : List String} (h : ms <+: p.folder) : p.path ≠ ofNames ms := by
  intro heq
  have hms : ∀ n ∈ ms, Disk.IsName n := fun n hn => p.isName_folder n (h.subset hn)
  have hlength := congrArg List.length (ofNames_inj p.isName hms heq)
  have hle := h.length_le
  rw [List.length_append, List.length_singleton] at hlength
  omega

theorem node?_path (d : Disk) : d.node? p.path = get? d p.path := node?_ofNames p.isName d (by simp)

/-- The directory of the file is there, and the file can be written. -/
structure Ready (d : Disk) : Prop where
  folder : Disk.Open d p.folder
  file : get? d p.path ≠ some .directory

theorem Ready.writable {p : FilePlace} {d : Disk} (h : p.Ready d) : d.Writable p.path where
  reached := h.folder.obstacle?_concat p.isName
  file := by
    rw [p.node?_path]
    exact h.file

theorem Ready.put {p : FilePlace} {d : Disk} (h : p.Ready d) (c : Content) : p.Ready (put d p.path (.file c)) where
  folder ms hms hle := by
    rw [get?_put_of_ne d (p.path_ne_of_prefix hle)]
    exact h.folder ms hms hle
  file := by
    rw [get?_put_self]
    exact nofun

theorem perform_makeDirectories {w : World} (hway : Disk.Way w.disk p.folder)
    (hfile : get? w.disk p.path ≠ some .directory) :
    ∃ d, (Job.makeDirectories (parent p.path)).perform w = (.ok (), w.withDisk d) ∧ p.Ready d ∧
      Disk.Grown p.folder w.disk d := by
  obtain ⟨d, hmade, hopen, hgrown⟩ := perform_makeDirectories_of_way p.isName_folder p.folder_ne_nil hway
  have hjob : (Job.makeDirectories (parent p.path)).perform w = (.ok (), w.withDisk d) := by
    rw [FilePlace.path, parent_ofNames p.isName, Job.perform_makeDirectories, hmade]
  refine ⟨d, hjob, ⟨hopen, fun hdirectory => ?_⟩, hgrown⟩
  rcases hgrown.added p.path with heq | ⟨-, -, ms, -, hinit, hkey, -⟩
  · exact hfile (heq.symm.trans hdirectory)
  · exact p.path_ne_of_prefix hinit hkey

/-- What is found in the file: nothing, or what was saved of a document. -/
def Found (d : Disk) : Option Value → Prop
  | none => get? d p.path = none
  | some v => Disk.Open d p.folder ∧ get? d p.path = some (.file (Json.saved .indented v))

/-- The file can be written, and what it holds. -/
structure Holds (filed : Option Value) (d : Disk) : Prop where
  way : Disk.Way d p.folder
  nodup : d.keys.Nodup
  found : p.Found d filed

theorem holds_nil : p.Holds none [] where
  way := ⟨fun _ _ _ _ h => (by cases h), fun _ _ _ _ _ _ => rfl⟩
  nodup := List.nodup_nil
  found := rfl

def OthersSame (d d' : Disk) : Prop :=
  ∀ k ≠ p.path, ∀ c, get? d' k = some (.file c) ↔ get? d k = some (.file c)

end FilePlace

namespace FilePlace.Holds

variable {p : FilePlace} {filed : Option Value} {w : World}

theorem file (h : p.Holds filed w.disk) : get? w.disk p.path ≠ some .directory := by
  intro hdirectory
  have hfound := h.found
  cases filed with
  | none =>
    rw [Found, hdirectory] at hfound
    cases hfound
  | some v =>
    rw [Found, hdirectory] at hfound
    cases hfound.2

theorem perform_makeDirectories (h : p.Holds filed w.disk) :
    ∃ d, (Job.makeDirectories (parent p.path)).perform w = (.ok (), w.withDisk d) ∧ p.Ready d ∧
      d.keys.Nodup ∧ p.OthersSame w.disk d := by
  obtain ⟨d, hjob, hready, hgrown⟩ := p.perform_makeDirectories h.way h.file
  exact ⟨d, hjob, hready, hgrown.nodup h.nodup, fun k _ => hgrown.get?_file_iff k⟩

/-- Saving puts a document in the file, as far as it has a written form. -/
theorem perform_save (h : p.Holds filed w.disk) (v : Value) :
    ∃ d d', (Job.makeDirectories (parent p.path)).perform w = (.ok (), w.withDisk d) ∧
      (Json.save .indented p.path v).perform (w.withDisk d) = (Json.outcome v.fault?, w.withDisk d') ∧
      p.Holds (some v) d' ∧ p.OthersSame w.disk d' := by
  obtain ⟨d, hmade, hready, hnodup, hsame⟩ := h.perform_makeDirectories
  have hkey : key p.path = p.path := key_ofNames p.isName
  have hsaved := Json.perform_save (w := w.withDisk d) hready.writable .indented v
  rw [World.disk_withDisk, World.withDisk_withDisk, hkey] at hsaved
  refine ⟨d, _, hmade, hsaved, ?_, fun k hk c => ?_⟩
  · have hopen := (hready.put (Json.saved .indented v)).folder
    exact ⟨hopen.way, nodup_keys_put hnodup _ _, hopen, get?_put_self ..⟩
  · rw [get?_put_of_ne d (Ne.symm hk)]
    exact hsame k hk c

/-- Saving that passes over faults puts a document in the file all the same. -/
theorem perform_saveQuietly (h : p.Holds filed w.disk) (v : Value) : ∃ d, (orElse (do
        Job.makeDirectories (parent p.path)
        Json.save .indented p.path v) fun _ => pure () : Job Unit).perform w = (.ok (), w.withDisk d) ∧
      p.Holds (some v) d := by
  obtain ⟨d, d', hmade, hsaved, hholds, -⟩ := h.perform_save v
  refine ⟨d', ?_, hholds⟩
  rw [perform_orElse, bind_of_ok hmade, hsaved]
  cases v.fault? <;> rfl

theorem has_none (h : p.Holds none w.disk) : w.disk.has p.path = false := by
  rw [Disk.has, p.node?_path, h.found]
  rfl

theorem content {v : Value} (h : p.Holds (some v) w.disk) : w.disk.content p.path = .ok (Json.saved .indented v) := by
  obtain ⟨hopen, hfile⟩ := h.found
  have hreached : w.disk.obstacle? p.path = none := hopen.obstacle?_concat p.isName
  rw [Disk.content, hreached, p.node?_path, hfile]

theorem perform_load {v : Value} (h : p.Holds (some v) w.disk) (hfault : v.fault? = none) :
    (Json.load p.path).perform w = (.ok v.normal, w) := by
  obtain ⟨-, -, hwhole, -⟩ := Json.parse_dump .indented v
  rw [Json.perform_load h.content, hwhole hfault]

theorem perform_load_of_fault {v : Value} (h : p.Holds (some v) w.disk) (hfault : v.fault? ≠ none) :
    ∃ f, (Json.load p.path).perform w = (.error f, w) := by
  obtain ⟨-, -, -, hbroken⟩ := Json.parse_dump .indented v
  obtain ⟨why, line, column, position, hparse⟩ := hbroken hfault
  exact ⟨_, by rw [Json.perform_load h.content, hparse]⟩

end FilePlace.Holds

end GzLang
